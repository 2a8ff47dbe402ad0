import Condor.Log.Recovery

/-!
# The log parser — the model of `ClassAdLogParser`

A second reader of the log follows a file that is still being written. It keeps the offset of the
next record and the last two entries, and it reads one record at a time.

* **`readLogEntry_line`**, **`readLogEntry_torn`**: what a call does at the start of a line. A cut
  inside the comment of an end of transaction is the exception.
-/

namespace Condor.Log.Parser

open List

variable {E : Type} {X : Exprs E}

/-- The strings of a `ClassAdLogEntry`; no value stands for `NULL`. -/
structure Fields where
  key : Option Text
  mytype : Option Text
  targettype : Option Text
  name : Option Text
  value : Option Text
deriving DecidableEq, Repr

/-- The strings after `init`. -/
def Fields.init : Fields := ⟨none, none, none, none, none⟩

/-- `ClassAdLogEntry`. -/
structure LogEntry where
  opType : ℤ
  offset : ℕ
  nextOffset : ℕ
  fields : Fields
deriving DecidableEq, Repr

/-- `ClassAdLogEntry::operator=`, which does not copy the operation. -/
def LogEntry.assign (a b : LogEntry) : LogEntry := { b with opType := a.opType }

def LogEntry.equal (a b : LogEntry) : Bool :=
  b.opType = a.opType && match LogOp.ofCode b.opType with
    | some .newClassAd => b.fields.key = a.fields.key && b.fields.mytype = a.fields.mytype &&
        b.fields.targettype = a.fields.targettype
    | some .destroyClassAd => b.fields.key = a.fields.key
    | some .setAttribute => b.fields.key = a.fields.key && b.fields.name = a.fields.name &&
        b.fields.value = a.fields.value
    | some .deleteAttribute => b.fields.key = a.fields.key && b.fields.name = a.fields.name
    | some .beginTransaction | some .endTransaction => true
    | some .logHistoricalSequenceNumber =>
      b.fields.key = a.fields.key && b.fields.value = a.fields.value
    | none => false

/-- `FileOpErrCode`, as far as `readLogEntry` returns it. -/
inductive FileOpErrCode where
  | readSuccess
  | readEof
  | readError
  | fatalError
deriving DecidableEq, Repr

/-- A type name as it is read; the placeholder stands for the empty one. -/
def typeOfWord (w : Text) : Text := if w = emptyTypeName then [] else w

/-- The body readers, `read*Body`. -/
def entryBody : LogOp → Reader Char Fields
  | .newClassAd => do
    let key ← readword
    let mytype ← readword
    let targettype ← readword
    pure { Fields.init with
      key := some key, mytype := some (typeOfWord mytype),
      targettype := some (typeOfWord targettype) }
  | .destroyClassAd => do
    let key ← readword
    pure { Fields.init with key := some key }
  | .setAttribute | .logHistoricalSequenceNumber => do
    let key ← readword
    let name ← readword
    let value ← readline
    pure { Fields.init with key := some key, name := some name, value := some value }
  | .deleteAttribute => do
    let key ← readword
    let name ← readword
    pure { Fields.init with key := some key, name := some name }
  | .beginTransaction => do
    let ch ← Reader.next
    if ch = '\n' then pure Fields.init else .fail
  | .endTransaction => do
    let ch ← Reader.next
    if ch = '\n' then pure Fields.init
    else if ch = '#' then
      -- the result of reading the comment is not looked at
      fun s => (some { Fields.init with value := (readline.run s).1 }, (readline.run s).2)
    else .fail

inductive Scan where
  /-- At the end of the file. -/
  | eof
  /-- Before the end of the file. -/
  | stuck
  /-- At an end of transaction. -/
  | endTransaction
deriving DecidableEq, Repr

/-- The scan behind a corrupt record; the length of the stream bounds the lines. -/
def scanLines : ℕ → Text → Scan
  | 0, _ => .eof
  | fuel + 1, s =>
    match readline.run s with
    | (some line, rest) => if scanOp line = some .endTransaction then .endTransaction
        else scanLines fuel rest
    | (none, _) => if ∀ c ∈ s, c ≠ '\n' ∧ c ≠ nul then .eof else .stuck

/-- `ClassAdLogParser`, less the name of the file and the open stream. -/
structure LogParser where
  nextOffset : ℕ
  cur : LogEntry
  last : LogEntry
deriving DecidableEq, Repr

def LogEntry.new : LogEntry := ⟨0, 0, 0, Fields.init⟩

def LogParser.new : LogParser := ⟨0, LogEntry.new, LogEntry.new⟩

def atoi (w : Text) : ℤ := ((strtoll w).getD 0 + 2 ^ 31) % 2 ^ 32 - 2 ^ 31

/-- `ClassAdLogParser::readLogEntry` on an open file. -/
def readLogEntry (p : LogParser) (file : Text) : FileOpErrCode × LogParser :=
  match readword.run (file.drop p.nextOffset) with
  | (none, _) => (.readEof, p)
  | (some word, s) =>
    let op := atoi word
    let last := LogEntry.assign { p.last with opType := p.cur.opType } p.cur
    let cur := { p.cur with opType := op, fields := Fields.init, offset := p.nextOffset }
    match LogOp.ofCode op with
    | none => (.readError, { p with cur := cur, last := last })
    | some o =>
      match (entryBody o).run s with
      | (some fields, rest) =>
        let next := file.length - rest.length
        (.readSuccess, ⟨next, { cur with fields := fields, nextOffset := next }, last⟩)
      | (none, rest) =>
        match scanLines rest.length rest with
        -- the caller asserts that this does not happen
        | .endTransaction | .stuck => (.fatalError, { p with cur := cur, last := last })
        | .eof =>
          (.readEof, { p with
            cur := { cur.assign last with offset := p.nextOffset }, last := last })

/-! ## Reading the lines of a log -/

def fieldsOf : LogRecord → Fields
  | .newClassAd key mytype => { Fields.init with
      key := some key, mytype := some (typeOfWord (typeName mytype)),
      targettype := some (typeOfWord (targetType mytype)) }
  | .destroyClassAd key => { Fields.init with key := some key }
  | .setAttribute key name value =>
    { Fields.init with key := some key, name := some name, value := some value }
  | .deleteAttribute key name => { Fields.init with key := some key, name := some name }
  | .beginTransaction => Fields.init
  | .endTransaction comment => { Fields.init with value := comment }
  | .logHistoricalSequenceNumber seq timestamp => { Fields.init with
      key := some (Nat.toDigits 10 seq), name := some "CreationTimestamp".toList,
      value := some (Nat.toDigits 10 timestamp) }

theorem reads_entry_words {key name : Text} (hk : IsWord key) (hn : IsWord name) {value : Text}
    (hne : value ≠ []) (hv : IsLine value) {op : LogOp}
    (hop : op = .setAttribute ∨ op = .logHistoricalSequenceNumber) :
    Reads (entryBody op) ((key ++ [' ']) ++ ((name ++ [' ']) ++ (value ++ ['\n'])))
      { Fields.init with key := some key, name := some name, value := some value } := by
  rcases hop with rfl | rfl <;>
    exact Reads.bind (reads_readword hk (by decide)) (Reads.bind (reads_readword hn (by decide))
      ((reads_readline hne hv).map fun value =>
        { Fields.init with key := some key, name := some name, value := some value }))

variable {r : LogRecord} {p : LogParser}

theorem reads_entryBody (h : WellFormed X r) (hcomment : ∀ c, r ≠ .endTransaction (some c)) :
    ∃ body, writeBody r = some body ∧ Reads (entryBody r.op) (body ++ ['\n']) (fieldsOf r) := by
  cases r with
  | newClassAd key mytype =>
    refine ⟨_, writeBody_new key mytype, ?_⟩
    have hline : newWords key mytype ++ targetType mytype ++ ['\n'] = (key ++ [' ']) ++
        ((typeName mytype ++ [' ']) ++ (targetType mytype ++ ['\n'])) := by simp [newWords]
    rw [hline]
    exact Reads.bind (reads_readword h.1 (by decide))
      (Reads.bind (reads_readword (isWord_typeName h.2) (by decide))
        ((reads_readword (isWord_targetType h.2) (by decide)).map fun t => { Fields.init with
          key := some key, mytype := some (typeOfWord (typeName mytype)),
          targettype := some (typeOfWord t) }))
  | destroyClassAd key =>
    refine ⟨_, rfl, ?_⟩
    exact (reads_readword h (by decide)).map fun key =>
      ({ Fields.init with key := some key } : Fields)
  | setAttribute key name value =>
    obtain ⟨hk, hn, hne, hl, -⟩ := h
    refine ⟨_, writeBody_set hk hn hl, ?_⟩
    rw [three_words]
    exact reads_entry_words hk hn hne hl (.inl rfl)
  | deleteAttribute key name =>
    refine ⟨_, rfl, ?_⟩
    rw [two_words]
    exact Reads.bind (reads_readword h.1 (by decide)) ((reads_readword h.2 (by decide)).map
      fun name => { Fields.init with key := some key, name := some name })
  | beginTransaction => exact ⟨_, rfl, Reads.bind (w := ['\n']) (reads_next '\n') (Reads.ret _)⟩
  | endTransaction comment =>
    cases comment with
    | none => exact ⟨_, rfl, Reads.bind (w := ['\n']) (reads_next '\n') (Reads.ret _)⟩
    | some c => exact absurd rfl (hcomment c)
  | logHistoricalSequenceNumber seq timestamp =>
    refine ⟨_, rfl, ?_⟩
    rw [sequence_words]
    exact reads_entry_words (isWord_toDigits seq) (by decide) Nat.toDigits_ne_nil
      (isWord_toDigits timestamp).isLine (.inr rfl)

theorem run_entryBody (h : WellFormed X r) : ∃ body, writeBody r = some body ∧
      ∀ s, (entryBody r.op).run (body ++ ['\n'] ++ s) = (some (fieldsOf r), s) := by
  by_cases hcomment : ∀ c, r ≠ .endTransaction (some c)
  · obtain ⟨body, hbody, hreads⟩ := reads_entryBody h hcomment
    exact ⟨body, hbody, hreads.full⟩
  · push Not at hcomment
    obtain ⟨c, rfl⟩ := hcomment
    obtain ⟨hne, hl⟩ := h c rfl
    refine ⟨'#' :: c, congrArg some (if_neg hne), fun s => ?_⟩
    have hread := (reads_readline hne hl).full s
    have : (entryBody (LogRecord.endTransaction (some c)).op).run ('#' :: c ++ ['\n'] ++ s) =
        (some { Fields.init with value := (readline.run (c ++ ['\n'] ++ s)).1 },
          (readline.run (c ++ ['\n'] ++ s)).2) := rfl
    rw [this, hread]
    rfl

theorem atoi_code (op : LogOp) : LogOp.ofCode (atoi (Nat.toDigits 10 op.code)) = some op := by
  cases op <;> decide

/-- **A whole line at the offset is read.** -/
theorem readLogEntry_line (h : WellFormed X r) {base : Text}
    (hbase : p.nextOffset = base.length) (s : Text) :
    ∃ cur last, readLogEntry p (base ++ line r ++ s) =
        (.readSuccess, ⟨(base ++ line r).length, cur, last⟩) ∧
      cur.opType = atoi (Nat.toDigits 10 r.op.code) ∧ cur.offset = base.length ∧
      cur.fields = fieldsOf r ∧ last.offset = p.cur.offset := by
  obtain ⟨body, hbody, hrun⟩ := run_entryBody h
  have hword := (reads_opWord r.op).full (body ++ ['\n'] ++ s)
  have hdrop : (base ++ line r ++ s).drop p.nextOffset = opWord r.op ++ (body ++ ['\n'] ++ s) := by
    rw [hbase, append_assoc, drop_left, line_eq hbody, append_assoc]
  have hlen : (base ++ line r ++ s).length - s.length = (base ++ line r).length := by
    simp only [length_append]
    omega
  rw [readLogEntry, hdrop, hword]
  dsimp only
  rw [atoi_code]
  dsimp only
  rw [hrun]
  dsimp only
  rw [hlen]
  exact ⟨_, _, rfl, rfl, hbase, rfl, rfl⟩

/-- The start of an end of transaction that has a comment. -/
def commentStart : Text := "106 #".toList

/-- **A part of a line at the offset is not read**, unless it stops inside a comment. -/
theorem readLogEntry_torn (h : WellFormed X r) {base q : Text}
    (hbase : p.nextOffset = base.length) (hq : q <+: line r) (hne : q ≠ line r)
    (hcomment : ¬ commentStart <+: q) :
    ∃ cur last, readLogEntry p (base ++ q) = (.readEof, ⟨p.nextOffset, cur, last⟩) ∧
      (cur.offset = p.nextOffset ∨ cur.offset = p.cur.offset) ∧
      (last.offset = p.cur.offset ∨ last.offset = p.last.offset) := by
  have hdrop : (base ++ q).drop p.nextOffset = q := by rw [hbase, drop_left]
  obtain ⟨body, hbody, -⟩ := run_entryBody h
  rw [line_eq hbody] at hq hne
  rw [readLogEntry, hdrop]
  rcases prefix_append_cases hq with ⟨hqw, hqne⟩ | ⟨t, rfl, ht⟩
  · rw [(reads_opWord r.op).torn q hqw hqne]
    exact ⟨p.cur, p.last, rfl, .inr rfl, .inr rfl⟩
  · have htne : t ≠ body ++ ['\n'] := by rintro rfl; exact hne rfl
    have hrun : (entryBody r.op).run t = (none, []) := by
      by_cases hc : ∀ c, r ≠ .endTransaction (some c)
      · obtain ⟨b, hb, hreads⟩ := reads_entryBody h hc
        obtain rfl : body = b := Option.some.inj (hbody.symm.trans hb)
        exact hreads.torn t ht htne
      · push Not at hc
        obtain ⟨c, rfl⟩ := hc
        have hb : body = '#' :: c := by
          rw [writeBody, if_neg (h c rfl).1] at hbody
          exact (Option.some.inj hbody).symm
        subst hb
        cases t with
        | nil => rfl
        | cons x t =>
          obtain ⟨rfl, -⟩ := cons_prefix_cons.mp ht
          refine absurd ⟨t, ?_⟩ hcomment
          rw [show commentStart = opWord .endTransaction ++ ['#'] by decide, append_assoc]
          rfl
    rw [(reads_opWord r.op).full t]
    dsimp only
    rw [atoi_code]
    dsimp only
    rw [hrun]
    dsimp only
    exact ⟨_, _, rfl, .inl rfl, .inl rfl⟩

theorem readLogEntry_end {file : Text} (h : p.nextOffset = file.length) :
    readLogEntry p file = (.readEof, p) := by
  rw [readLogEntry, h, drop_length]
  rfl

end Condor.Log.Parser
