import Condor.Log.Parser

/-!
# Polling the log — the model of `ClassAdLogReader`

A reader polls a log that grows. A prober decides from the first record, the last entry and the
size of the file whether there are new records, whether the file is a new one, or neither; the
reader then reads on, reads all of the file again, or does nothing.

* `Polled`: the reader has delivered the whole records of a part of the file;
* **`poll_polled`**: a poll of a longer part leads to such a state again, and so, by
  `pollPieces_polled`, do the polls of all its pieces;
* **`pollPieces_delivers`**.
-/

namespace Condor.Log.Parser

open List Option

variable {E : Type} {X : Exprs E} {r : LogRecord} {rs done rest : List LogRecord} {q file : Text}
  {p : LogParser} {last : LogEntry} {fuel : ℕ}

/-! ## The prober -/

/-- `ProbeResultType`. -/
inductive ProbeResult where
  | compressed
  | addition
  | noChange
  | probeError
  | probeFatalError
deriving DecidableEq, Repr

/-- `ClassAdLogProber`, as far as its decisions depend on it. -/
structure Prober where
  lastSize : ℕ
  lastSeqNum : ℤ
  curProbedSize : ℕ
  curProbedSeqNum : ℤ
deriving DecidableEq, Repr

def Prober.new : Prober := ⟨0, 0, 0, 0⟩

variable (pr : Prober)

def atol (w : Text) : ℤ := (strtoll w).getD 0

/-- The second part of the probe: the entry at the offset of the last entry is read again. -/
def probeLast (p : LogParser) (last : LogEntry) (file : Text) : ProbeResult × Prober :=
  match readLogEntry { p with nextOffset := last.offset } file with
  | (.fatalError, _) => (.probeFatalError, pr)
  | (.readError, _) => (.probeError, pr)
  | (.readEof, p) | (.readSuccess, p) =>
    if file.length = pr.lastSize ∧ p.cur.equal last then (.noChange, pr)
    else if pr.lastSize < file.length ∧ p.cur.equal last then (.addition, pr)
    else (.probeError, pr)

/-- `ClassAdLogProber::probe`, for the last entry of the reader's parser. -/
def probe (last : LogEntry) (file : Text) : ProbeResult × Prober :=
  let pr := { pr with curProbedSize := file.length }
  match readLogEntry LogParser.new file with
  | (.fatalError, _) => (.probeFatalError, pr)
  | (.readEof, _) | (.readError, _) => (.probeError, pr)
  | (.readSuccess, p) =>
    if LogOp.ofCode p.cur.opType ≠ some .logHistoricalSequenceNumber then (.probeFatalError, pr)
    else
      let pr := { pr with curProbedSeqNum := atol (p.cur.fields.key.getD []) }
      if pr.curProbedSeqNum ≠ pr.lastSeqNum then (.compressed, pr)
      else probeLast pr p last file

def Prober.incrementProbeInfo : Prober :=
  { pr with lastSize := pr.curProbedSize, lastSeqNum := pr.curProbedSeqNum }

/-! ## The reader -/

/-- A call of the consumer. -/
inductive Call where
  | newClassAd (key mytype targettype : Option Text)
  | destroyClassAd (key : Option Text)
  | setAttribute (key name value : Option Text)
  | deleteAttribute (key name : Option Text)
deriving DecidableEq, Repr

/-- The call that `ProcessLogEntry` makes, if any; `none` for an operation that is not supported. -/
def processLogEntry (e : LogEntry) : Option (List Call) :=
  match LogOp.ofCode e.opType with
  | some .newClassAd => some [.newClassAd e.fields.key e.fields.mytype e.fields.targettype]
  | some .destroyClassAd => some [.destroyClassAd e.fields.key]
  | some .setAttribute => some [.setAttribute e.fields.key e.fields.name e.fields.value]
  | some .deleteAttribute => some [.deleteAttribute e.fields.key e.fields.name]
  | some .beginTransaction | some .endTransaction | some .logHistoricalSequenceNumber => some []
  | none => none

/-- `ClassAdLogReader`, with the calls that its consumer has got since the last `Reset`. -/
structure LogReader where
  parser : LogParser
  prober : Prober
  delivered : List Call
deriving DecidableEq, Repr

def LogReader.new : LogReader := ⟨LogParser.new, Prober.new, []⟩

/-- `ClassAdLogReader::IncrementalLoad`: the calls, the parser and success; `none` for the failed
assertion. The length of the file bounds the records. -/
def incrementalLoad : ℕ → LogParser → Text → List Call → Option (Bool × LogParser × List Call)
  | 0, p, _, calls => some (true, p, calls)
  | fuel + 1, p, file, calls =>
    match readLogEntry p file with
    | (.fatalError, _) => none
    | (.readError, p) => some (false, p, calls)
    | (.readEof, p) => some (true, p, calls)
    | (.readSuccess, p) =>
      match processLogEntry p.cur with
      | none => some (false, p, calls)
      | some new => incrementalLoad fuel p file (calls ++ new)

/-- `PollResultType`. -/
inductive PollResult where
  | pollSuccess
  | pollError
deriving DecidableEq, Repr

/-- The part of `Poll` behind the probe, from the offset and the calls that it starts with. -/
def finishPoll (p : LogParser) (file : Text) (calls : List Call) :
    Option (PollResult × LogReader) :=
  (incrementalLoad (file.length + 1) p file calls).map fun (success, p, calls) =>
    (.pollSuccess, ⟨p, if success then pr.incrementProbeInfo else pr, calls⟩)

/-- `ClassAdLogReader::Poll` on a file that can be opened. -/
def poll (r : LogReader) (file : Text) : Option (PollResult × LogReader) :=
  match probe r.prober r.parser.last file with
  | (.compressed, pr) | (.probeError, pr) =>
    finishPoll pr { r.parser with nextOffset := 0 } file []
  | (.addition, pr) => finishPoll pr r.parser file r.delivered
  | (.noChange, pr) => some (.pollSuccess, { r with prober := pr.incrementProbeInfo })
  | (.probeFatalError, pr) => some (.pollError, { r with prober := pr })

/-- The writer appends each of the pieces to the file, and the reader polls after each. -/
def pollPieces (r : LogReader) (file : Text) : List Text → Option LogReader
  | [] => some r
  | piece :: pieces =>
    (poll r (file ++ piece)).bind fun (_, r) => pollPieces r (file ++ piece) pieces

/-! ## The whole records of a file -/

def lines (rs : List LogRecord) : Text := rs.flatMap line

@[simp] theorem lines_nil : lines [] = [] := rfl

@[simp] theorem lines_cons (r : LogRecord) (rs : List LogRecord) :
    lines (r :: rs) = line r ++ lines rs := rfl

@[simp] theorem lines_append (rs rs' : List LogRecord) :
    lines (rs ++ rs') = lines rs ++ lines rs' := flatMap_append

def wholeRecords : List LogRecord → Text → List LogRecord
  | [], _ => []
  | r :: rs, p => if line r <+: p then r :: wholeRecords rs (p.drop (line r).length) else []

theorem wholeRecords_line (r : LogRecord) (rs : List LogRecord) (q : Text) :
    wholeRecords (r :: rs) (line r ++ q) = r :: wholeRecords rs q := by
  rw [wholeRecords, if_pos (prefix_append _ _), drop_left]

theorem wholeRecords_append (rest : List LogRecord) (q : Text) :
    wholeRecords (done ++ rest) (lines done ++ q) = done ++ wholeRecords rest q := by
  induction done with
  | nil => rfl
  | cons r done ih =>
    rw [cons_append, lines_cons, append_assoc, wholeRecords_line, ih, cons_append]

def callsOf (rs : List LogRecord) : List Call :=
  rs.flatMap fun r => (processLogEntry ⟨r.op.code, 0, 0, fieldsOf r⟩).getD []

theorem processLogEntry_record {e : LogEntry}
    (hop : e.opType = atoi (Nat.toDigits 10 r.op.code)) (hfields : e.fields = fieldsOf r) :
    processLogEntry e = some (callsOf [r]) := by
  simp only [callsOf, processLogEntry, hop, atoi_code, hfields]
  cases r <;> rfl

theorem callsOf_append (rs' : List LogRecord) :
    callsOf (rs ++ rs') = callsOf rs ++ callsOf rs' := flatMap_append

/-! ## Cuts inside a comment -/

def lastLine (p : Text) : Text := (p.reverse.takeWhile (· ≠ '\n')).reverse

/-- The file stops inside the comment of an end of transaction. -/
def CutInComment (p : Text) : Prop := commentStart <+: lastLine p

instance (p : Text) : Decidable (CutInComment p) :=
  inferInstanceAs (Decidable (commentStart <+: lastLine p))

theorem line_newline (h : WellFormed X r) : ∃ b, line r = b ++ ['\n'] ∧ '\n' ∉ b := by
  have hop : '\n' ∉ opWord r.op := by cases r.op <;> decide
  have hword : ∀ {w}, IsWord w → '\n' ∉ w := fun hw => not_mem_newline hw.isLine
  obtain ⟨body, hbody, -⟩ := run_entryBody h
  refine ⟨opWord r.op ++ body, by rw [line_eq hbody, append_assoc], ?_⟩
  rw [mem_append, not_or]
  refine ⟨hop, ?_⟩
  cases r with
  | newClassAd key mytype =>
    obtain rfl := some.inj ((writeBody_new key mytype).symm.trans hbody)
    simp [newWords, hword h.1, hword (isWord_typeName h.2), hword (isWord_targetType h.2)]
  | destroyClassAd key =>
    obtain rfl := some.inj hbody
    exact hword h
  | setAttribute key name value =>
    rw [writeBody] at hbody
    split_ifs at hbody with hno
    obtain rfl := some.inj hbody
    simpa using hno
  | deleteAttribute key name =>
    obtain rfl := some.inj hbody
    simp [hword h.1, hword h.2]
  | beginTransaction =>
    obtain rfl := some.inj hbody
    simp
  | endTransaction comment =>
    cases comment with
    | none =>
      obtain rfl := some.inj hbody
      simp
    | some c =>
      obtain rfl := some.inj hbody
      simp [not_mem_newline (h c rfl).2]
  | logHistoricalSequenceNumber seq timestamp =>
    obtain rfl := some.inj hbody
    simp [hword (isWord_toDigits _)]

theorem lastLine_lines (h : ∀ r ∈ rs, WellFormed X r)
    (hq : '\n' ∉ q) : lastLine (lines rs ++ q) = q := by
  have htail : ∀ s, lastLine (s ++ '\n' :: q) = q := by
    intro s
    have hall : ∀ c ∈ q.reverse, decide (c ≠ '\n') = true := by
      intro c hc
      refine decide_eq_true fun he => hq ?_
      rwa [he, mem_reverse] at hc
    rw [lastLine, reverse_append, reverse_cons, append_assoc, takeWhile_append_of_pos hall]
    simp
  rcases eq_nil_or_concat rs with rfl | ⟨rs, r, rfl⟩
  · rw [lines_nil, nil_append, lastLine, takeWhile_eq_self_iff.mpr, reverse_reverse]
    intro c hc
    refine decide_eq_true fun he => hq ?_
    rwa [he, mem_reverse] at hc
  · obtain ⟨b, hb, -⟩ := line_newline (h r (by simp))
    rw [concat_eq_append, lines_append, lines_cons, hb]
    simpa using htail (lines rs ++ b)

/-! ## The reader behind the whole records of a file -/

/-- The offset is the start of a line of the file, or the end of its lines. -/
def Boundary (rs : List LogRecord) (file : Text) (o : ℕ) : Prop :=
  ∃ done rest, rs = done ++ rest ∧ lines done <+: file ∧ o = (lines done).length

theorem Boundary.mono {file file' : Text} {o : ℕ} (h : Boundary rs file o)
    (hle : file <+: file') : Boundary rs file' o := by
  obtain ⟨done, rest, hrs, hdone, ho⟩ := h
  exact ⟨done, rest, hrs, hdone.trans hle, ho⟩

/-- The parser stands behind the records `done` of the file. -/
structure Behind (rs : List LogRecord) (file : Text) (done : List LogRecord) (p : LogParser) :
    Prop where
  next : p.nextOffset = (lines done).length
  cur : Boundary rs file p.cur.offset
  last : Boundary rs file p.last.offset

theorem Behind.line (h : WellFormed X r)
    (hp : Behind (done ++ r :: rest) (lines done ++ (line r ++ q)) done p) :
    ∃ p', readLogEntry p (lines done ++ (line r ++ q)) = (.readSuccess, p') ∧
      LogOp.ofCode p'.cur.opType = some r.op ∧ processLogEntry p'.cur = some (callsOf [r]) ∧
      Behind (done ++ r :: rest) (lines done ++ (line r ++ q)) (done ++ [r]) p' := by
  obtain ⟨cur, last, hread, hop, hoff, hfields, hlast⟩ := readLogEntry_line h hp.next q
  refine ⟨_, by rw [← append_assoc]; exact hread, by rw [hop, atoi_code],
    processLogEntry_record hop hfields, ?_⟩
  refine ⟨by simp, ⟨done, r :: rest, rfl, prefix_append _ _, hoff⟩, ?_⟩
  rw [hlast]
  exact hp.cur

theorem Behind.torn (hrest : ∀ r ∈ rest, WellFormed X r)
    (hq : q <+: lines rest) (hcut : ¬ commentStart <+: q)
    (hpart : ∀ r ∈ rest.head?, ¬ Condor.Log.line r <+: q)
    (hp : Behind (done ++ rest) (lines done ++ q) done p) :
    ∃ p', readLogEntry p (lines done ++ q) = (.readEof, p') ∧
      Behind (done ++ rest) (lines done ++ q) done p' := by
  have hhere : Boundary (done ++ rest) (lines done ++ q) p.nextOffset :=
    ⟨done, rest, rfl, prefix_append _ _, hp.next⟩
  cases rest with
  | nil =>
    obtain rfl : q = [] := prefix_nil.mp hq
    exact ⟨p, readLogEntry_end (by rw [hp.next, append_nil]), hp⟩
  | cons r rest =>
    have hno := hpart r (by simp)
    rcases prefix_append_cases hq with ⟨hqr, hne⟩ | ⟨t, rfl, -⟩
    · obtain ⟨cur, last, hread, hcur, hlast⟩ :=
        readLogEntry_torn (hrest r (by simp)) hp.next hqr hne hcut
      refine ⟨_, hread, hp.next, ?_, ?_⟩
      · rcases hcur with hcur | hcur <;> rw [hcur]
        exacts [hhere, hp.cur]
      · rcases hlast with hlast | hlast <;> rw [hlast]
        exacts [hp.cur, hp.last]
    · exact absurd (prefix_append _ _) hno

theorem not_commentStart (hdone : ∀ r ∈ done, WellFormed X r)
    {rest : List LogRecord} (hrest : ∀ r ∈ rest, WellFormed X r) (hq : q <+: lines rest)
    (hpart : ∀ r ∈ rest.head?, ¬ line r <+: q) (hcut : ¬ CutInComment (lines done ++ q)) :
    ¬ commentStart <+: q := by
  have hnl : '\n' ∉ q := by
    cases rest with
    | nil => simp [prefix_nil.mp hq]
    | cons r rest =>
      rcases prefix_append_cases hq with ⟨hqr, hne⟩ | ⟨t, rfl, -⟩
      · obtain ⟨b, hb, hbn⟩ := line_newline (hrest r (by simp))
        rw [hb] at hqr hne
        exact fun hm => hbn (((prefix_concat_iff.mp hqr).resolve_left hne).subset hm)
      · exact absurd (prefix_append _ _) (hpart r (by simp))
  rwa [CutInComment, lastLine_lines hdone hnl] at hcut

theorem incrementalLoad_stop (hrest : ∀ r ∈ rest, WellFormed X r)
    (hq : q <+: lines rest) (hcut : ¬ commentStart <+: q) (hpart : ∀ r ∈ rest.head?, ¬ line r <+: q)
    (hp : Behind (done ++ rest) (lines done ++ q) done p) (hfuel : q.length < fuel)
    (calls : List Call) :
    ∃ p', incrementalLoad fuel p (lines done ++ q) calls = some (true, p', calls) ∧
      Behind (done ++ rest) (lines done ++ q) done p' := by
  obtain ⟨p', hread, hp'⟩ := hp.torn hrest hq hcut hpart
  obtain ⟨fuel, rfl⟩ := Nat.exists_eq_succ_of_ne_zero (Nat.ne_zero_of_lt hfuel)
  exact ⟨p', by rw [incrementalLoad, hread], hp'⟩

/-- **The loop reads the whole records** that the file has behind the offset. -/
theorem incrementalLoad_lines (hdone : ∀ r ∈ done, WellFormed X r)
    (hrest : ∀ r ∈ rest, WellFormed X r) (hq : q <+: lines rest)
    (hcut : ¬ CutInComment (lines done ++ q))
    (hp : Behind (done ++ rest) (lines done ++ q) done p) (hfuel : q.length < fuel)
    (calls : List Call) :
    ∃ p', incrementalLoad fuel p (lines done ++ q) calls =
        some (true, p', calls ++ callsOf (wholeRecords rest q)) ∧
      Behind (done ++ rest) (lines done ++ q) (done ++ wholeRecords rest q) p' := by
  induction rest generalizing done q p fuel calls with
  | nil =>
    have hno := not_commentStart hdone hrest hq (by simp) hcut
    simpa [wholeRecords, callsOf] using incrementalLoad_stop hrest hq hno (by simp) hp hfuel calls
  | cons r rest ih =>
    by_cases hr : line r <+: q
    · obtain ⟨t, rfl⟩ := hr
      have hwf := hrest r (by simp)
      have ht : t <+: lines rest := (prefix_append_right_inj _).mp hq
      obtain ⟨p1, hread, -, hcalls, hp1⟩ := hp.line hwf
      obtain ⟨fuel, rfl⟩ := Nat.exists_eq_succ_of_ne_zero (Nat.ne_zero_of_lt hfuel)
      have hfuel1 : t.length < fuel := by
        have := length_pos_iff.mpr (line_ne_nil hwf)
        rw [length_append] at hfuel
        omega
      have hbase : lines done ++ (line r ++ t) = lines (done ++ [r]) ++ t := by simp
      have hsplit : done ++ r :: rest = done ++ [r] ++ rest := by simp
      rw [wholeRecords_line, incrementalLoad, hread, hbase]
      rw [hsplit, hbase] at hp1
      rw [hbase] at hcut
      have hdone1 : ∀ x ∈ done ++ [r], WellFormed X x := by
        intro x hx
        rcases mem_append.mp hx with hx | hx
        exacts [hdone x hx, mem_singleton.mp hx ▸ hwf]
      obtain ⟨p', hload, hp'⟩ := ih hdone1 (fun x hx => hrest x (by simp [hx])) ht hcut hp1
        hfuel1 (calls ++ callsOf [r])
      refine ⟨p', ?_, by simpa using hp'⟩
      simp only [hcalls, hload, append_assoc, ← callsOf_append]
      rfl
    · have hpart : ∀ x ∈ (r :: rest).head?, ¬ line x <+: q := by simpa using hr
      have hno := not_commentStart hdone hrest hq hpart hcut
      simpa [wholeRecords, if_neg hr, callsOf] using
        incrementalLoad_stop hrest hq hno hpart hp hfuel calls

/-- A call of the parser at the start of a line reads the line or finds the end of the file. -/
theorem Behind.read (hrs : ∀ r ∈ rs, WellFormed X r)
    (hfile : file <+: lines rs) (hcut : ¬ CutInComment file)
    (hsplit : rs = done ++ rest) (hdone : lines done <+: file) (hp : Behind rs file done p) :
    (∃ p' r, readLogEntry p file = (.readSuccess, p') ∧ rest.head? = some r ∧
      LogOp.ofCode p'.cur.opType = some r.op ∧ Behind rs file (done ++ [r]) p') ∨
    ∃ p', readLogEntry p file = (.readEof, p') := by
  subst hsplit
  obtain ⟨q, rfl⟩ := hdone
  rw [lines_append] at hfile
  have hq : q <+: lines rest := (prefix_append_right_inj _).mp hfile
  have hrest : ∀ r ∈ rest, WellFormed X r := fun r hr => hrs r (mem_append_right _ hr)
  by_cases hpart : ∀ r ∈ rest.head?, ¬ Condor.Log.line r <+: q
  · have hno := not_commentStart (fun r hr => hrs r (mem_append_left _ hr)) hrest hq hpart hcut
    obtain ⟨p', hread, -⟩ := hp.torn hrest hq hno hpart
    exact .inr ⟨p', hread⟩
  · cases rest with
    | nil => simp at hpart
    | cons r rest =>
      have hline : Condor.Log.line r <+: q := by simpa using hpart
      obtain ⟨t, rfl⟩ := hline
      obtain ⟨p', hread, hop, -, hp'⟩ := hp.line (hrest r (by simp))
      exact .inl ⟨p', r, hread, rfl, hop, hp'⟩

/-! ## Polls of a file that grows -/

/-- The file starts with its sequence number, and the other records are in order. -/
structure LogFile (X : Exprs E) (rs : List LogRecord) : Prop where
  wf : ∀ r ∈ rs, WellFormed X r
  head : ∀ r ∈ rs.head?, r.op = .logHistoricalSequenceNumber

theorem behind_start (hnext : p.nextOffset = 0)
    (hcur : Boundary rs file p.cur.offset) (hlast : Boundary rs file p.last.offset) :
    Behind rs file [] p := ⟨hnext, hcur, hlast⟩

theorem boundary_zero (rs : List LogRecord) (file : Text) : Boundary rs file 0 :=
  ⟨[], rs, rfl, nil_prefix, rfl⟩

/-- The outcome of a probe without a fatal error; an unchanged file has the size it had. -/
structure Probed (pr : Prober) (file : Text) (out : ProbeResult × Prober) : Prop where
  size : out.2.curProbedSize = file.length
  not_fatal : out.1 ≠ .probeFatalError
  same : out.1 = .noChange → file.length = pr.lastSize

section

variable (hrs : LogFile X rs) (hfile : file <+: lines rs) (hcut : ¬ CutInComment file)
include hrs hfile hcut

theorem probed_probeLast {pr : Prober} (hsize : pr.curProbedSize = file.length)
    (hp : Behind rs file done p) (hlast : Boundary rs file last.offset) :
    Probed pr file (probeLast pr p last file) := by
  obtain ⟨done, rest, hsplit, hdone, hoff⟩ := hlast
  have hp' : Behind rs file done { p with nextOffset := last.offset } := ⟨hoff, hp.cur, hp.last⟩
  rw [probeLast]
  rcases hp'.read hrs.wf hfile hcut hsplit hdone with ⟨p', -, hread, -⟩ | ⟨p', hread⟩ <;>
  · simp only [hread]
    split_ifs with hsame
    · exact ⟨hsize, by simp, fun _ => hsame.1⟩
    · exact ⟨hsize, by simp, by simp⟩
    · exact ⟨hsize, by simp, by simp⟩

theorem probed_probe (pr : Prober)
    (hlast : Boundary rs file last.offset) : Probed pr file (probe pr last file) := by
  have hzero := boundary_zero rs file
  have hstart : Behind rs file [] LogParser.new := behind_start rfl hzero hzero
  rw [probe]
  rcases hstart.read hrs.wf hfile hcut (nil_append rs).symm nil_prefix with
    ⟨p, r, hread, hhead, hop, hp⟩ | ⟨p, hread⟩
  · simp only [hread, hop, hrs.head r hhead, ne_eq, not_true_eq_false, if_false]
    split_ifs
    · set pr' : Prober := { pr with
        curProbedSize := file.length, curProbedSeqNum := atol (p.cur.fields.key.getD []) }
      have hsize : pr'.curProbedSize = file.length := rfl
      have := probed_probeLast hrs hfile hcut hsize hp hlast
      exact ⟨this.size, this.not_fatal, this.same⟩
    · exact ⟨rfl, by simp, by simp⟩
  · simp only [hread]
    exact ⟨rfl, by simp, by simp⟩

end

/-- The reader has read the whole records of a part of the file. -/
structure Polled (rs : List LogRecord) (file : Text) (r : LogReader) : Prop where
  behind : Behind rs file (wholeRecords rs file) r.parser
  delivered : r.delivered = callsOf (wholeRecords rs file)
  lastSize : r.prober.lastSize = file.length

theorem polled_new (hrs : ∀ r ∈ rs, WellFormed X r) : Polled rs [] LogReader.new := by
  have hnone : wholeRecords rs [] = [] := by
    cases rs with
    | nil => rfl
    | cons r rs =>
      rw [wholeRecords, if_neg]
      exact fun h => line_ne_nil (hrs r (by simp)) (prefix_nil.mp h)
  have hzero := boundary_zero rs []
  exact ⟨by rw [hnone]; exact behind_start rfl hzero hzero, by rw [hnone]; rfl, rfl⟩

/-- The load behind the probe reads the rest of the whole records. -/
theorem finishPoll_polled (hrs : LogFile X rs)
    (hfile : file <+: lines rs) (hcut : ¬ CutInComment file) {pr : Prober}
    (hsize : pr.curProbedSize = file.length) (hsplit : rs = done ++ rest)
    (hdone : lines done <+: file) (hp : Behind rs file done p) :
    ∃ r, finishPoll pr p file (callsOf done) = some (.pollSuccess, r) ∧ Polled rs file r := by
  subst hsplit
  obtain ⟨q, rfl⟩ := hdone
  rw [lines_append] at hfile
  have hfuel : q.length < (lines done ++ q).length + 1 := by
    rw [length_append]
    omega
  obtain ⟨p', hload, hp'⟩ := incrementalLoad_lines
    (fun r hr => hrs.wf r (mem_append_left _ hr))
    (fun r hr => hrs.wf r (mem_append_right _ hr))
    ((prefix_append_right_inj _).mp hfile) hcut hp hfuel (callsOf done)
  refine ⟨_, by rw [finishPoll, hload]; rfl, ?_⟩
  rw [← wholeRecords_append] at hp'
  rw [← callsOf_append, ← wholeRecords_append]
  exact ⟨hp', rfl, hsize⟩

theorem exists_rest (p : Text) :
    ∃ rest, rs = wholeRecords rs p ++ rest ∧ lines (wholeRecords rs p) <+: p := by
  induction rs generalizing p with
  | nil => exact ⟨[], rfl, nil_prefix⟩
  | cons r rs ih =>
    by_cases hr : line r <+: p
    · obtain ⟨q, rfl⟩ := hr
      obtain ⟨rest, hrest, hpre⟩ := ih q
      rw [wholeRecords_line]
      exact ⟨rest, by rw [cons_append, ← hrest], (prefix_append_right_inj _).mpr hpre⟩
    · rw [wholeRecords, if_neg hr]
      exact ⟨r :: rs, rfl, nil_prefix⟩

/-- **A poll of a file that has grown** reads its whole records, if it does not stop in a comment.
-/
theorem poll_polled (hrs : LogFile X rs) {old file : Text}
    (hold : old <+: file) (hfile : file <+: lines rs) (hcut : ¬ CutInComment file) {r : LogReader}
    (hr : Polled rs old r) : ∃ r', poll r file = some (.pollSuccess, r') ∧ Polled rs file r' := by
  have hcur := hr.behind.cur.mono hold
  have hlast := hr.behind.last.mono hold
  have hprobed := probed_probe hrs hfile hcut r.prober hlast
  rw [poll]
  generalize probe r.prober r.parser.last file = out at hprobed
  obtain ⟨res, pr⟩ := out
  obtain ⟨hsize, hfatal, hsame⟩ := hprobed
  have hbulk := finishPoll_polled hrs hfile hcut hsize (nil_append rs).symm nil_prefix
    (behind_start (p := { r.parser with nextOffset := 0 }) rfl hcur hlast)
  cases res with
  | compressed => exact hbulk
  | probeError => exact hbulk
  | addition =>
    obtain ⟨rest, hsplit, hdone⟩ := exists_rest old
    have := finishPoll_polled hrs hfile hcut hsize hsplit (hdone.trans hold)
      ⟨hr.behind.next, hcur, hlast⟩
    rwa [← hr.delivered] at this
  | noChange =>
    obtain rfl : old = file := hold.eq_of_length (hr.lastSize.symm.trans (hsame rfl).symm)
    exact ⟨_, rfl, hr.behind, hr.delivered, hsize⟩
  | probeFatalError => exact absurd rfl hfatal

theorem pollPieces_polled (hrs : LogFile X rs) {pieces : List Text}
    {old : Text} (hfile : old ++ pieces.flatten <+: lines rs)
    (hcut : ∀ ps, ps <+: pieces → ps ≠ [] → ¬ CutInComment (old ++ ps.flatten)) {r : LogReader}
    (hr : Polled rs old r) :
    ∃ r', pollPieces r old pieces = some r' ∧ Polled rs (old ++ pieces.flatten) r' := by
  induction pieces generalizing old r with
  | nil => exact ⟨r, rfl, by simpa using hr⟩
  | cons piece pieces ih =>
    rw [flatten_cons, ← append_assoc] at hfile ⊢
    have hnow : ¬ CutInComment (old ++ piece) := by
      simpa using hcut [piece] (by simp) (by simp)
    obtain ⟨r1, hpoll, hr1⟩ := poll_polled hrs (prefix_append _ _)
      ((prefix_append _ _).trans hfile) hnow hr
    obtain ⟨r', hrun, hr'⟩ := ih hfile (fun ps hps _ => by
      simpa using hcut (piece :: ps) (cons_prefix_cons.mpr ⟨rfl, hps⟩) (by simp)) hr1
    exact ⟨r', by rw [pollPieces, hpoll]; exact hrun, hr'⟩

theorem logFile_fileRecords (seq now : ℕ) {us : List LogUnit} (h : ∀ u ∈ us, u.WellFormed X) :
    LogFile X (fileRecords seq now us) :=
  ⟨wellFormed_fileRecords seq now h, fun _ hr => some.inj hr ▸ rfl⟩

/-- **Reading piece by piece is reading at once**, if no poll sees a file that stops inside the
comment of an end of transaction. -/
theorem pollPieces_delivers (X : Exprs E) (seq now : ℕ) (us : List LogUnit)
    (hus : ∀ u ∈ us, u.WellFormed X) {pieces : List Text}
    (hfile : pieces.flatten <+: fileOf seq now us)
    (hcut : ∀ ps ∈ pieces.inits, ¬ CutInComment ps.flatten) :
    ∃ r r', pollPieces LogReader.new [] pieces = some r ∧
      poll LogReader.new pieces.flatten = some (.pollSuccess, r') ∧ r.delivered = r'.delivered := by
  have hrs := logFile_fileRecords seq now hus
  have hnew := polled_new hrs.wf
  obtain ⟨r, hrun, hr⟩ := pollPieces_polled hrs hfile
    (fun ps hps _ => hcut ps ((mem_inits ps pieces).mpr hps)) hnew
  obtain ⟨r', hpoll, hr'⟩ := poll_polled hrs nil_prefix hfile
    (hcut pieces ((mem_inits pieces pieces).mpr (prefix_refl pieces))) hnew
  exact ⟨r, r', hrun, hpoll, hr.delivered.trans hr'.delivered.symm⟩

/-- The units of a small file: a new ad in a transaction with a comment, and its end. -/
def commentedUnits : List LogUnit :=
  [.transaction [.newClassAd ['k'] ['t']] (some "done 102 k".toList),
    .record (.destroyClassAd ['k'])]

/-- The file of these units in two pieces; the cut is in its third line. -/
theorem pollPieces_delivers_cut : ∃ r r', pollPieces LogReader.new []
        [(fileOf 1 0 commentedUnits).take 40, (fileOf 1 0 commentedUnits).drop 40] = some r ∧
      poll LogReader.new [(fileOf 1 0 commentedUnits).take 40,
        (fileOf 1 0 commentedUnits).drop 40].flatten = some (.pollSuccess, r') ∧
      r.delivered = r'.delivered :=
  pollPieces_delivers textExprs 1 0 commentedUnits (by decide) (by decide) (by decide)

/-- **A cut inside the comment**: its rest is read as a record, and the ad is destroyed twice. -/
theorem pollPieces_comment_differs :
    ((pollPieces LogReader.new [] [(fileOf 1 0 commentedUnits).take 57,
        (fileOf 1 0 commentedUnits).drop 57]).map fun r => r.delivered.length) = some 3 ∧
      ((poll LogReader.new (fileOf 1 0 commentedUnits)).map fun r => r.2.delivered.length) =
      some 2 := by
  decide

end Condor.Log.Parser
