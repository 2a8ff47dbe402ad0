import Condor.Lib.CText
import Condor.Lib.FlatMap
import Mathlib.Data.List.Lex

/-!
# Log records — their form in the file

A record of the ClassAd log is one line: the code of the operation, a blank and a body. Records are
written by `write` and read back by `readBody`, one reader for each operation.
-/

namespace Condor.Log

open List Nat

/-! ## Words and lines -/

/-- The text up to a separator, `-1` at a terminator, at the end and for an empty text. -/
def readField (sep : Char → Bool) : Reader Char Text := do
  let w ← Reader.upTo (· = nul) sep
  if w = [] then .fail else pure w

/-- `LogRecord::readword`: blanks are skipped, but not a line end. -/
def readword : Reader Char Text := fun s =>
  readField isSpace (s.dropWhile fun c => isSpace c && c ≠ '\n')

def readline : Reader Char Text := readField (· = '\n')

variable {w : Text} {d : Char}

theorem reads_readField {sep : Char → Bool} (hne : w ≠ [])
    (hw : ∀ c ∈ w, c ≠ nul ∧ sep c = false) (hd : d ≠ nul) (hsep : sep d = true) :
    Reads (readField sep) (w ++ [d]) w := by
  have h : Reads (Reader.upTo (· = nul) sep) (w ++ [d]) w :=
    Reads.upTo (fun c hc => ⟨by simpa using (hw c hc).1, (hw c hc).2⟩) (by simpa using hd) hsep
  have := h.bind (f := fun w => if w = [] then .fail else pure w) (by
    rw [if_neg hne]; exact Reads.ret w)
  rwa [append_nil] at this

theorem readword_eq {s : Text} (h : ∀ c ∈ s.head?, isSpace c = false) :
    readword.run s = (readField isSpace).run s := by
  cases s with
  | nil => rfl
  | cons c s =>
    simp only [readword, Reader.run]
    simp [h c (by simp)]

theorem reads_readword (hw : IsWord w) (hd : isSpace d = true) : Reads readword (w ++ [d]) w := by
  have hnul : d ≠ nul := by rintro rfl; exact absurd hd (by decide)
  have h := reads_readField hw.1 (fun c hc => ⟨(hw.2 c hc).2, (hw.2 c hc).1⟩) hnul hd
  obtain ⟨c, w', rfl⟩ := exists_cons_of_ne_nil hw.1
  have hc := (hw.2 c (by simp)).1
  refine ⟨fun s => ?_, fun p hp hne => ?_⟩
  · rw [readword_eq (by simpa using hc)]
    exact h.full s
  · rw [readword_eq]
    · exact h.torn p hp hne
    · intro x hx
      have : p.head? = some x := hx
      obtain ⟨t, ht⟩ := hp
      cases p with
      | nil => simp at this
      | cons y p =>
        obtain rfl : y = x := by simpa using this
        have hyc : y = c := by simpa using congrArg head? ht
        rw [hyc]; exact hc

theorem reads_readline (hne : w ≠ []) (hw : IsLine w) : Reads readline (w ++ ['\n']) w :=
  reads_readField hne (fun c hc => ⟨(hw c hc).2, by simpa using (hw c hc).1⟩) (by decide) (by simp)

/-! ## Records -/

/-- The records of the log. -/
inductive LogRecord where
  | newClassAd (key mytype : Text)
  | destroyClassAd (key : Text)
  | setAttribute (key name value : Text)
  | deleteAttribute (key name : Text)
  | beginTransaction
  | endTransaction (comment : Option Text)
  | logHistoricalSequenceNumber (seq timestamp : ℕ)
deriving DecidableEq, Repr

/-- The operations, `CondorLogOp_*`. -/
inductive LogOp where
  | newClassAd
  | destroyClassAd
  | setAttribute
  | deleteAttribute
  | beginTransaction
  | endTransaction
  | logHistoricalSequenceNumber
deriving DecidableEq, Repr

def LogOp.code : LogOp → ℕ
  | .newClassAd => 101
  | .destroyClassAd => 102
  | .setAttribute => 103
  | .deleteAttribute => 104
  | .beginTransaction => 105
  | .endTransaction => 106
  | .logHistoricalSequenceNumber => 107

/-- The operation with a code; no value for the codes that `valid_record_optype` refuses. -/
def LogOp.ofCode (n : ℤ) : Option LogOp :=
  if n = 101 then some .newClassAd
  else if n = 102 then some .destroyClassAd
  else if n = 103 then some .setAttribute
  else if n = 104 then some .deleteAttribute
  else if n = 105 then some .beginTransaction
  else if n = 106 then some .endTransaction
  else if n = 107 then some .logHistoricalSequenceNumber
  else none

/-- `get_op_type`. -/
def LogRecord.op : LogRecord → LogOp
  | newClassAd .. => .newClassAd
  | destroyClassAd .. => .destroyClassAd
  | setAttribute .. => .setAttribute
  | deleteAttribute .. => .deleteAttribute
  | beginTransaction => .beginTransaction
  | endTransaction .. => .endTransaction
  | logHistoricalSequenceNumber .. => .logHistoricalSequenceNumber

/-- `get_key`. -/
def LogRecord.key : LogRecord → Option Text
  | newClassAd k _ | destroyClassAd k | setAttribute k _ _ | deleteAttribute k _ => some k
  | beginTransaction | endTransaction _ | logHistoricalSequenceNumber _ _ => none

/-- `EMPTY_CLASSAD_TYPE_NAME`. -/
def emptyTypeName : Text := "(empty)".toList

/-- `deserialize_int<int>` of the code of an operation. -/
def opOfWord (w : Text) : Option LogOp :=
  (strtoll w).bind fun n => if -2 ^ 31 ≤ n ∧ n ≤ 2 ^ 31 - 1 then LogOp.ofCode n else none

/-! ## Writing -/

/-- The obsolete target type that `LogNewClassAd::WriteBody` adds. -/
def targetType (mytype : Text) : Text :=
  if caseEq mytype "Job".toList then "Machine".toList
  else if mytype.head? = some '*' then mytype
  else emptyTypeName

/-- `WriteBody`; a line end in a `SetAttribute` record is refused. -/
def writeBody : LogRecord → Option Text
  | .newClassAd key mytype =>
    some (key ++ ' ' :: (if mytype = [] then emptyTypeName else mytype) ++ ' ' :: targetType mytype)
  | .destroyClassAd key => some key
  | .setAttribute key name value =>
    if '\n' ∈ key ∨ '\n' ∈ name ∨ '\n' ∈ value then none
    else some (key ++ ' ' :: name ++ ' ' :: value)
  | .deleteAttribute key name => some (key ++ ' ' :: name)
  | .beginTransaction => some []
  | .endTransaction none => some []
  | .endTransaction (some comment) => some (if comment = [] then [] else '#' :: comment)
  | .logHistoricalSequenceNumber seq timestamp =>
    some (toDigits 10 seq ++ " CreationTimestamp ".toList ++ toDigits 10 timestamp)

/-- `LogRecord::Write`: header, body and tail. -/
def write (r : LogRecord) : Option Text :=
  (writeBody r).map fun body => toDigits 10 r.op.code ++ ' ' :: body ++ ['\n']

/-! ## Reading -/

/-- What the log needs of the language of expressions. -/
structure Exprs (E : Type) where
  /-- `ParseClassAdRvalExpr`. -/
  parseRval : Text → Option E
  /-- The expression that `ClassAd::InsertViaCache` inserts. -/
  parseCached : Text → Option E
  /-- A string literal. -/
  string : Text → E
  /-- `CLASSAD_LOG_STRICT_PARSING`. -/
  strict : Bool
  parseRval_undefined : (parseRval "UNDEFINED".toList).isSome = true

variable {E : Type} (X : Exprs E)

/-- `ReadBody`, on the record that `InstantiateLogEntry` makes for the operation. -/
def readBody : LogOp → Reader Char LogRecord
  | .newClassAd => do
    let key ← readword
    let mytype ← readword
    -- the target type is read and forgotten, and it may be missing
    let _ ← (fun s => (some (), (readword.run s).2) : Reader Char Unit)
    pure (.newClassAd key (if mytype = emptyTypeName then [] else mytype))
  | .destroyClassAd => do
    let key ← readword
    pure (.destroyClassAd key)
  | .setAttribute => do
    let key ← readword
    let name ← readword
    let value ← readline
    if (X.parseRval value).isNone && X.strict then .fail else pure (.setAttribute key name value)
  | .deleteAttribute => do
    let key ← readword
    let name ← readword
    pure (.deleteAttribute key name)
  | .beginTransaction => do
    let ch ← Reader.next
    if ch = '\n' then pure .beginTransaction else .fail
  | .endTransaction => do
    let ch ← Reader.next
    if ch = '\n' then pure (.endTransaction none)
    else if ch = '#' then do
      let comment ← readline
      pure (.endTransaction (some comment))
    else .fail
  | .logHistoricalSequenceNumber => do
    let seq ← readword
    let _ ← readword
    let timestamp ← readword
    pure (.logHistoricalSequenceNumber ((strtoull seq).getD 0)
      ((strtoll timestamp).getD 0).toNat)

/-! ## A written record is read back -/

/-- The fields are words and lines, and the value is one that `LogSetAttribute` keeps. -/
def WellFormed : LogRecord → Prop
  | .newClassAd key mytype => IsWord key ∧ (mytype ≠ [] → IsWord mytype)
  | .destroyClassAd key => IsWord key
  | .setAttribute key name value =>
    IsWord key ∧ IsWord name ∧ value ≠ [] ∧ IsLine value ∧ (X.parseRval value).isSome = true
  | .deleteAttribute key name => IsWord key ∧ IsWord name
  | .beginTransaction => True
  | .endTransaction comment => ∀ c ∈ comment, c ≠ [] ∧ IsLine c
  | .logHistoricalSequenceNumber _ _ => True

instance : DecidablePred (WellFormed X)
  | .newClassAd key mytype =>
    inferInstanceAs (Decidable (IsWord key ∧ (mytype ≠ [] → IsWord mytype)))
  | .destroyClassAd key => inferInstanceAs (Decidable (IsWord key))
  | .setAttribute key name value => inferInstanceAs (Decidable
      (IsWord key ∧ IsWord name ∧ value ≠ [] ∧ IsLine value ∧ (X.parseRval value).isSome = true))
  | .deleteAttribute key name => inferInstanceAs (Decidable (IsWord key ∧ IsWord name))
  | .beginTransaction => inferInstanceAs (Decidable True)
  | .endTransaction comment => inferInstanceAs (Decidable (∀ c ∈ comment, c ≠ [] ∧ IsLine c))
  | .logHistoricalSequenceNumber _ _ => inferInstanceAs (Decidable True)

/-- The record read for a written one: the placeholder is the empty name, and numbers saturate. -/
def LogRecord.readBack : LogRecord → LogRecord
  | newClassAd key mytype => newClassAd key (if mytype = emptyTypeName then [] else mytype)
  | logHistoricalSequenceNumber seq timestamp =>
    logHistoricalSequenceNumber (min seq (2 ^ 64 - 1)) (min timestamp (2 ^ 63 - 1))
  | r => r

def line (r : LogRecord) : Text := (write r).getD []

theorem isWord_toDigits (n : ℕ) : IsWord (toDigits 10 n) := by
  refine ⟨toDigits_ne_nil, fun c hc => ?_⟩
  have hd := isDigit_of_mem_toDigits (by decide) (by decide) hc
  exact ⟨isSpace_of_isDigit hd, by rintro rfl; exact absurd hd (by decide)⟩

theorem opOfWord_code (op : LogOp) : opOfWord (toDigits 10 op.code) = some op := by
  cases op <;> decide

theorem strtoull_toDigits (n : ℕ) : strtoull (toDigits 10 n) = some (min n (2 ^ 64 - 1)) := by
  have := scanNumber_toDigits n [] (by simp)
  rw [append_nil] at this
  simp only [strtoull, this, Option.map_some, Option.some.injEq, Bool.false_eq_true, if_false]
  split_ifs <;> omega

theorem strtoll_toDigits (n : ℕ) :
    strtoll (toDigits 10 n) = some ((min n (2 ^ 63 - 1) : ℕ) : ℤ) := by
  have := scanNumber_toDigits n [] (by simp)
  rw [append_nil] at this
  simp only [strtoll, this, Option.map_some, Option.some.injEq, Bool.false_eq_true, if_false]
  omega

variable {X}

theorem not_mem_newline (h : IsLine w) : '\n' ∉ w := fun hm => (h _ hm).1 rfl

theorem writeBody_set {key name value : Text} (hk : IsWord key) (hn : IsWord name)
    (hl : IsLine value) :
    writeBody (.setAttribute key name value) = some (key ++ ' ' :: name ++ ' ' :: value) :=
  if_neg (by simp [not_mem_newline hk.isLine, not_mem_newline hn.isLine, not_mem_newline hl])

theorem two_words (u v : Text) : u ++ ' ' :: v ++ ['\n'] = (u ++ [' ']) ++ (v ++ ['\n']) := by simp

theorem three_words (u v : Text) :
    u ++ ' ' :: v ++ ' ' :: w ++ ['\n'] = (u ++ [' ']) ++ ((v ++ [' ']) ++ (w ++ ['\n'])) := by simp

theorem sequence_words (m n : ℕ) :
    toDigits 10 m ++ " CreationTimestamp ".toList ++ toDigits 10 n ++ ['\n'] =
      (toDigits 10 m ++ [' ']) ++
      (("CreationTimestamp".toList ++ [' ']) ++ (toDigits 10 n ++ ['\n'])) := by simp

theorem reads_body {r : LogRecord} (h : WellFormed X r) (hnew : r.op ≠ .newClassAd) :
    ∃ body, writeBody r = some body ∧ Reads (readBody X r.op) (body ++ ['\n']) r.readBack := by
  cases r with
  | newClassAd key mytype => exact absurd rfl hnew
  | destroyClassAd key => exact ⟨_, rfl, (reads_readword h (by decide)).map _⟩
  | setAttribute key name value =>
    obtain ⟨hk, hn, hne, hl, hp⟩ := h
    refine ⟨_, writeBody_set hk hn hl, ?_⟩
    rw [three_words, ← append_nil (value ++ _)]
    refine Reads.bind (reads_readword hk (by decide)) (Reads.bind (reads_readword hn (by decide))
      (Reads.bind (reads_readline hne hl) ?_))
    simp only [Option.isNone_eq_false_iff.mpr hp]
    exact Reads.ret _
  | deleteAttribute key name =>
    refine ⟨_, rfl, ?_⟩
    rw [two_words]
    exact Reads.bind (reads_readword h.1 (by decide))
      ((reads_readword h.2 (by decide)).map (LogRecord.deleteAttribute key))
  | beginTransaction => exact ⟨_, rfl, Reads.bind (w := ['\n']) (reads_next '\n') (Reads.ret _)⟩
  | endTransaction comment =>
    cases comment with
    | none => exact ⟨_, rfl, Reads.bind (w := ['\n']) (reads_next '\n') (Reads.ret _)⟩
    | some c =>
      obtain ⟨hne, hl⟩ := h c rfl
      refine ⟨_, congrArg some (if_neg hne), ?_⟩
      exact Reads.bind (w := ['#']) (reads_next '#')
        ((reads_readline hne hl).map fun c => LogRecord.endTransaction (some c))
  | logHistoricalSequenceNumber seq timestamp =>
    refine ⟨_, rfl, ?_⟩
    rw [sequence_words]
    refine Reads.bind (reads_readword (isWord_toDigits seq) (by decide))
      (Reads.bind (reads_readword (by decide) (by decide)) ?_)
    rw [strtoull_toDigits]
    have := (reads_readword (isWord_toDigits timestamp) (d := '\n') (by decide)).map fun t =>
      LogRecord.logHistoricalSequenceNumber (min seq (2 ^ 64 - 1)) ((strtoll t).getD 0).toNat
    rwa [strtoll_toDigits] at this

def typeName (mytype : Text) : Text := if mytype = [] then emptyTypeName else mytype

theorem isWord_typeName {t : Text} (h : t ≠ [] → IsWord t) : IsWord (typeName t) := by
  unfold typeName
  split_ifs with h0
  · decide
  · exact h h0

theorem isWord_targetType {t : Text} (h : t ≠ [] → IsWord t) : IsWord (targetType t) := by
  unfold targetType
  split_ifs with h1 h2
  · decide
  · exact h (by rintro rfl; simp at h2)
  · decide

theorem typeName_readBack (t : Text) : (if typeName t = emptyTypeName then [] else typeName t) =
      if t = emptyTypeName then [] else t := by
  unfold typeName
  split_ifs <;> simp_all

/-- The two words of a `NewClassAd` record that must be present. -/
def newWords (key mytype : Text) : Text := key ++ ' ' :: typeName mytype ++ [' ']

theorem writeBody_new (key mytype : Text) :
    writeBody (.newClassAd key mytype) = some (newWords key mytype ++ targetType mytype) := by
  simp [writeBody, newWords, typeName]

section

variable {key mytype : Text} (h : WellFormed X (.newClassAd key mytype))
include h

theorem run_newWords (s : Text) : (readBody X .newClassAd).run (newWords key mytype ++ s) =
      (some (LogRecord.newClassAd key mytype).readBack, (readword.run s).2) := by
  have hline : newWords key mytype ++ s = (key ++ [' ']) ++ ((typeName mytype ++ [' ']) ++ s) := by
    simp [newWords]
  rw [hline, readBody, Reader.run_bind_some ((reads_readword h.1 (by decide)).full _),
    Reader.run_bind_some ((reads_readword (isWord_typeName h.2) (by decide)).full _),
    typeName_readBack]
  rfl

theorem run_newWords_torn {p : Text} (hp : p <+: newWords key mytype)
    (hne : p ≠ newWords key mytype) :
    (readBody X .newClassAd).run p = (none, []) := by
  have hline : newWords key mytype = (key ++ [' ']) ++ (typeName mytype ++ [' ']) := by
    simp [newWords]
  rw [hline] at hp hne
  rcases prefix_append_cases hp with ⟨hp, hpne⟩ | ⟨q, rfl, hq⟩
  · exact Reader.run_bind_none ((reads_readword h.1 (by decide)).torn p hp hpne)
  · rw [readBody, Reader.run_bind_some ((reads_readword h.1 (by decide)).full _)]
    refine Reader.run_bind_none ((reads_readword (isWord_typeName h.2) (by decide)).torn q hq ?_)
    rintro rfl
    exact hne rfl

end

theorem write_eq_line {r : LogRecord} (h : WellFormed X r) : write r = some (line r) := by
  obtain ⟨body, hbody⟩ : ∃ body, writeBody r = some body := by
    by_cases hnew : r.op = .newClassAd
    · cases r <;> simp only [LogRecord.op, reduceCtorEq] at hnew
      exact ⟨_, writeBody_new _ _⟩
    · obtain ⟨body, hbody, -⟩ := reads_body h hnew
      exact ⟨body, hbody⟩
  simp [line, write, hbody]

end Condor.Log
