import Condor.ClassAd.Syntax
import Condor.Log.Record

/-!
# The table of the log — playing records

The table maps keys to ads, and an ad maps attribute names, in any case, to expressions. Each kind
of record changes the table by its `Play`; the records of a transaction are kept, in order and by
key, until they are played together.
-/

namespace Condor.Log

variable {E : Type} (X : Exprs E)

/-- Expressions as uninterpreted texts, for concrete runs of the log. -/
def textExprs : Exprs Text where
  parseRval := some
  parseCached := some
  string := id
  strict := true
  parseRval_undefined := rfl

/-- The order of keys; keys are compared as they are. -/
def keyRank (s : Text) : List ℕ := s.map Char.toNat

abbrev Ad (E : Type) := FlatMap nameRank E

abbrev Table (E : Type) := FlatMap keyRank (Ad E)

def attrMyType : Text := "MyType".toList

def attrTargetType : Text := "TargetType".toList

def newAd (mytype : Text) : Ad E :=
  let ad : Ad E := FlatMap.empty.put attrMyType (X.string mytype)
  if caseEq mytype "Job".toList && (ad.find attrTargetType).isNone then
    ad.put attrTargetType (X.string "Machine".toList)
  else ad

/-- `Play`: the table and the returned code. -/
def play (t : Table E) : LogRecord → Table E × ℤ
  | .newClassAd key mytype =>
    match t.find key with
    | none => (t.put key (newAd X mytype), 0)
    | some _ => (t, -1)
  | .destroyClassAd key =>
    match t.find key with
    | none => (t, -1)
    | some _ => (t.erase key, 0)
  | .setAttribute key name value =>
    match t.find key with
    | none => (t, -1)
    | some ad =>
      match X.parseCached value with
      | some e => if name = [] then (t, 0) else (t.put key (ad.put name e), 1)
      | none => (t, 0)
  | .deleteAttribute key name =>
    match t.find key with
    | none => (t, -1)
    | some ad => (t.put key (ad.erase name), if (ad.find name).isSome then 1 else 0)
  | .beginTransaction => (t, 1)
  | .endTransaction _ => (t, 1)
  | .logHistoricalSequenceNumber _ _ => (t, 1)

def playAll (t : Table E) (rs : List LogRecord) : Table E := rs.foldl (fun t r => (play X t r).1) t

@[simp] theorem playAll_nil (t : Table E) : playAll X t [] = t := rfl

@[simp] theorem playAll_cons (t : Table E) (r : LogRecord) (rs : List LogRecord) :
    playAll X t (r :: rs) = playAll X (play X t r).1 rs := rfl

@[simp] theorem playAll_append (t : Table E) (rs rs' : List LogRecord) :
    playAll X t (rs ++ rs') = playAll X (playAll X t rs) rs' := List.foldl_append

theorem keyRank_injective : Function.Injective keyRank := fun _ _ h =>
  List.map_injective_iff.mpr (fun _ _ hc => Char.toNat_inj.mp hc) h

@[simp] theorem keyRank_inj {a b : Text} : keyRank a = keyRank b ↔ a = b :=
  keyRank_injective.eq_iff

/-! ## Transactions -/

/-- `Transaction`: the records in order, and the records of each key in order. -/
structure Transaction where
  opLog : FlatMap keyRank (List LogRecord)
  orderedOpLog : List LogRecord
  /-- The list of a key holds its records. -/
  agree : ∀ k, (opLog.find k).getD [] = orderedOpLog.filter fun r => r.key.getD [] = k

variable (t : Transaction)

namespace Transaction

def empty : Transaction := ⟨FlatMap.empty, [], by simp⟩

/-- `Transaction::EmptyTransaction`. -/
def isEmpty (t : Transaction) : Bool := t.orderedOpLog.isEmpty

def appendLog (r : LogRecord) : Transaction where
  opLog := t.opLog.put (r.key.getD []) ((t.opLog.find (r.key.getD [])).getD [] ++ [r])
  orderedOpLog := t.orderedOpLog ++ [r]
  agree := by
    intro k
    rw [FlatMap.find_put, List.filter_append, ← t.agree k]
    by_cases hk : r.key.getD [] = k
    · simp [hk]
    · simp [hk, Ne.symm hk]

/-- The records that `FirstEntry` and `NextEntry` walk through. -/
def entriesOf (key : Text) : List LogRecord := (t.opLog.find key).getD []

/-- `Transaction::Commit` in memory. -/
def commit (table : Table E) : Table E := playAll X table t.orderedOpLog

@[simp] theorem orderedOpLog_empty : empty.orderedOpLog = [] := rfl

@[simp] theorem orderedOpLog_appendLog (r : LogRecord) :
    (t.appendLog r).orderedOpLog = t.orderedOpLog ++ [r] := rfl

theorem entriesOf_eq (key : Text) :
    t.entriesOf key = t.orderedOpLog.filter fun r => r.key.getD [] = key := t.agree key

end Transaction

/-! ## Loading

The loader reads records until the end of the file or a corrupt record, keeps the records of an
open transaction aside and plays the others.
-/

/-! ## One record -/

/-- The outcome of `ReadLogEntry`. -/
inductive Entry where
  /-- A record, and the stream behind it. -/
  | record (r : LogRecord) (rest : Text)
  /-- `NULL`, and the stream where the reader stopped. -/
  | null (rest : Text)
  /-- `EXCEPT`: a corrupt record inside a closed transaction, with the stream at its body. -/
  | corrupt (recnum : ℕ) (body : Text)
deriving DecidableEq, Repr

/-- `fgets` with a buffer for `n` characters. -/
def fgets : ℕ → Text → Text × Text
  | 0, s => ([], s)
  | _ + 1, [] => ([], [])
  | n + 1, c :: s => if c = '\n' then ([c], s) else (c :: (fgets n s).1, (fgets n s).2)

def attrlistMaxExpression : ℕ := 10240

/-- The operation that `sscanf(line, "%d ", &op)` finds in a line, if it is valid. -/
def scanOp (line : Text) : Option LogOp :=
  (strtoll (line.takeWhile (· ≠ nul))).bind fun n =>
    LogOp.ofCode ((n + 2 ^ 31) % 2 ^ 32 - 2 ^ 31)

/-- The lines behind a corrupt record have an end of transaction. -/
def endFollows : ℕ → Text → Bool
  | 0, _ => false
  | fuel + 1, s =>
    match fgets (attrlistMaxExpression + 64 - 1) s with
    | ([], _) => false
    | (line, s) => scanOp line = some .endTransaction || endFollows fuel s

/-- Behind a corrupt record the file is skipped, unless it was inside a closed transaction. -/
def recover (recnum : ℕ) (body rest : Text) : Entry :=
  if endFollows rest.length rest then .corrupt recnum body else .null []

/-- `InstantiateLogEntry`, where no operation stands for `CondorLogOp_Error`. -/
def instantiateLogEntry (recnum : ℕ) (op : Option LogOp) (s : Text) : Entry :=
  match op with
  | none => recover recnum s (readline.run s).2
  | some op =>
    match (readBody X op).run s with
    | (some r, rest) => .record r rest
    | (none, rest) => recover recnum s rest

def readLogEntry (recnum : ℕ) (s : Text) : Entry :=
  match readword.run s with
  | (none, rest) => .null rest
  | (some opword, rest) => instantiateLogEntry X recnum (opOfWord opword) rest

/-! ## The loop -/

/-- The variables of the loop. -/
structure LoadState (E : Type) where
  table : Table E
  activeTransaction : Option Transaction
  historicalSequenceNumber : ℕ
  originalLogBirthdate : ℕ
  isClean : Bool
  count : ℕ
  errmsg : Text

/-- The variables before the first record; `now` is the time of the call. -/
def LoadState.init (now : ℕ) : LoadState E where
  table := FlatMap.empty
  activeTransaction := none
  historicalSequenceNumber := 1
  originalLogBirthdate := now
  isClean := true
  count := 0
  errmsg := []

/-- `formatstr_cat(errmsg, …)`. -/
def LoadState.warn (st : LoadState E) (msg : Text) : LoadState E :=
  { st with errmsg := st.errmsg ++ msg }

def nestedMessage : Text :=
  "Warning: Encountered nested transactions, log may be bogus...\n".toList

def unmatchedMessage : Text :=
  "Warning: Encountered unmatched end transaction, log may be bogus...\n".toList

def lateSequenceMessage (count : ℕ) : Text :=
  "Warning: Encountered historical sequence number after first log entry (entry number = ".toList ++
    Nat.toDigits 10 count ++ ")\n".toList

def loadStep (st : LoadState E) (r : LogRecord) : LoadState E :=
  let st := { st with count := st.count + 1 }
  match r with
  | .beginTransaction =>
    let st := { st with isClean := false }
    match st.activeTransaction with
    | some _ => st.warn nestedMessage
    | none => { st with activeTransaction := some .empty }
  | .endTransaction _ =>
    match st.activeTransaction with
    | none => st.warn unmatchedMessage
    | some tr => { st with table := tr.commit X st.table, activeTransaction := none }
  | .logHistoricalSequenceNumber seq timestamp =>
    let st := if st.count ≠ 1 then st.warn (lateSequenceMessage st.count) else st
    { st with historicalSequenceNumber := seq, originalLogBirthdate := timestamp }
  | r =>
    match st.activeTransaction with
    | some tr => { st with activeTransaction := some (tr.appendLog r) }
    | none => { st with table := (play X st.table r).1 }

/-- The loop, over the stream behind the last record, whose length bounds the number of records. It
ends with that stream and the one where the reader stopped. -/
def loadLoop : ℕ → LoadState E → Text → Except (ℕ × Text) (LoadState E × Text × Text)
  | 0, st, s => .ok (st, s, s)
  | fuel + 1, st, s =>
    match readLogEntry X (1 + st.count) s with
    | .record r rest => loadLoop fuel (loadStep X st r) rest
    | .null rest => .ok (st, s, rest)
    | .corrupt recnum body => .error (recnum, body)

/-- The results of `LoadClassAdLog`. -/
structure Loaded (E : Type) where
  table : Table E
  historicalSequenceNumber : ℕ
  originalLogBirthdate : ℕ
  isClean : Bool
  requiresSuccessfulCleaning : Bool
  errmsg : Text
  /-- What is written into a log without records. -/
  written : Text

def unterminatedEntryMessage : Text := "Detected unterminated log entry\n".toList

def unterminatedTransactionMessage : Text := "Detected unterminated transaction\n".toList

/-- The part of `LoadClassAdLog` behind the loop. -/
def finishLoad (st : LoadState E) (next final : Text) : Loaded E :=
  let broken := next.length ≠ final.length
  let errmsg := if broken then st.errmsg ++ unterminatedEntryMessage else st.errmsg
  { table := st.table
    historicalSequenceNumber := st.historicalSequenceNumber
    originalLogBirthdate := st.originalLogBirthdate
    isClean := st.isClean
    requiresSuccessfulCleaning := decide broken || st.activeTransaction.isSome
    errmsg := if st.activeTransaction.isSome ∧ ¬ broken then
        errmsg ++ unterminatedTransactionMessage else errmsg
    written := if st.count = 0 then
        (write (.logHistoricalSequenceNumber st.historicalSequenceNumber
          st.originalLogBirthdate)).getD []
      else [] }

/-- `LoadClassAdLog` into an empty table, or the number and the offset of the corrupt record. -/
def loadClassAdLog (now : ℕ) (file : Text) : Except (ℕ × ℕ) (Loaded E) :=
  match loadLoop X (file.length + 1) (LoadState.init now) file with
  | .ok (st, next, final) => .ok (finishLoad st next final)
  | .error (recnum, body) => .error (recnum, file.length - body.length)

end Condor.Log
