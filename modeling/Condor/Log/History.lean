import Condor.Log.Table

/-!
# The log in use — the model of `ClassAdLog`

A log has its table in memory, its file and possibly an open transaction. A history is a sequence
of calls on a log; the abstract log of the history is the sequence of the units that were
committed, a record outside of transactions or a whole transaction.

* **`run_refines`**.
-/

namespace Condor.Log

open List

variable {E : Type} (X : Exprs E) {comment : Option Text} {rs : List LogRecord}

def blankline (s : Text) : Bool := s.all isSpace

/-- The record that the constructor of `LogSetAttribute` makes. -/
def mkSetAttribute (key name value : Text) : LogRecord :=
  .setAttribute key name
    (if value ≠ [] ∧ blankline value = false ∧ (X.parseRval value).isSome = true then value
      else "UNDEFINED".toList)

/-- `LogEndTransaction::set_comment`: an empty comment is never set. -/
def endComment (comment : Option Text) : Option Text := comment.filter (· ≠ [])

/-- `ClassAdLog`: the table, the file and the open transaction. -/
structure ClassAdLog (E : Type) where
  table : Table E
  file : Text
  activeTransaction : Option Transaction

def ClassAdLog.create (now : ℕ) : ClassAdLog E where
  table := FlatMap.empty
  file := line (.logHistoricalSequenceNumber 1 now)
  activeTransaction := none

/-- The calls on a log: `AppendLog` of one of four kinds of record, and the transactions. -/
inductive LogCall where
  | newClassAd (key mytype : Text)
  | destroyClassAd (key : Text)
  | setAttribute (key name value : Text)
  | deleteAttribute (key name : Text)
  | beginTransaction
  | commitTransaction (comment : Option Text)
  | abortTransaction
deriving DecidableEq, Repr

/-- `ClassAdLog::AppendLog`; no value stands for the `EXCEPT` of a failed write. -/
def appendLog (log : ClassAdLog E) (r : LogRecord) : Option (ClassAdLog E) :=
  match log.activeTransaction with
  | some tr =>
    let tr := if tr.isEmpty then tr.appendLog .beginTransaction else tr
    some { log with activeTransaction := some (tr.appendLog r) }
  | none => (write r).map fun bytes =>
      { log with file := log.file ++ bytes, table := (play X log.table r).1 }

/-- The loop of `Transaction::Commit`: every record is written and played. -/
def commitRecords (log : ClassAdLog E) : List LogRecord → Option (ClassAdLog E)
  | [] => some log
  | r :: rs => (write r).bind fun bytes =>
      commitRecords { log with file := log.file ++ bytes, table := (play X log.table r).1 } rs

def commitTransaction (log : ClassAdLog E) (comment : Option Text) : Option (ClassAdLog E) :=
  match log.activeTransaction with
  | none => some log
  | some tr =>
    if tr.isEmpty then some { log with activeTransaction := none }
    else
      let tr := tr.appendLog (.endTransaction (endComment comment))
      (commitRecords X log tr.orderedOpLog).map fun log => { log with activeTransaction := none }

/-- One call; no value stands for the end of the program by `EXCEPT` or `ASSERT`. -/
def step (log : ClassAdLog E) : LogCall → Option (ClassAdLog E)
  | .newClassAd key mytype => appendLog X log (.newClassAd key mytype)
  | .destroyClassAd key => appendLog X log (.destroyClassAd key)
  | .setAttribute key name value => appendLog X log (mkSetAttribute X key name value)
  | .deleteAttribute key name => appendLog X log (.deleteAttribute key name)
  | .beginTransaction =>
    match log.activeTransaction with
    | some _ => none
    | none => some { log with activeTransaction := some .empty }
  | .commitTransaction comment => commitTransaction X log comment
  | .abortTransaction => some { log with activeTransaction := none }

def run (log : ClassAdLog E) : List LogCall → ClassAdLog E
  | [] => log
  | c :: cs =>
    match step X log c with
    | some log => run log cs
    | none => log

/-- The arguments of a call: words for keys and names, lines for values and comments. -/
def LogCall.WellFormed : LogCall → Prop
  | newClassAd key mytype => IsWord key ∧ IsWord mytype
  | destroyClassAd key => IsWord key
  | setAttribute key name value => IsWord key ∧ IsWord name ∧ IsLine value
  | deleteAttribute key name => IsWord key ∧ IsWord name
  | commitTransaction comment => ∀ c ∈ comment, IsLine c
  | beginTransaction | abortTransaction => True

instance : DecidablePred LogCall.WellFormed
  | .newClassAd key mytype => inferInstanceAs (Decidable (IsWord key ∧ IsWord mytype))
  | .destroyClassAd key => inferInstanceAs (Decidable (IsWord key))
  | .setAttribute key name value =>
    inferInstanceAs (Decidable (IsWord key ∧ IsWord name ∧ IsLine value))
  | .deleteAttribute key name => inferInstanceAs (Decidable (IsWord key ∧ IsWord name))
  | .commitTransaction comment => inferInstanceAs (Decidable (∀ c ∈ comment, IsLine c))
  | .beginTransaction | .abortTransaction => inferInstanceAs (Decidable True)

/-! ## The abstract log -/

/-- A unit of the log: a record of its own, or a committed transaction. -/
inductive LogUnit where
  | record (r : LogRecord)
  | transaction (rs : List LogRecord) (comment : Option Text)
deriving DecidableEq, Repr

def LogUnit.records : LogUnit → List LogRecord
  | record r => [r]
  | transaction rs comment => .beginTransaction :: rs ++ [.endTransaction comment]

def LogUnit.readBack : LogUnit → LogUnit
  | record r => record r.readBack
  | transaction rs comment => transaction (rs.map LogRecord.readBack) comment

def LogUnit.apply (t : Table E) (u : LogUnit) : Table E := playAll X t u.records

def tableOf (us : List LogUnit) : Table E := us.foldl (LogUnit.apply X) FlatMap.empty

/-- What a history has committed, and the records of its open transaction. -/
structure History where
  committed : List LogUnit
  pending : Option (List LogRecord)
deriving DecidableEq, Repr

def History.append (h : History) (r : LogRecord) : History :=
  match h.pending with
  | some rs => { h with pending := some (rs ++ [r]) }
  | none => { h with committed := h.committed ++ [.record r] }

/-- One more call; a transaction without records leaves no unit. -/
def History.step (h : History) : LogCall → Option History
  | .newClassAd key mytype => some (h.append (.newClassAd key mytype))
  | .destroyClassAd key => some (h.append (.destroyClassAd key))
  | .setAttribute key name value => some (h.append (mkSetAttribute X key name value))
  | .deleteAttribute key name => some (h.append (.deleteAttribute key name))
  | .beginTransaction =>
    match h.pending with
    | some _ => none
    | none => some { h with pending := some [] }
  | .commitTransaction comment =>
    match h.pending with
    | none => some h
    | some [] => some { h with pending := none }
    | some rs => some ⟨h.committed ++ [.transaction rs (endComment comment)], none⟩
  | .abortTransaction => some { h with pending := none }

def History.run (h : History) : List LogCall → History
  | [] => h
  | c :: cs =>
    match h.step X c with
    | some h => h.run cs
    | none => h

/-- The units that a history on a new log commits. -/
def committed (calls : List LogCall) : List LogUnit := (History.run X ⟨[], none⟩ calls).committed

/-! ## The log refines its history -/

def Update (r : LogRecord) : Prop := WellFormed X r ∧ r.key.isSome = true

def LogUnit.WellFormed : LogUnit → Prop
  | record r => Update X r
  | transaction rs comment => (∀ r ∈ rs, Update X r) ∧ Log.WellFormed X (.endTransaction comment)

instance (r : LogRecord) : Decidable (Update X r) :=
  inferInstanceAs (Decidable (WellFormed X r ∧ r.key.isSome = true))

instance : DecidablePred (LogUnit.WellFormed X)
  | .record r => inferInstanceAs (Decidable (Update X r))
  | .transaction rs comment => inferInstanceAs (Decidable
      ((∀ r ∈ rs, Update X r) ∧ WellFormed X (.endTransaction comment)))

/-- The records of a file: its number, and the records of some units. -/
def fileRecords (seq now : ℕ) (us : List LogUnit) : List LogRecord :=
  .logHistoricalSequenceNumber seq now :: us.flatMap LogUnit.records

/-- The file that holds the lines of some units, behind its first record. -/
def fileOf (seq now : ℕ) (us : List LogUnit) : Text := (fileRecords seq now us).flatMap line

def openRecords (rs : List LogRecord) : List LogRecord :=
  if rs = [] then [] else .beginTransaction :: rs

/-- The log is the concrete form of the history. -/
structure Refines (now : ℕ) (log : ClassAdLog E) (h : History) : Prop where
  file : log.file = fileOf 1 now h.committed
  table : log.table = tableOf X h.committed
  active : log.activeTransaction.map Transaction.orderedOpLog = h.pending.map openRecords
  committed_wf : ∀ u ∈ h.committed, u.WellFormed X
  pending_wf : ∀ rs ∈ h.pending, ∀ r ∈ rs, Update X r

variable {X}

theorem update_mkSetAttribute {key name value : Text} (hk : IsWord key) (hn : IsWord name)
    (hv : IsLine value) : Update X (mkSetAttribute X key name value) := by
  refine ⟨⟨hk, hn, ?_⟩, rfl⟩
  split_ifs with h
  · exact ⟨h.1, hv, h.2.2⟩
  · exact ⟨by decide, by decide, X.parseRval_undefined⟩

theorem wellFormed_endComment (h : ∀ c ∈ comment, IsLine c) :
    WellFormed X (.endTransaction (endComment comment)) := by
  intro c hc
  obtain ⟨hm, hne⟩ := Option.mem_filter_iff.mp hc
  exact ⟨by simpa using hne, h c hm⟩

theorem LogUnit.WellFormed.records {u : LogUnit} (h : u.WellFormed X) :
    ∀ r ∈ u.records, Log.WellFormed X r := by
  cases u with
  | record r => simpa [LogUnit.records] using h.1
  | transaction rs comment =>
    intro r hr
    simp only [LogUnit.records, mem_append, mem_cons, not_mem_nil, or_false] at hr
    rcases hr with (rfl | hr) | rfl
    · trivial
    · exact (h.1 r hr).1
    · exact h.2

theorem fileOf_append (seq now : ℕ) (us : List LogUnit) (u : LogUnit) :
    fileOf seq now (us ++ [u]) = fileOf seq now us ++ u.records.flatMap line := by
  simp [fileOf, fileRecords]

theorem tableOf_append (us : List LogUnit) (u : LogUnit) :
    tableOf X (us ++ [u]) = u.apply X (tableOf X us) := by
  simp [tableOf]

theorem isEmpty_iff_openRecords {tr : Transaction}
    (h : tr.orderedOpLog = openRecords rs) : tr.isEmpty = true ↔ rs = [] := by
  rw [Transaction.isEmpty, h, openRecords]
  split_ifs with h0 <;> simp [h0]

theorem commitRecords_eq (log : ClassAdLog E) (h : ∀ r ∈ rs, WellFormed X r) :
    commitRecords X log rs =
      some { log with file := log.file ++ rs.flatMap line, table := playAll X log.table rs } := by
  induction rs generalizing log with
  | nil => simp [commitRecords]
  | cons r rs ih =>
    rw [commitRecords, write_eq_line (h r (by simp)), Option.bind_some,
      ih _ fun x hx => h x (by simp [hx])]
    simp

variable {log : ClassAdLog E} {h : History} {now : ℕ}

section

variable (hr : Refines X now log h)
include hr

theorem appendLog_refines {r : LogRecord} (hu : Update X r) :
    ∃ log', appendLog X log r = some log' ∧ Refines X now log' (h.append r) := by
  have hact := hr.active
  cases ha : log.activeTransaction with
  | none =>
    have hp : h.pending = none := by simpa [ha] using hact
    refine ⟨_, by simp only [appendLog, ha, write_eq_line hu.1]; rfl, ?_⟩
    simp only [History.append, hp]
    refine ⟨?_, ?_, by simp, ?_, by simp⟩
    · rw [fileOf_append, hr.file]
      simp [LogUnit.records]
    · rw [tableOf_append, hr.table]
      rfl
    · intro u hm
      rcases mem_append.mp hm with hm | hm
      · exact hr.committed_wf u hm
      · rw [mem_singleton.mp hm]; exact hu
  | some tr =>
    obtain ⟨rs, hp⟩ : ∃ rs, h.pending = some rs := by
      cases hp : h.pending with
      | none => simp [ha, hp] at hact
      | some rs => exact ⟨rs, rfl⟩
    have htr : tr.orderedOpLog = openRecords rs := by simpa [ha, hp] using hact
    refine ⟨_, by simp only [appendLog, ha]; rfl, ?_⟩
    simp only [History.append, hp]
    refine ⟨hr.file, hr.table, ?_, hr.committed_wf, ?_⟩
    · simp only [Option.map_some]
      by_cases h0 : rs = []
      · rw [if_pos ((isEmpty_iff_openRecords htr).mpr h0)]
        simp [htr, h0, openRecords]
      · rw [if_neg fun he => h0 ((isEmpty_iff_openRecords htr).mp he)]
        simp [htr, h0, openRecords]
    · intro rs' hrs' x hx
      obtain rfl : rs ++ [r] = rs' := by simpa using hrs'
      rcases mem_append.mp hx with hx | hx
      · exact hr.pending_wf rs (by simp [hp]) x hx
      · rw [mem_singleton.mp hx]; exact hu

theorem commitTransaction_refines (hc : ∀ c ∈ comment, IsLine c) :
    ∃ log' h', commitTransaction X log comment = some log' ∧
      h.step X (.commitTransaction comment) = some h' ∧ Refines X now log' h' := by
  have hact := hr.active
  cases ha : log.activeTransaction with
  | none =>
    have hp : h.pending = none := by simpa [ha] using hact
    exact ⟨log, h, by simp [commitTransaction, ha], by simp [History.step, hp], hr⟩
  | some tr =>
    obtain ⟨rs, hp⟩ : ∃ rs, h.pending = some rs := by
      cases hp : h.pending with
      | none => simp [ha, hp] at hact
      | some rs => exact ⟨rs, rfl⟩
    have htr : tr.orderedOpLog = openRecords rs := by simpa [ha, hp] using hact
    by_cases h0 : rs = []
    · subst h0
      refine ⟨{ log with activeTransaction := none }, { h with pending := none }, ?_,
        by simp [History.step, hp], ?_⟩
      · simp [commitTransaction, ha, (isEmpty_iff_openRecords htr).mpr rfl]
      exact ⟨hr.file, hr.table, rfl, hr.committed_wf, by simp⟩
    · have hne : tr.isEmpty = false := by
        simpa using fun he => h0 ((isEmpty_iff_openRecords htr).mp he)
      set u : LogUnit := .transaction rs (endComment comment) with hu
      have huwf : u.WellFormed X := ⟨hr.pending_wf rs (by simp [hp]), wellFormed_endComment hc⟩
      have hrecs : (tr.appendLog (.endTransaction (endComment comment))).orderedOpLog =
          u.records := by
        simp [htr, openRecords, h0, hu, LogUnit.records]
      refine ⟨⟨playAll X log.table u.records, log.file ++ u.records.flatMap line, none⟩,
        ⟨h.committed ++ [u], none⟩, ?_, ?_, ?_⟩
      · simp only [commitTransaction, ha, hne, Bool.false_eq_true, if_false]
        rw [hrecs, commitRecords_eq log huwf.records, Option.map_some]
      · cases rs with
        | nil => exact absurd rfl h0
        | cons r rs => simp [History.step, hp, hu]
      · refine ⟨?_, ?_, rfl, ?_, by simp⟩
        · rw [fileOf_append, hr.file]
        · rw [tableOf_append, hr.table]
          rfl
        · intro v hm
          rcases mem_append.mp hm with hm | hm
          · exact hr.committed_wf v hm
          · rw [mem_singleton.mp hm]; exact huwf

theorem step_refines {c : LogCall} (hc : c.WellFormed) : (step X log c = none ∧ h.step X c = none) ∨
      ∃ log' h', step X log c = some log' ∧ h.step X c = some h' ∧ Refines X now log' h' := by
  have append : ∀ r, Update X r → step X log c = appendLog X log r →
      h.step X c = some (h.append r) →
      ∃ log' h', step X log c = some log' ∧ h.step X c = some h' ∧ Refines X now log' h' := by
    intro r hu hs hh
    obtain ⟨log', hl, hr'⟩ := appendLog_refines hr hu
    exact ⟨log', _, hs.trans hl, hh, hr'⟩
  cases c with
  | newClassAd key mytype =>
    exact .inr (append (.newClassAd key mytype) ⟨⟨hc.1, fun _ => hc.2⟩, rfl⟩ rfl rfl)
  | destroyClassAd key => exact .inr (append (.destroyClassAd key) ⟨hc, rfl⟩ rfl rfl)
  | setAttribute key name value =>
    exact .inr (append _ (update_mkSetAttribute hc.1 hc.2.1 hc.2.2) rfl rfl)
  | deleteAttribute key name => exact .inr (append (.deleteAttribute key name) ⟨hc, rfl⟩ rfl rfl)
  | beginTransaction =>
    have hact := hr.active
    cases ha : log.activeTransaction <;> cases hp : h.pending <;> simp [ha, hp] at hact
    · refine .inr ⟨{ log with activeTransaction := some .empty }, { h with pending := some [] },
        by simp [step, ha], by simp [History.step, hp], ?_⟩
      exact ⟨hr.file, hr.table, rfl, hr.committed_wf, by simp⟩
    · exact .inl ⟨by simp [step, ha], by simp [History.step, hp]⟩
  | commitTransaction comment => exact .inr (commitTransaction_refines hr hc)
  | abortTransaction =>
    exact .inr ⟨_, _, rfl, rfl, hr.file, hr.table, rfl, hr.committed_wf, by simp⟩

/-- **The log refines its history**, after every sequence of well-formed calls. -/
theorem run_refines {calls : List LogCall} (hcalls : ∀ c ∈ calls, c.WellFormed) :
    Refines X now (run X log calls) (h.run X calls) := by
  induction calls generalizing log h with
  | nil => exact hr
  | cons c calls ih =>
    rcases step_refines hr (hcalls c (by simp)) with ⟨hs, hh⟩ | ⟨log', h', hs, hh, hr'⟩
    · simpa only [run, History.run, hs, hh] using hr
    · simp only [run, History.run, hs, hh]
      exact ih hr' fun x hx => hcalls x (by simp [hx])

end

theorem create_refines (now : ℕ) : Refines X now (ClassAdLog.create now) ⟨[], none⟩ :=
  ⟨by simp [ClassAdLog.create, fileOf, fileRecords], rfl, rfl, by simp, by simp⟩

end Condor.Log
