import Condor.Log.History

/-!
# Recovery — loading a log that was cut off

A file that holds a prefix of the lines of well-formed records is read as a prefix of the records.
The record at the cut is dropped, with one exception: of a `NewClassAd` record the last word may be
missing.

* `loadLoop_lines`, **`loadLoop_prefix`**: the records that are loaded, and what the loader sees at
  the end of the file;
* **`load_prefix_atomic`**.
-/

namespace Condor.Log

open List LogRecord

variable {E : Type} {X : Exprs E} {recnum : ℕ} {p : Text} {op : LogOp}

/-! ## Lines -/

def opWord (op : LogOp) : Text := Nat.toDigits 10 op.code ++ [' ']

theorem reads_opWord (op : LogOp) : Reads readword (opWord op) (Nat.toDigits 10 op.code) :=
  reads_readword (isWord_toDigits _) (by decide)

variable {r : LogRecord} {rs : List LogRecord} {st : LoadState E} {u : LogUnit} {us : List LogUnit}

theorem line_eq {body : Text} (h : writeBody r = some body) :
    line r = opWord r.op ++ (body ++ ['\n']) := by
  simp [line, write, h, opWord]

theorem line_new (key mytype : Text) : line (.newClassAd key mytype) =
    opWord .newClassAd ++ (newWords key mytype ++ (targetType mytype ++ ['\n'])) := by
  rw [line_eq (writeBody_new key mytype), append_assoc]
  rfl

@[simp] theorem recover_nil (body : Text) : recover recnum body [] = .null [] := rfl

theorem readLogEntry_opWord (s : Text) :
    readLogEntry X recnum (opWord op ++ s) = instantiateLogEntry X recnum (some op) s := by
  simp [readLogEntry, (reads_opWord op).full, opOfWord_code]

theorem instantiate_some {s rest : Text} (h : (readBody X op).run s = (some r, rest)) :
    instantiateLogEntry X recnum (some op) s = .record r rest := by
  simp [instantiateLogEntry, h]

theorem instantiate_none {s : Text} (h : (readBody X op).run s = (none, [])) :
    instantiateLogEntry X recnum (some op) s = .null [] := by
  simp [instantiateLogEntry, h]

/-- **A whole line is read back.** -/
theorem readLogEntry_line (h : WellFormed X r) (recnum : ℕ) (s : Text) :
    readLogEntry X recnum (line r ++ s) = .record r.readBack s := by
  by_cases hnew : r.op = .newClassAd
  · cases r <;> simp only [op, reduceCtorEq] at hnew
    rw [line_new, append_assoc, readLogEntry_opWord, append_assoc,
      instantiate_some (run_newWords h _)]
    rw [(reads_readword (isWord_targetType h.2) (by decide)).full]
  · obtain ⟨body, hbody, hreads⟩ := reads_body h hnew
    rw [line_eq hbody, append_assoc, readLogEntry_opWord, instantiate_some (hreads.full s)]

/-- The cut leaves the two words of a `NewClassAd` record. -/
def CutInTarget (p : Text) (r : LogRecord) : Prop :=
  ∃ key mytype q, r = .newClassAd key mytype ∧
    p = opWord .newClassAd ++ (newWords key mytype ++ q) ∧ q <+: targetType mytype

/-- **A part of a line is dropped**, unless only the last word of a `NewClassAd` is missing. -/
theorem readLogEntry_torn (h : WellFormed X r) (hp : p <+: line r) (hne : p ≠ line r) (recnum : ℕ) :
    readLogEntry X recnum p = .null [] ∨
      (readLogEntry X recnum p = .record r.readBack [] ∧ CutInTarget p r) := by
  obtain ⟨body, hbody⟩ : ∃ body, line r = opWord r.op ++ body := by
    have := write_eq_line h
    cases hb : writeBody r with
    | none => simp [write, hb] at this
    | some body => exact ⟨_, line_eq hb⟩
  rw [hbody] at hp
  rcases prefix_append_cases hp with ⟨hp, hpne⟩ | ⟨q, rfl, hq⟩
  · left
    simp [readLogEntry, (reads_opWord r.op).torn p hp hpne]
  rw [readLogEntry_opWord]
  have hqne : q ≠ body := by rintro rfl; exact hne hbody.symm
  by_cases hnew : r.op = .newClassAd
  · cases r <;> simp only [op, reduceCtorEq] at hnew
    rename_i key mytype
    rw [line_new] at hbody
    obtain rfl := append_cancel_left hbody
    rcases prefix_append_cases hq with ⟨hq, hqne'⟩ | ⟨t, rfl, ht⟩
    · exact .inl (instantiate_none (run_newWords_torn h hq hqne'))
    · have htne : t ≠ targetType mytype ++ ['\n'] := by rintro rfl; exact hqne rfl
      right
      refine ⟨?_, key, mytype, t, rfl, rfl, (prefix_concat_iff.mp ht).resolve_left htne⟩
      rw [op, instantiate_some (run_newWords h t),
        (reads_readword (isWord_targetType h.2) (by decide)).torn t ht htne]
  · obtain ⟨b, hb, hreads⟩ := reads_body h hnew
    rw [line_eq hb] at hbody
    obtain rfl := append_cancel_left hbody
    exact .inl (instantiate_none (hreads.torn q hq hqne))

/-! ## The loop over a cut file -/

theorem line_ne_nil (h : WellFormed X r) : line r ≠ [] := by
  have := write_eq_line h
  cases hb : writeBody r with
  | none => simp [write, hb] at this
  | some body => simp [line_eq hb]

theorem length_le_lines (h : ∀ r ∈ rs, WellFormed X r) : rs.length ≤ (rs.flatMap line).length := by
  induction rs with
  | nil => simp
  | cons r rs ih =>
    have := length_pos_iff.mpr (line_ne_nil (h r (by simp)))
    have := ih fun x hx => h x (by simp [hx])
    simp only [length_cons, flatMap_cons, length_append]
    omega

def loadSteps (X : Exprs E) (st : LoadState E) (rs : List LogRecord) : LoadState E :=
  (rs.map readBack).foldl (loadStep X) st

theorem loadLoop_lines (h : ∀ r ∈ rs, WellFormed X r) (fuel : ℕ)
    (st : LoadState E) (s : Text) : loadLoop X (rs.length + fuel) st (rs.flatMap line ++ s) =
      loadLoop X fuel (loadSteps X st rs) s := by
  induction rs generalizing st with
  | nil => simp [loadSteps]
  | cons r rs ih =>
    rw [length_cons, Nat.add_right_comm, flatMap_cons, append_assoc, loadLoop,
      readLogEntry_line (h r (by simp))]
    exact ih (fun x hx => h x (by simp [hx])) _

@[simp] theorem loadLoop_nil (fuel : ℕ) :
    loadLoop X fuel st [] = .ok (st, [], []) := by
  cases fuel <;> rfl

/-- The end of a file that was cut off: nothing, a part of a line that is dropped, or a `NewClassAd`
record that is complete but for its last word. -/
inductive Tail (rs : List LogRecord) (p : Text) : ℕ → Text → Prop
  | clean (n : ℕ) (h : p = (rs.take n).flatMap line) : Tail rs p n []
  | torn (n : ℕ) (q : Text) (h : p = (rs.take n).flatMap line ++ q) (hq : q ≠ []) : Tail rs p n q
  | glued (n : ℕ) (q : Text) (r : LogRecord) (h : p = (rs.take n).flatMap line ++ q)
      (hr : rs[n]? = some r) (hq : CutInTarget q r) : Tail rs p (n + 1) []

/-- **A cut file is read as a prefix of its records.** -/
theorem loadLoop_prefix (h : ∀ r ∈ rs, WellFormed X r) (hp : p <+: rs.flatMap line)
    (st : LoadState E) :
    ∃ n next, loadLoop X (p.length + 1) st p = .ok (loadSteps X st (rs.take n), next, []) ∧
      Tail rs p n next := by
  obtain ⟨n, q, rfl, hq⟩ := prefix_flatMap_cases line hp
  have htake : ∀ r ∈ rs.take n, WellFormed X r := fun r hr => h r (mem_of_mem_take hr)
  obtain ⟨m, hm⟩ : ∃ m, ((rs.take n).flatMap line ++ q).length + 1 =
      (rs.take n).length + (q.length + m + 1) := by
    have := length_le_lines htake
    refine ⟨((rs.take n).flatMap line).length - (rs.take n).length, ?_⟩
    rw [length_append]
    omega
  rw [hm, loadLoop_lines htake]
  by_cases hq0 : q = []
  · subst hq0
    exact ⟨n, [], by simp, .clean n (by simp)⟩
  · obtain ⟨r, hr, hpre, hne⟩ := hq.resolve_left hq0
    rcases readLogEntry_torn (h r (mem_of_getElem? hr)) hpre hne
      (1 + (loadSteps X st (rs.take n)).count) with hread | ⟨hread, hcut⟩
    · exact ⟨n, q, by rw [loadLoop, hread], .torn n q rfl hq0⟩
    · refine ⟨n + 1, [], ?_, .glued n q r rfl hr hcut⟩
      rw [loadLoop, hread]
      simp [loadSteps, take_add_one, hr]

/-! ## Units -/

theorem loadStep_update (st : LoadState E) (hr : r.key.isSome = true) :
    loadStep X st r = match st.activeTransaction with
      | some tr => { st with count := st.count + 1, activeTransaction := some (tr.appendLog r) }
      | none => { st with count := st.count + 1, table := (play X st.table r).1 } := by
  cases r <;> simp only [key, Option.isSome_none, Bool.false_eq_true] at hr <;> rfl

theorem foldl_loadStep_open (hrs : ∀ r ∈ rs, r.key.isSome = true)
    {tr : Transaction} (h : st.activeTransaction = some tr) :
    (rs.foldl (loadStep X) st).table = st.table ∧
      ∃ tr', (rs.foldl (loadStep X) st).activeTransaction = some tr' ∧
        tr'.orderedOpLog = tr.orderedOpLog ++ rs := by
  induction rs generalizing st tr with
  | nil => exact ⟨rfl, tr, h, by simp⟩
  | cons r rs ih =>
    have hstep := loadStep_update (X := X) st (hrs r (by simp))
    simp only [h] at hstep
    rw [foldl_cons, hstep]
    have hopen : ({ st with
        count := st.count + 1, activeTransaction := some (tr.appendLog r) } :
          LoadState E).activeTransaction = some (tr.appendLog r) := rfl
    obtain ⟨ht, tr', ha, ho⟩ := ih (fun x hx => hrs x (by simp [hx])) hopen
    exact ⟨ht, tr', ha, by simp [ho]⟩

def LogUnit.Keyed : LogUnit → Prop
  | record r => r.key.isSome = true
  | transaction rs _ => ∀ r ∈ rs, r.key.isSome = true

theorem loadStep_begin (h : st.activeTransaction = none) :
    (loadStep X st .beginTransaction).table = st.table ∧
      (loadStep X st .beginTransaction).activeTransaction = some .empty := by
  simp [loadStep, h]

/-- **The records of a unit take effect together.** -/
theorem foldl_loadStep_unit (hu : u.Keyed) (h : st.activeTransaction = none) :
    (u.records.foldl (loadStep X) st).table = u.apply X st.table ∧
      (u.records.foldl (loadStep X) st).activeTransaction = none := by
  cases u with
  | record r =>
    have hstep := loadStep_update (X := X) st hu
    simp only [h] at hstep
    simp [LogUnit.records, LogUnit.apply, hstep]
  | transaction rs comment =>
    obtain ⟨hbt, hba⟩ := loadStep_begin h
    obtain ⟨ht, tr, ha, ho⟩ := foldl_loadStep_open hu hba
    have hend : ∀ st' : LoadState E, st'.activeTransaction = some tr →
        (loadStep X st' (.endTransaction comment)).table = tr.commit X st'.table ∧
          (loadStep X st' (.endTransaction comment)).activeTransaction = none := by
      intro st' h'
      simp [loadStep, h']
    obtain ⟨het, hea⟩ := hend _ ha
    simp only [LogUnit.records, foldl_cons, foldl_append, foldl_nil]
    refine ⟨?_, hea⟩
    rw [het, ht, hbt, Transaction.commit, ho]
    simp [LogUnit.apply, LogUnit.records, play]

/-- **A part of a unit has no effect.** -/
theorem foldl_loadStep_part (hu : u.Keyed)
    (h : st.activeTransaction = none) {q : List LogRecord} (hq : q <+: u.records)
    (hne : q ≠ u.records) : (q.foldl (loadStep X) st).table = st.table ∧
      ((q.foldl (loadStep X) st).activeTransaction = none ↔ q = []) := by
  cases u with
  | record r =>
    obtain rfl : q = [] := (prefix_concat_iff.mp hq).elim (absurd · hne) prefix_nil.mp
    simp [h]
  | transaction rs comment =>
    cases q with
    | nil => simp [h]
    | cons b q =>
      simp only [LogUnit.records, cons_append, cons_prefix_cons] at hq
      obtain ⟨rfl, hq⟩ := hq
      have hqrs : q <+: rs := (prefix_concat_iff.mp hq).resolve_left (by rintro rfl; exact hne rfl)
      obtain ⟨hbt, hba⟩ := loadStep_begin h
      obtain ⟨ht, tr, ha, -⟩ := foldl_loadStep_open (fun r hr => hu r (hqrs.subset hr)) hba
      exact ⟨ht.trans hbt, by simp [ha]⟩

section

variable (hus : ∀ u ∈ us, u.Keyed) (h : st.activeTransaction = none)
include hus h

theorem foldl_loadStep_units : ((us.flatMap LogUnit.records).foldl (loadStep X) st).table =
        us.foldl (LogUnit.apply X) st.table ∧
      ((us.flatMap LogUnit.records).foldl (loadStep X) st).activeTransaction = none := by
  induction us generalizing st with
  | nil => exact ⟨rfl, h⟩
  | cons u us ih =>
    obtain ⟨ht, ha⟩ := foldl_loadStep_unit (hus u (by simp)) h
    rw [flatMap_cons, foldl_append, foldl_cons, ← ht]
    exact ih (fun v hv => hus v (by simp [hv])) ha

/-- **A prefix of the records of some units** has the effect of the units that it completes. -/
theorem foldl_loadStep_prefix (hrs : rs <+: us.flatMap LogUnit.records) :
    ∃ n q, rs = (us.take n).flatMap LogUnit.records ++ q ∧
      (rs.foldl (loadStep X) st).table = (us.take n).foldl (LogUnit.apply X) st.table ∧
      ((rs.foldl (loadStep X) st).activeTransaction = none ↔ q = []) := by
  obtain ⟨n, q, rfl, hq⟩ := prefix_flatMap_cases LogUnit.records hrs
  have htake : ∀ u ∈ us.take n, u.Keyed := fun u hu => hus u (mem_of_mem_take hu)
  obtain ⟨ht, ha⟩ := foldl_loadStep_units htake h
  refine ⟨n, q, rfl, ?_⟩
  rw [foldl_append, ← ht]
  rcases hq with rfl | ⟨u, hu, hpre, hne⟩
  · simp [ha]
  · exact foldl_loadStep_part (hus u (mem_of_getElem? hu)) ha hpre hne

end

theorem key_readBack : r.readBack.key = r.key := by
  cases r <;> rfl

theorem records_readBack : u.readBack.records = u.records.map readBack := by
  cases u <;> simp [LogUnit.readBack, LogUnit.records, readBack]

theorem LogUnit.WellFormed.keyed (h : u.WellFormed X) : u.readBack.Keyed := by
  cases u with
  | record r => simpa [LogUnit.Keyed, LogUnit.readBack, key_readBack] using h.2
  | transaction rs comment =>
    exact forall_mem_map.mpr fun r hr => by simpa [key_readBack] using (h.1 r hr).2

theorem loadStep_sequence (st : LoadState E) (seq timestamp : ℕ) :
    (loadStep X st (.logHistoricalSequenceNumber seq timestamp)).table = st.table ∧
      (loadStep X st (.logHistoricalSequenceNumber seq timestamp)).activeTransaction =
        st.activeTransaction := by
  simp only [loadStep]
  split_ifs <;> exact ⟨rfl, rfl⟩

theorem wellFormed_fileRecords (seq now : ℕ) (h : ∀ u ∈ us, u.WellFormed X) :
    ∀ r ∈ fileRecords seq now us, WellFormed X r := by
  intro r hr
  rcases mem_cons.mp hr with rfl | hr
  · trivial
  · obtain ⟨u, hu, hr⟩ := mem_flatMap.mp hr
    exact (h u hu).records r hr

theorem loadSteps_fileRecords (seq now : ℕ) (h : ∀ u ∈ us, u.WellFormed X) (now' n : ℕ) :
    ∃ k, (loadSteps X (LoadState.init now') ((fileRecords seq now us).take n)).table =
      tableOf X ((us.take k).map LogUnit.readBack) := by
  cases n with
  | zero => exact ⟨0, rfl⟩
  | succ n =>
    obtain ⟨ht, ha⟩ := loadStep_sequence (LoadState.init now')
      (min seq (2 ^ 64 - 1)) (min now (2 ^ 63 - 1))
    have hpre : ((us.flatMap LogUnit.records).take n).map readBack <+:
        (us.map LogUnit.readBack).flatMap LogUnit.records := by
      have hmap : (us.map LogUnit.readBack).flatMap LogUnit.records =
          (us.flatMap LogUnit.records).map readBack := by
        rw [flatMap_map, map_flatMap]
        exact flatMap_congr fun u _ => records_readBack
      rw [hmap]
      exact IsPrefix.map _ <| take_prefix n _
    obtain ⟨k, q, -, htable, -⟩ := foldl_loadStep_prefix
      (forall_mem_map.mpr fun u hu => (h u hu).keyed) (ha.trans rfl) hpre
    refine ⟨k, ?_⟩
    rw [← map_take] at htable
    exact htable.trans (by rw [ht]; rfl)

/-- **Crash atomicity.** A log file cut off at any byte loads as the first units of the history; the
placeholder is applied as the empty type name. -/
theorem load_prefix_atomic (X : Exprs E) (now now' : ℕ) (calls : List LogCall)
    (hcalls : ∀ c ∈ calls, c.WellFormed) (p : Text)
    (hp : p <+: (run X (ClassAdLog.create now) calls).file) : ∃ l, loadClassAdLog X now' p = .ok l ∧
      ∃ n, l.table = tableOf X (((committed X calls).take n).map LogUnit.readBack) := by
  have hr := run_refines (create_refines (X := X) now) hcalls
  rw [hr.file] at hp
  obtain ⟨n, next, hload, -⟩ :=
    loadLoop_prefix (wellFormed_fileRecords 1 now hr.committed_wf) hp (LoadState.init now')
  obtain ⟨k, hk⟩ := loadSteps_fileRecords 1 now hr.committed_wf now' n
  exact ⟨_, by simp only [loadClassAdLog, hload]; rfl, k, hk⟩

/-- A cut inside the second transaction of a history: the first one is there. -/
theorem load_prefix_atomic_cut :
    ∃ l, loadClassAdLog textExprs 0 ((run textExprs (ClassAdLog.create 0)
        [.newClassAd ['k'] ['t'], .beginTransaction, .setAttribute ['k'] ['a'] ['1'],
          .commitTransaction none]).file.take 50) = .ok l ∧
      ∃ n, l.table = tableOf textExprs (((committed textExprs
        [.newClassAd ['k'] ['t'], .beginTransaction, .setAttribute ['k'] ['a'] ['1'],
          .commitTransaction none]).take n).map LogUnit.readBack) :=
  load_prefix_atomic textExprs 0 0 _ (by decide) _ <| take_prefix _ _

/-- The placeholder is a type name for the log, but not for the file. -/
theorem load_placeholder_differs : (LogCall.newClassAd ['k'] emptyTypeName).WellFormed ∧ ∀ n,
    (loadClassAdLog textExprs 0 (run textExprs (ClassAdLog.create 0)
        [.newClassAd ['k'] emptyTypeName]).file).toOption.map Loaded.table ≠
      some (tableOf textExprs
        ((committed textExprs [.newClassAd ['k'] emptyTypeName]).take n)) := by
  have hunits : committed textExprs [.newClassAd ['k'] emptyTypeName] =
      [.record (.newClassAd ['k'] emptyTypeName)] := rfl
  rw [hunits]
  refine ⟨by decide, fun n => ?_⟩
  cases n with
  | zero => decide
  | succ n =>
    rw [take_succ_cons, take_nil]
    decide

end Condor.Log
