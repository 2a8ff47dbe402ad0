import Mathlib.Data.Int.Notation
import Mathlib.Data.List.Perm.Basic

/-!
# The scripts of DAGMan — `ScriptQ`

A script remembers the pid of its last process only, so its bookkeeping is consistent as long as it
is not started while an earlier process of it runs.

* **`scripts_consistent`**.
-/

namespace Condor.Dagman

open List Option

variable {α : Type*} {p : ℤ}

inductive ScriptType where
  | pre
  | post
  | hold
deriving DecidableEq, Repr

/-- What does not change: the type and the limit of the queue, and the scripts of its nodes. -/
structure Scripts (α : Type*) where
  type : ScriptType
  maxScripts : ScriptType → ℕ
  isFinal : α → Bool
  deferStatus : α → Option ℤ
  deferTime : α → ℤ

def Scripts.limit (S : Scripts α) : ℕ := S.maxScripts S.type

/-- **The queue**, the fields of its scripts that change, and the pids that the system will give. -/
structure ScriptQ (α : Type*) where
  numScriptsRunning : ℤ := 0
  scriptPidTable : List (ℤ × α) := []
  waitingQueue : List α := []
  pid : α → ℤ := fun _ => 0
  nextRunTime : α → ℤ := fun _ => 0
  pids : List ℤ

namespace ScriptQ

variable (S : Scripts α) (q : ScriptQ α)

def push (x : α) : ScriptQ α := { q with waitingQueue := q.waitingQueue ++ [x] }

/-- The scripts that run or wait. -/
def held : List α := q.scriptPidTable.map Prod.snd ++ q.waitingQueue

theorem held_push {q : ScriptQ α} {x : α} : (q.push x).held.Perm (x :: q.held) := by
  rw [held, push, ← append_assoc]
  exact perm_append_singleton x _

def isDeferred (halted : Bool) (x : α) : Bool :=
  (halted && S.type = .pre && !S.isFinal x) || (S.limit ≠ 0 && (S.limit : ℤ) ≤ q.numScriptsRunning)

/-- The time of a deferred script has not come. -/
def isEarly (now : ℤ) (x : α) : Bool := q.nextRunTime x ≠ 0 && now < q.nextRunTime x

/-- The reaper finds a script that has another pid. -/
def isMismatch (p : ℤ) : Bool := (q.scriptPidTable.lookup p).any fun x => q.pid x ≠ p

theorem mem_of_lookup {q : ScriptQ α} {x : α} (h : q.scriptPidTable.lookup p = some x) :
    (p, x) ∈ q.scriptPidTable := by
  obtain ⟨l, r, hl, -⟩ := lookup_eq_some_iff.mp h
  rw [hl]
  exact mem_append_right _ mem_cons_self

/-- **The bookkeeping is consistent.** -/
structure Consistent : Prop where
  running : q.numScriptsRunning = q.scriptPidTable.length
  limit : S.limit ≠ 0 → q.numScriptsRunning ≤ S.limit
  pids : ∀ e ∈ q.scriptPidTable, q.pid e.2 = e.1

theorem Consistent.isMismatch_eq_false {S : Scripts α} {q : ScriptQ α} (hq : q.Consistent S)
    (p : ℤ) : q.isMismatch p = false := by
  cases hx : q.scriptPidTable.lookup p with
  | none => simp [isMismatch, hx]
  | some x => simp [isMismatch, hx, hq.pids _ (mem_of_lookup hx)]

variable [DecidableEq α]

/-- `BackgroundRun` and the entry in the table. The pid is not zero and not in the table. -/
def backgroundRun (x : α) : Option (ScriptQ α) :=
  match q.pids with
  | [] => none
  | p :: ps =>
    if p = 0 ∨ p ∈ q.scriptPidTable.map Prod.fst then none
    else some { q with
      numScriptsRunning := q.numScriptsRunning + 1
      scriptPidTable := (p, x) :: q.scriptPidTable
      pid := Function.update q.pid x p
      pids := ps }

/-- **`Run`**, with whether the script was started. -/
def run (halted : Bool) (x : α) : Option (Bool × ScriptQ α) :=
  if q.isDeferred S halted x then some (false, q.push x)
  else (q.backgroundRun x).map fun q => (true, q)

/-- The loop of `RunWaitingScripts`, with the number of its turns. -/
def runLoop (halted : Bool) (now : ℤ) (justOne : Bool) : ℕ → ScriptQ α → Option (ScriptQ α)
  | 0, q => some q
  | k + 1, q =>
    match q.waitingQueue with
    | [] => none
    | x :: rest =>
      let q := { q with waitingQueue := rest }
      if q.isEarly now x then runLoop halted now justOne k (q.push x)
      else
        match q.run S halted x with
        | none => none
        | some (ran, q) => if ran && !justOne then runLoop halted now justOne k q else some q

/-- **`RunWaitingScripts`.** -/
def runWaitingScripts (halted : Bool) (now : ℤ) (justOne : Bool) : Option (ScriptQ α) :=
  runLoop S halted now justOne q.waitingQueue.length q

/-- The reaper takes the process out of the table. -/
def remove (p : ℤ) (x : α) : ScriptQ α :=
  { q with
    scriptPidTable := q.scriptPidTable.erase (p, x)
    numScriptsRunning := q.numScriptsRunning - 1 }

/-- The scripts that the reaper of the DAG asks for. -/
def runAll (halted : Bool) : List α → ScriptQ α → Option (ScriptQ α)
  | [], q => some q
  | x :: xs, q =>
    match q.run S halted x with
    | none => none
    | some (_, q) => runAll halted xs q

/-- The script is deferred, or the reaper of the DAG is called. -/
def exited (x : α) (status : ℤ) (halted : Bool) (starts : List α) (now : ℤ) : Option (ScriptQ α) :=
  if S.deferStatus x = some status then
    some { q.push x with nextRunTime := Function.update q.nextRunTime x (now + S.deferTime x) }
  else runAll S halted starts q

/-- **`ScriptReaper`**; there is no state after the `EXCEPT`. -/
def scriptReaper (p status : ℤ) (halted : Bool) (starts : List α) (now later : ℤ) :
    Option (ScriptQ α) :=
  match q.scriptPidTable.lookup p with
  | none => none
  | some x =>
    if q.isMismatch p then none
    else
      ((q.remove p x).exited S x status halted starts now).bind fun q =>
        q.runWaitingScripts S halted later true

inductive Call (α : Type*) where
  | run (halted : Bool) (x : α)
  | runWaitingScripts (halted : Bool) (now : ℤ) (justOne : Bool)
  | scriptReaper (p status : ℤ) (halted : Bool) (starts : List α) (now later : ℤ)

def call : Call α → Option (ScriptQ α)
  | .run halted x => (q.run S halted x).map Prod.snd
  | .runWaitingScripts halted now justOne => q.runWaitingScripts S halted now justOne
  | .scriptReaper p status halted starts now later =>
    q.scriptReaper S p status halted starts now later

def calls : List (Call α) → ScriptQ α → Option (ScriptQ α)
  | [], q => some q
  | c :: cs, q => (q.call S c).bind (calls cs)

/-! ## What the calls keep -/

/-- The call asks only for scripts that neither run nor wait, each of them once. -/
def Legal : Call α → Prop
  | .run _ x => x ∉ q.held
  | .runWaitingScripts .. => True
  | .scriptReaper p _ _ starts _ _ =>
    ∀ x, q.scriptPidTable.lookup p = some x → starts.Nodup ∧ ∀ y ∈ starts, y ∉ (q.remove p x).held

def LegalCalls : List (Call α) → ScriptQ α → Prop
  | [], _ => True
  | c :: cs, q => q.Legal c ∧ ∀ q', q.call S c = some q' → LegalCalls cs q'

variable {S q} {q' : ScriptQ α} {x : α} {halted : Bool} {now : ℤ} {justOne : Bool}

theorem run_kept {b : Bool} (h : q.run S halted x = some (b, q')) :
    q'.held.Perm (x :: q.held) ∧ (q.Consistent S → (x :: q.held).Nodup → q'.Consistent S) := by
  unfold run at h
  split at h
  · obtain ⟨-, rfl⟩ : _ ∧ _ := by simpa using h
    exact ⟨held_push, fun hq _ => ⟨hq.running, hq.limit, hq.pids⟩⟩
  next hd =>
    obtain ⟨q0, hb, hq'⟩ := map_eq_some_iff.mp h
    obtain rfl : q0 = q' := congrArg Prod.snd hq'
    unfold backgroundRun at hb
    split at hb
    · cases hb
    split at hb
    · cases hb
    obtain rfl := some.inj hb
    refine ⟨.refl _, fun hq hx => ⟨?_, fun hl => ?_, ?_⟩⟩
    · simp [hq.running]
    · have : ¬(S.limit : ℤ) ≤ q.numScriptsRunning := fun hle => hd (by simp [isDeferred, hl, hle])
      simp only
      omega
    · intro e he
      obtain rfl | he := mem_cons.mp he
      · exact Function.update_self ..
      -- the other processes are of other scripts
      have hmem : e.2 ∈ q.held := mem_append_left _ (mem_map_of_mem he)
      have hne : e.2 ≠ x := fun h => (nodup_cons.mp hx).1 (h ▸ hmem)
      exact (Function.update_of_ne hne ..).trans (hq.pids e he)

theorem runLoop_kept (k : ℕ) : ∀ {q : ScriptQ α}, runLoop S halted now justOne k q = some q' →
      q'.held.Perm q.held ∧ (q.Consistent S → q.held.Nodup → q'.Consistent S) := by
  induction k with
  | zero =>
    intro q h
    obtain rfl : q = q' := by simpa [runLoop] using h
    exact ⟨.refl _, fun hq _ => hq⟩
  | succ k ih =>
    intro q h
    unfold runLoop at h
    split at h
    · cases h
    next x rest hw =>
      have hp : q.held.Perm (x :: { q with waitingQueue := rest }.held) := by
        rw [held, hw]
        exact perm_middle
      have keep : q.Consistent S → { q with waitingQueue := rest }.Consistent S :=
        fun hq => ⟨hq.running, hq.limit, hq.pids⟩
      simp only at h
      split at h
      · obtain ⟨h1, h2⟩ := ih h
        have hp' := held_push.trans hp.symm
        exact ⟨h1.trans hp', fun hq hn =>
          h2 ⟨hq.running, hq.limit, hq.pids⟩ (hp'.nodup_iff.mpr hn)⟩
      split at h
      · cases h
      next ran q1 hr =>
        obtain ⟨h1, h2⟩ := run_kept hr
        have h2 (hq : q.Consistent S) (hn : q.held.Nodup) := h2 (keep hq) (hp.nodup_iff.mp hn)
        split at h
        · obtain ⟨h3, h4⟩ := ih h
          have hp1 := h1.trans hp.symm
          exact ⟨h3.trans hp1, fun hq hn => h4 (h2 hq hn) (hp1.nodup_iff.mpr hn)⟩
        · obtain rfl := some.inj h
          exact ⟨h1.trans hp.symm, h2⟩

theorem runAll_kept (xs : List α) : ∀ {q : ScriptQ α}, runAll S halted xs q = some q' →
      q'.held.Perm (xs ++ q.held) ∧ (q.Consistent S → (xs ++ q.held).Nodup → q'.Consistent S) := by
  induction xs with
  | nil =>
    intro q h
    obtain rfl : q = q' := by simpa [runAll] using h
    exact ⟨.refl _, fun hq _ => hq⟩
  | cons x xs ih =>
    intro q h
    unfold runAll at h
    split at h
    · cases h
    next q1 hr =>
      obtain ⟨h1, h2⟩ := run_kept hr
      obtain ⟨h3, h4⟩ := ih h
      have hp : (xs ++ q1.held).Perm (x :: (xs ++ q.held)) :=
        (h1.append_left xs).trans perm_middle
      refine ⟨h3.trans hp, fun hq hn => h4 (h2 hq ?_) (hp.nodup_iff.mpr hn)⟩
      exact hn.sublist ((sublist_append_right xs _).cons_cons x)

theorem held_remove (h : (p, x) ∈ q.scriptPidTable) : q.held.Perm (x :: (q.remove p x).held) :=
  ((perm_cons_erase h).map Prod.snd).append_right _

theorem Consistent.remove (hq : q.Consistent S) (h : (p, x) ∈ q.scriptPidTable) :
    (q.remove p x).Consistent S := by
  have hl := length_erase_of_mem h
  have hpos := length_pos_of_mem h
  refine ⟨?_, fun hs => ?_, fun e he => hq.pids e (mem_of_mem_erase he)⟩
  · simp only [ScriptQ.remove, hq.running]
    omega
  · have := hq.limit hs
    simp only [ScriptQ.remove]
    omega

theorem call_kept {c : Call α} (hl : q.Legal c) (h : q.call S c = some q') (hq : q.Consistent S)
    (hn : q.held.Nodup) : q'.Consistent S ∧ q'.held.Nodup := by
  cases c with
  | run halted x =>
    obtain ⟨⟨b, q1⟩, hr, rfl⟩ := map_eq_some_iff.mp h
    obtain ⟨h1, h2⟩ := run_kept hr
    have hx := nodup_cons.mpr ⟨hl, hn⟩
    exact ⟨h2 hq hx, h1.nodup_iff.mpr hx⟩
  | runWaitingScripts halted now justOne =>
    obtain ⟨h1, h2⟩ := runLoop_kept _ h
    exact ⟨h2 hq hn, h1.nodup_iff.mpr hn⟩
  | scriptReaper p status halted starts now later =>
    simp only [call, scriptReaper] at h
    split at h
    · cases h
    next x hx =>
    have hmem := mem_of_lookup hx
    have hq1 := hq.remove hmem
    have hn1 := (held_remove hmem).nodup_iff.mp hn
    split at h
    · cases h
    obtain ⟨q2, h2, h⟩ := bind_eq_some_iff.mp h
    obtain ⟨h3, h4⟩ := runLoop_kept _ h
    suffices h2 : q2.Consistent S ∧ q2.held.Nodup from
      ⟨h4 h2.1 h2.2, h3.nodup_iff.mpr h2.2⟩
    unfold exited at h2
    split at h2
    · obtain rfl := some.inj h2
      exact ⟨⟨hq1.running, hq1.limit, hq1.pids⟩, held_push.nodup_iff.mpr hn1⟩
    · obtain ⟨h5, h6⟩ := runAll_kept _ h2
      obtain ⟨hs, hd⟩ := hl x hx
      have hn2 : (starts ++ (q.remove p x).held).Nodup :=
        nodup_append.mpr ⟨hs, (nodup_cons.mp hn1).2, fun y hy z hz h => hd y hy (h ▸ hz)⟩
      exact ⟨h6 hq1 hn2, h5.nodup_iff.mpr hn2⟩

theorem calls_kept (cs : List (Call α)) :
    ∀ {q : ScriptQ α}, LegalCalls S cs q → calls S cs q = some q' → q.Consistent S →
      q.held.Nodup → q'.Consistent S := by
  induction cs with
  | nil =>
    intro q _ h hq _
    exact some.inj h ▸ hq
  | cons c cs ih =>
    intro q hl h hq hn
    obtain ⟨q1, h1, h⟩ := bind_eq_some_iff.mp h
    obtain ⟨hq1, hn1⟩ := call_kept hl.1 h1 hq hn
    exact ih (hl.2 q1 h1) h hq1 hn1

/-- **The bookkeeping of the scripts**, in every run that asks for a script only if it neither runs
nor waits. -/
theorem scripts_consistent (S : Scripts α) (pids : List ℤ) (cs : List (Call α))
    (hl : LegalCalls S cs { pids }) (hq : calls S cs { pids } = some q) :
    q.Consistent S ∧ ∀ p, q.isMismatch p = false := by
  have hq := calls_kept cs hl hq ⟨rfl, fun _ => Int.natCast_nonneg _, forall_mem_nil _⟩
    nodup_nil
  exact ⟨hq, hq.isMismatch_eq_false⟩

def holdScripts : Scripts ℕ := ⟨.hold, fun _ => 20, fun _ => false, fun _ => none, fun _ => 0⟩

/-- A HOLD script runs again after its first process has ended. -/
theorem scripts_consistent_again :
    ((calls holdScripts [.run false 0, .scriptReaper 1 0 false [] 0 0, .run false 0]
      { pids := [1, 2] }).map fun q => q.scriptPidTable) = some [(2, 0)] ∧
    ∀ q, calls holdScripts [.run false 0, .scriptReaper 1 0 false [] 0 0, .run false 0]
      { pids := [1, 2] } = some q → q.Consistent holdScripts ∧ ∀ p, q.isMismatch p = false := by
  refine ⟨by decide, fun q hq => scripts_consistent _ _ _ ?_ hq⟩
  refine ⟨by simp [Legal, held], fun q1 h1 => ?_⟩
  obtain rfl := some.inj h1
  refine ⟨by simp [Legal], fun q2 h2 => ?_⟩
  obtain rfl := some.inj h2
  exact ⟨by simp [Legal, held, remove], fun _ _ => trivial⟩

/-- Two held events of one node: its HOLD script has two processes and the pid of the second, and
the reaper of the first takes the `EXCEPT`. -/
theorem hold_twice_mismatch :
    ((calls holdScripts [.run false 0, .run false 0] { pids := [1, 2] }).map fun q =>
      (q.scriptPidTable, q.pid 0, q.isMismatch 1)) = some ([(2, 0), (1, 0)], 2, true) := by
  decide

end ScriptQ

end Condor.Dagman
