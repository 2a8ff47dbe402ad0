import Condor.Dagman.Model
import Condor.Lib.FlatMap
import Mathlib.Data.Finset.Card
import Mathlib.Data.Prod.Lex

/-!
# The event checker — `CheckEvents`

The checker counts the events of every job, and judges an event by the counts of its job. A test
that fails later overwrites the verdict of the tests before it, also of those for other jobs.

* **`checkAllJobs_iff`**;
* **`queued_iff`**.
-/

namespace Condor.Dagman

open List Function

/-! ## Counting events -/

/-- `eventNumber`, as far as `CheckAnEvent` counts or checks the events. -/
inductive EventNumber where
  | submit
  | execute
  | jobAborted
  | jobTerminated
  | postScriptTerminated
  | other
deriving DecidableEq, Repr

def JobInfo.record (i : JobInfo) : EventNumber → JobInfo
  | .submit => { i with submitCount := i.submitCount + 1 }
  | .jobAborted => { i with abortCount := i.abortCount + 1 }
  | .jobTerminated => { i with termCount := i.termCount + 1 }
  | .postScriptTerminated => { i with postScriptCount := i.postScriptCount + 1 }
  | .execute | .other => i

variable (a : AllowEvents)

def checkJobExecute (i : JobInfo) : CheckResult :=
  if i.totalEndCount ≠ 0 then badIf a.runAfterTerm
  else if i.submitCount < 1 then
    if a.allowExecSubmit || a.allowGarbage then .warning else .error
  else .okay

/-- `CheckAnEvent`, with the event counted. -/
def checkEvent (id : CondorID) (i : JobInfo) : EventNumber → CheckResult
  | .submit => checkJobSubmit a i
  | .execute => checkJobExecute a i
  | .jobAborted | .jobTerminated => checkJobEnd a i
  | .postScriptTerminated => checkPostTerm a id i
  | .other => .okay

/-- `CondorID::Compare`. -/
def CondorID.rank (id : CondorID) : ℤ ×ₗ ℤ ×ₗ ℤ := toLex (id.cluster, toLex (id.proc, id.subproc))

/-- The counts that `CheckAnEvent` keeps, in the order of the ids. -/
def jobHash (history : List (CondorID × EventNumber)) : List (CondorID × JobInfo) :=
  history.foldl (fun jobs (id, e) =>
    Flat.put CondorID.rank id (((Flat.find CondorID.rank id jobs).getD {}).record e) jobs) []

/-! ## The check at the end -/

/-- `CheckJobFinal`, which leaves the result alone if nothing is wrong. -/
def checkJobFinal (id : CondorID) (i : JobInfo) (result : CheckResult) : CheckResult :=
  if id = ⟨-1, 0, 0⟩ ∧ i.submitCount = 0 ∧ i.termCount = 0 ∧ i.postScriptCount ≥ 1 then result
  else if id.subproc ≠ 0 then result
  else if i.postScriptCount > 1 then badIf (a.allowDuplicates || a.allowGarbage)
  else if i.totalEndCount ≠ 1 then
    badIf ((a.almostAll || a.termAbort) && i.abortCount = 1 && i.termCount = 1 ||
      (a.almostAll || a.doubleTerminate) && i.termCount = 2 || a.runAfterTerm ||
      a.allowGarbage && i.totalEndCount = 0 || a.allowDuplicates)
  else if i.submitCount ≠ 1 then badIf (a.almostAll || a.allowGarbage && i.submitCount ≤ 1)
  else result

variable (jobs : List (CondorID × JobInfo))

def checkAllJobs : CheckResult :=
  jobs.foldl (fun result (id, i) => checkJobFinal a id i result) .okay

/-- What a job gives on its own. -/
def ownResult (job : CondorID × JobInfo) : CheckResult :=
  checkJobFinal a job.1 job.2 .okay

def worstResult : CheckResult :=
  if ∃ job ∈ jobs, ownResult a job = .error then .error
  else if ∃ job ∈ jobs, ownResult a job = .badEvent then .badEvent else .okay

/-- If the fault of the last job with a fault is tolerated, no job has an error. -/
def ErrorLast : Prop :=
  ∀ job ∈ (jobs.filter fun job => ownResult a job ≠ .okay).getLast?,
    ownResult a job = .badEvent → ∀ job' ∈ jobs, ownResult a job' ≠ .error

variable {a jobs} {job : CondorID × JobInfo}

theorem badIf_cases (b : Bool) : badIf b = .badEvent ∨ badIf b = .error := by
  cases b <;> decide

@[simp] theorem badIf_ne_okay (b : Bool) : badIf b ≠ .okay := by
  cases b <;> decide

variable (a)

theorem ownResult_cases (job : CondorID × JobInfo) :
    ownResult a job = .okay ∨ ownResult a job = .badEvent ∨ ownResult a job = .error := by
  unfold ownResult checkJobFinal
  split_ifs <;> simp [badIf_cases]

theorem checkJobFinal_eq (result : CheckResult) : checkJobFinal a job.1 job.2 result =
      if ownResult a job = .okay then result else ownResult a job := by
  unfold ownResult checkJobFinal
  split_ifs <;> simp_all

theorem checkAllJobs_eq : checkAllJobs a jobs =
      ((jobs.filter fun job => ownResult a job ≠ .okay).getLast?.map (ownResult a)).getD .okay := by
  induction jobs using reverseRecOn with
  | nil => rfl
  | append_singleton jobs job ih =>
    have hstep : checkAllJobs a (jobs ++ [job]) =
        checkJobFinal a job.1 job.2 (checkAllJobs a jobs) := by
      rw [checkAllJobs, foldl_append]
      rfl
    rw [hstep, checkJobFinal_eq, ih]
    by_cases h : ownResult a job = .okay <;> simp [h]

/-- **The verdict is the worst one** exactly if the last job with a fault has an error, or no job
has. -/
theorem checkAllJobs_iff (history : List (CondorID × EventNumber)) :
    checkAllJobs a (jobHash history) = worstResult a (jobHash history) ↔
      ErrorLast a (jobHash history) := by
  generalize jobHash history = jobs
  rw [checkAllJobs_eq]
  unfold ErrorLast
  rcases hlast : (jobs.filter fun job => ownResult a job ≠ .okay).getLast? with _ | job
  · have hokay : ∀ job ∈ jobs, ownResult a job = .okay := by
      simpa using getLast?_eq_none_iff.mp hlast
    have hnot : ∀ v ≠ CheckResult.okay, ¬ ∃ job ∈ jobs, ownResult a job = v :=
      fun v hv ⟨job, hjob, h⟩ => hv (h.symm.trans (hokay job hjob))
    simp [worstResult, hnot]
  · obtain ⟨hmem, hfault⟩ := mem_filter.mp (mem_of_getLast? hlast)
    rcases ownResult_cases a job with h | h | h
    · simp [h] at hfault
    · have hbad : ∃ job ∈ jobs, ownResult a job = .badEvent := ⟨job, hmem, h⟩
      simp [worstResult, h, hbad]
    · have herror : ∃ job ∈ jobs, ownResult a job = .error := ⟨job, hmem, h⟩
      simp [worstResult, h, herror]

/-- A fault that is tolerated hides the error of a job before it. -/
theorem checkAllJobs_hides_error :
    checkAllJobs {} (jobHash [(⟨1, 0, 0⟩, .submit), (⟨1, 0, 0⟩, .submit),
      (⟨1, 0, 0⟩, .jobTerminated),
      (⟨2, 0, 0⟩, .submit), (⟨2, 0, 0⟩, .jobTerminated), (⟨2, 0, 0⟩, .jobTerminated)]) = .badEvent ∧
    ownResult {} (⟨1, 0, 0⟩, { submitCount := 2, termCount := 1 }) = .error := by
  refine ⟨?_, ?_⟩ <;> decide

/-! ## Procs in the queue -/

/-- The counts of the procs of a cluster, and `_queuedNodeJobProcs` of its node. -/
structure Queued where
  info : ℤ → JobInfo := fun _ => {}
  queuedNodeJobProcs : ℤ := 0

/-- An event, which is processed if `EventSanityCheck` lets it through. -/
def Queued.process (a : AllowEvents) (cluster : ℤ) (q : Queued) (proc : ℤ) (e : EventNumber) :
    Queued :=
  let i := (q.info proc).record e
  let q := { q with info := update q.info proc i }
  if !(checkEvent a ⟨cluster, proc, 0⟩ i e).isProcessed then q
  else match e with
    | .submit => { q with queuedNodeJobProcs := q.queuedNodeJobProcs + 1 }
    | .jobAborted | .jobTerminated => { q with queuedNodeJobProcs := q.queuedNodeJobProcs - 1 }
    | _ => q

def Queued.run (a : AllowEvents) (cluster : ℤ) (es : List (ℤ × EventNumber)) : Queued :=
  es.foldl (fun q (proc, e) => q.process a cluster proc e) {}

/-- The procs that have a submit event before they end, and those that have ended. -/
def procs (es : List (ℤ × EventNumber)) : Finset ℤ × Finset ℤ :=
  es.foldl (fun s (proc, e) => match e with
    | .submit => if proc ∈ s.2 then s else (insert proc s.1, s.2)
    | .jobAborted | .jobTerminated => (s.1, insert proc s.2)
    | _ => s) (∅, ∅)

structure Counted (es : List (ℤ × EventNumber)) (q : Queued) : Prop where
  post : ∀ p, (q.info p).postScriptCount = 0
  ended : ∀ p, (q.info p).totalEndCount = 0 ↔ p ∉ (procs es).2
  submitted : ∀ p, p ∉ (procs es).2 → ((q.info p).submitCount = 0 ↔ p ∉ (procs es).1)
  queued : q.queuedNodeJobProcs = (procs es).1.card - (procs es).2.card

variable {es : List (ℤ × EventNumber)} {cluster p : ℤ} {q : Queued} {e : EventNumber}

theorem procs_concat : procs (es ++ [(p, e)]) = match e with
    | .submit => if p ∈ (procs es).2 then procs es else (insert p (procs es).1, (procs es).2)
    | .jobAborted | .jobTerminated => ((procs es).1, insert p (procs es).2)
    | _ => procs es := by
  rw [procs, foldl_append]
  rfl

theorem isProcessed_checkSubmit (i : JobInfo) :
    (checkJobSubmit {} i).isProcessed = decide (i.totalEndCount = 0 ∧ i.submitCount = 1) := by
  have hbad : (badIf true).isProcessed = false := rfl
  unfold checkJobSubmit
  split_ifs with h1 h2
  · simp [h1, AllowEvents.allowExecSubmit, hbad]
  · simp [h2, AllowEvents.allowDuplicates, hbad]
  · simp_all [CheckResult.isProcessed]

theorem isProcessed_checkEnd {i : JobInfo} (hpost : i.postScriptCount = 0) :
    (checkJobEnd {} i).isProcessed = decide (i.totalEndCount = 1) := by
  have hbad : (badIf true).isProcessed = false := rfl
  unfold checkJobEnd
  split_ifs with h1 h2
  · exact absurd hpost h1
  · simp [h2, AllowEvents.allowDuplicates, hbad]
  · simp_all [CheckResult.isProcessed]
  · simp_all [AllowEvents.allowExecSubmit]
  · simp_all [CheckResult.isProcessed]

theorem process_eq :
    q.process a cluster p e = ⟨update q.info p ((q.info p).record e), q.queuedNodeJobProcs +
      if (checkEvent a ⟨cluster, p, 0⟩ ((q.info p).record e) e).isProcessed then
        match e with
        | .submit => 1
        | .jobAborted | .jobTerminated => -1
        | _ => 0
      else 0⟩ := by
  simp only [Queued.process]
  split_ifs <;> cases e <;> simp_all [Int.sub_eq_add_neg]

theorem Counted.process (h : Counted es q) (he : e ≠ .postScriptTerminated) :
    Counted (es ++ [(p, e)]) (q.process {} cluster p e) := by
  obtain ⟨hpost, hended, hsubmitted, hqueued⟩ := h
  have hpost' : ((q.info p).record e).postScriptCount = 0 := by
    cases e <;> first | exact absurd rfl he | exact hpost p
  rw [process_eq]
  refine ⟨fun r => ?_, fun r => ?_, fun r => ?_, ?_⟩
  · by_cases hr : r = p
    · rw [hr]
      simpa using hpost'
    · simpa [update_of_ne hr] using hpost r
  iterate 2
    · rw [procs_concat]
      cases e <;> grind [JobInfo.record, JobInfo.totalEndCount]
  · rw [procs_concat]
    cases e with
    | postScriptTerminated => exact absurd rfl he
    | execute | other => simpa using hqueued
    | submit =>
      simp only [checkEvent, isProcessed_checkSubmit]
      grind [JobInfo.record, JobInfo.totalEndCount]
    | jobAborted | jobTerminated =>
      simp only [checkEvent, isProcessed_checkEnd hpost']
      grind [JobInfo.record, JobInfo.totalEndCount]

/-- **The counts along a sequence of events.** -/
theorem counted_run (hes : ∀ e ∈ es, e.2 ≠ .postScriptTerminated) :
    Counted es (Queued.run {} cluster es) := by
  induction es using reverseRecOn with
  | nil => exact ⟨fun _ => rfl, by simp [procs, Queued.run, JobInfo.totalEndCount],
      by simp [procs, Queued.run], by simp [procs, Queued.run]⟩
  | append_singleton es e ih =>
    obtain ⟨hes, he⟩ := forall_mem_append.mp hes
    rw [Queued.run, foldl_append]
    exact (ih hes).process (he e (mem_singleton_self e))

/-- **The number of procs is never negative** exactly if at no time more procs have ended than were
submitted before. -/
theorem queued_iff (cluster : ℤ) (es : List (ℤ × EventNumber))
    (hes : ∀ e ∈ es, e.2 ≠ .postScriptTerminated) :
    (∀ es' ∈ es.inits, 0 ≤ (Queued.run {} cluster es').queuedNodeJobProcs) ↔
      ∀ es' ∈ es.inits, (procs es').2.card ≤ (procs es').1.card := by
  refine forall₂_congr fun es' hes' => ?_
  have hsub := ((mem_inits es' es).mp hes').subset
  rw [(counted_run fun e he => hes e (hsub he)).queued]
  omega

/-- The second end of a proc is not counted. -/
theorem queued_iff_twice :
    0 ≤ (Queued.run {} 1 [(0, .submit), (0, .jobTerminated),
      (0, .jobAborted)]).queuedNodeJobProcs :=
  (queued_iff 1 _ (by decide)).mpr (by decide) _ (mem_inits _ _ |>.mpr (prefix_refl _))

/-- A proc that terminates before it is submitted makes the number negative. -/
theorem queued_orphan :
    (checkEvent {} ⟨1, 0, 0⟩ (JobInfo.record {} .jobTerminated) .jobTerminated).isProcessed ∧
      (Queued.run {} 1 [(0, .jobTerminated)]).queuedNodeJobProcs = -1 := by
  decide

end Condor.Dagman
