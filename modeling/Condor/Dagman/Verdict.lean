import Condor.Dagman.Dependencies
import Mathlib.Data.Set.Card

/-!
# The verdict of DAGMan

When nothing runs any longer, an acyclic DAG is done or has a failed node, unless a node has been
left behind: with a job that has failed before the last one has succeeded, or started again on hold
after its descendants have become futile.

* **`doneCycle_eq_false`**.
-/

namespace Condor.Dagman

open Option Bool World Finset

variable {n : ℕ} {D : DagFile n} {cfg : Config} {ok : Quirk → Prop} {w w' : World n} {h h' : Hold n}
  {i j p : Fin n}

/-! ## Deferred nodes -/

theorem step_deferred {l : Label n} (hI : Inv D cfg {} w .free) (hd : w.dag.deferredJobs = [])
    (hs : w.step D cfg l = some w') : w'.dag.deferredJobs = [] := by
  by_cases hl : ∃ os, l = .submit os
  · obtain ⟨os, rfl⟩ := hl
    simp only [step, submitReadyJobs, map_eq_some_iff] at hs
    obtain ⟨w1, -, rfl⟩ := hs
    rfl
  · have hmoves : Moves D cfg (· ≠ .deferred) _ _ _ _ :=
      moves_of_step hI (.inr fun os heq => hl ⟨os, heq⟩) (fun q hq => ?_) hs
    · exact hmoves.induct
        (fun _ _ _ _ _ hnil hm => (hm.frame.deferred hnil).resolve_right fun hne => hne rfl) hI hd
    · rintro rfl
      cases l with
      | submit os => exact hl ⟨os, rfl⟩
      | preExit j x | postExit j x => simp [quirk] at hq
      | event e =>
        cases e with
        | submit | preSkip | postTerm => simp [quirk] at hq
        | terminated id x =>
          simp only [quirk, bind_eq_bind, bind_eq_some_iff] at hq
          obtain ⟨j, -, hq⟩ := hq
          cases hx : x.isSuccess <;> simp only [hx, false_eq_true, if_false,
            jobQuirk] at hq <;> split_ifs at hq <;> cases hq
        | aborted id =>
          simp only [quirk, bind_eq_bind, bind_eq_some_iff, jobQuirk] at hq
          obtain ⟨j, -, hq⟩ := hq
          split_ifs at hq <;> cases hq

theorem run_deferred {ls : List (Label n)} (hs : run D cfg ls = some w) :
    w.dag.deferredJobs = [] := by
  obtain ⟨w0, h0, hsteps⟩ := run_cases hs
  have hI := Inv.start h0
  have hd := (Fresh.start h0).deferredJobs
  clear h0 hs
  induction ls generalizing w0 with
  | nil =>
    cases hsteps
    exact hd
  | cons l ls ih =>
    obtain ⟨w1, h1, hsteps⟩ := bind_eq_some_iff.mp hsteps
    have hmoves : Moves D cfg (fun _ => True) _ _ _ _ :=
      moves_of_step hI (.inl trivial) (fun _ _ => trivial) h1
    exact ih w1 hsteps (hI.moves hmoves) (step_deferred hI hd h1)

/-! ## Failed and futile nodes -/

theorem Alike.isDoomed {v' v : View n} (ha : Alike v' v) (hd : isDoomed D i v.job = true) :
    isDoomed D i v'.job = true := by
  simp only [Condor.Dagman.isDoomed, and_eq_true, decide_eq_true_eq] at hd ⊢
  obtain ⟨⟨herror, hpost⟩, hretry⟩ := hd
  obtain ⟨hretries, hmax, hval⟩ := ha.again herror
  refine ⟨⟨ha.status.trans herror, hpost⟩, ?_⟩
  simpa only [doRetry, doAbort, hretries, hmax, hval] using hretry

variable (D) in
/-- A node has failed for good and is to be counted: some of its jobs still run, or it is in hand.
-/
def Pending (w : World n) (h : Hold n) : Prop :=
  (∃ j, h.node ≠ some j ∧ w.clusters j ≠ [] ∧ isDoomed D j (w.dag.jobs j) = true ∧
    (D.node j).children ≠ []) ∨
  ∃ j m, h = .held j m ∧ (m = .doomed ∨ m = .marked) ∧ (D.node j).children ≠ []

variable (D) in
/-- **Failed and futile nodes are accounted for.** -/
structure Accounted (w : World n) (h : Hold n) : Prop where
  nonneg : 0 ≤ w.dag.numNodesFailed
  known : ∀ i, h.node ≠ some i → (w.view i).job.status ≠ .notReady
  error : ∀ i, h.node ≠ some i → (w.view i).job.status = .error →
    (w.view i).clusters ≠ [] ∨ 0 < w.dag.numNodesFailed
  futile : ∀ i, h.node ≠ some i → (w.view i).job.status = .futile →
    0 < w.dag.numNodesFailed ∨ Pending D w h

def DagFile.Acyclic (D : DagFile n) : Prop := ∀ i, ¬ Descendant D i i

theorem children_ne_nil (hi : Descendant D j i) : (D.node j).children ≠ [] := by
  obtain ⟨c, hc, -⟩ := Relation.TransGen.head'_iff.mp hi
  exact List.ne_nil_of_mem hc

/-- The number of descendants bounds the depth of a search: a child has fewer. -/
theorem ncard_descendants_lt (hD : D.Acyclic) {p c : Fin n} (hc : c ∈ (D.node p).children) :
    {i | Descendant D c i}.ncard < {i | Descendant D p i}.ncard := by
  refine Set.ncard_lt_ncard ⟨fun i hi => .head hc hi, fun h => hD c ?_⟩ (Set.toFinite _)
  exact h (.single hc)

theorem ncard_descendants_le : {i | Descendant D p i}.ncard < n + 1 := by
  have h := Set.ncard_le_ncard (Set.subset_univ {i | Descendant D p i})
  rw [Set.ncard_univ, Nat.card_fin] at h
  exact Nat.lt_succ_of_le h

theorem pending_of_futile {s : State n} (hD : D.Acyclic) (hi : Descendant D j i)
    (hs : countFutile D w.dag j = some s)
    (hout : Spreads D ok w h h' j) : Pending D (w.withDag s) h' := by
  have hchildren := children_ne_nil hi
  rcases hout with ⟨m, -, rfl⟩ | ⟨-, rfl, hc, hd, -⟩
  · exact .inr ⟨j, .marked, rfl, .inr rfl, hchildren⟩
  · left
    refine ⟨j, nofun, hc, ?_, hchildren⟩
    obtain ⟨jobs, k, rfl, hjobs⟩ := countFutile_eq hs
    have hsame := (hjobs j).resolve_right fun hnew => hD j hnew.2.1
    simpa only [withDag_dag, hsame] using hd

section

variable (hD : D.Acyclic) (hstuck : ¬ ok .stuck) (hhold : ¬ ok .onHold) (hI : Inv D cfg {} w h)
include hD hstuck hhold hI

/-- A node that is pending is counted as failed, or stays pending. -/
theorem Pending.move (h0 : 0 ≤ w.dag.numNodesFailed) (hP : Pending D w h)
    (hm : Move D cfg ok w h w' h') : 0 < w'.dag.numNodesFailed ∨ Pending D w' h' := by
  rcases hP with ⟨j, hh, hc, hd, hchildren⟩ | ⟨j, m, rfl, hmark, hchildren⟩
  · right
    by_cases hh' : h'.node = some j
    · refine .inr ⟨j, .doomed, ?_, .inl rfl, hchildren⟩
      have hpos := List.length_pos_iff.mpr hc
      have hplaces := (hI.node j hh).places
      have hmore : ¬ (w.view j).clusters.length < (w.view j).places := fun hlt =>
        (hlt.trans_le hplaces).not_ge hpos
      rw [((hm.taken hh hh').resolve_left hmore).2, if_pos hd]
    · have herror : (w.view j).job.status = .error := by
        simp only [Condor.Dagman.isDoomed, and_eq_true, decide_eq_true_eq] at hd
        exact hd.1.1
      cases hm.turn hI hh' with
      | same _ ha =>
        exact .inl ⟨j, hh', fun hnil => hc (ha.clusters.mp hnil), ha.isDoomed hd, hchildren⟩
      | other h₀ => exact absurd herror (h₀.resolve_left hh).1
      | fault _ h₀ => exact absurd herror h₀
      | futile j' s _ hj hw' hs hout =>
        rw [hw']
        exact pending_of_futile hD hj hs hout
      | failed m heq => exact absurd (congrArg Hold.node heq) hh
  · have hfine : m ≠ .fine := by rintro rfl; simp at hmark
    have hskipped : m ≠ .skipped := by rintro rfl; simp at hmark
    cases hm with
    | log | touch => exact .inr (.inr ⟨j, m, rfl, hmark, hchildren⟩)
    | futile => exact .inr (.inr ⟨j, .marked, rfl, .inr rfl, hchildren⟩)
    | enqueue _ _ g p _ hput =>
      exact absurd ((hput.resolve_left hfine).2.resolve_right hchildren) hhold
    | prerun _ _ hput => exact absurd ((hput.resolve_left hfine).2.resolve_right hchildren) hhold
    | post | skip | forget | accept => exact absurd rfl hfine
    | fail => exact .inl (Int.lt_add_one_of_le h0)
    | stuck _ _ _ _ hok => exact absurd hok hstuck
    | done _ _ s hput _ => exact absurd (hput.resolve_left hfine) hskipped

/-- **A move keeps the account.** -/
theorem Accounted.move (hA : Accounted D w h) (hm : Move D cfg ok w h w' h') :
    Accounted D w' h' where
  nonneg := hA.nonneg.trans hm.frame.failed
  known := fun i hi' hst => by
    cases hm.turn hI hi' with
    | same hh ha => exact hA.known i hh (ha.status.symm.trans hst)
    | other _ _ _ hn => exact hn hst
    | fault _ _ _ hs => exact absurd (hs.symm.trans hst) nofun
    | futile j s _ _ _ _ _ hv =>
      rw [hv] at hst
      cases hst
    | failed m _ hs hv =>
      rw [hv] at hst
      rcases hs with hs | ⟨hs, -⟩ <;> exact absurd (hs.symm.trans hst) nofun
  error := fun i hi' hst => by
    cases hm.turn hI hi' with
    | same hh ha =>
      exact (hA.error i hh (ha.status.symm.trans hst)).imp (fun hc hnil => hc (ha.clusters.mp hnil))
        fun hpos => hpos.trans_le hm.frame.failed
    | other _ he => exact absurd hst he
    | fault _ _ _ _ hc => exact .inl hc
    | futile j s _ _ _ _ _ hv =>
      rw [hv] at hst
      cases hst
    | failed m _ _ _ hq =>
      obtain ⟨hfailed, -⟩ := hq.resolve_left hstuck
      right
      rw [hfailed]
      exact Int.lt_add_one_of_le hA.nonneg
  futile := fun i hi' hst => by
    cases hm.turn hI hi' with
    | same hh ha =>
      rcases hA.futile i hh (ha.status.symm.trans hst) with hpos | hP
      · exact .inl (hpos.trans_le hm.frame.failed)
      · exact hP.move hD hstuck hhold hI hA.nonneg hm
    | other _ _ hf => exact absurd hst hf
    | fault _ _ _ hs => exact absurd (hs.symm.trans hst) nofun
    | futile j s _ hj hw' hs hout =>
      rw [hw']
      exact .inr (pending_of_futile hD hj hs hout)
    | failed m _ hs hv =>
      rw [hv] at hst
      rcases hs with hs | ⟨-, hself⟩
      · exact absurd (hs.symm.trans hst) nofun
      · exact absurd hself (hD i)

end

theorem Accounted.start (hs : start D cfg = some w) : Accounted D w .free := by
  have hfresh := Fresh.start hs
  have hst := hfresh.status_ne
  exact ⟨hfresh.numNodesFailed.ge, fun i _ => (hst i).2.2, fun i _ he => absurd he (hst i).1,
    fun i _ hf => absurd hf (hst i).2.1⟩

/-! ## The first node that is not done -/

theorem exists_first (hD : D.Acyclic) {P : Fin n → Prop} (hP : ∃ i, P i) :
    ∃ i, P i ∧ ∀ p ∈ D.parents i, ¬ P p := by
  have hirrefl : Std.Irrefl (Descendant D) := ⟨hD⟩
  have htrans : IsTrans (Fin n) (Descendant D) := ⟨fun _ _ _ => Relation.TransGen.trans⟩
  have hwf := Finite.wellFounded_of_trans_of_irrefl (Descendant D)
  obtain ⟨i, hi, hmin⟩ := hwf.has_min {i | P i} hP
  exact ⟨i, hi, fun p hp hPp => hmin p hPp (.single (mem_parents.mp hp))⟩

theorem Inv.clusters_nil (hI : Inv D cfg {} w .free) (hfin : finishedRunning w.dag = true)
    (i : Fin n) : w.clusters i = [] := by
  simp only [finishedRunning, and_eq_true, decide_eq_true_eq] at hfin
  have hzero := (sum_eq_zero_iff_of_nonneg (fun i _ => Int.natCast_nonneg _)).mp
    (hI.numSubmitted.symm.trans hfin.1.1) i (mem_univ i)
  exact List.length_eq_zero_iff.mp (Int.natCast_eq_zero.mp hzero)

/-- A node that is not done while nothing runs has failed or is futile. -/
theorem Inv.failed_of_finished (hI : Inv D cfg {} w .free) (hA : Accounted D w .free)
    (hd : w.dag.deferredJobs = []) (hfin : finishedRunning w.dag = true)
    (hc : (w.dag.jobs i).countedAsDone = false)
    (hp : ∀ p ∈ D.parents i, (w.dag.jobs p).countedAsDone = true) :
    (w.view i).job.status = .error ∨ (w.view i).job.status = .futile := by
  have hcl := hI.clusters_nil hfin
  simp only [finishedRunning, and_eq_true, decide_eq_true_eq, List.isEmpty_iff] at hfin
  obtain ⟨⟨-, hready⟩, hrun⟩ := hfin
  have hn := hI.node i nofun
  have hwait : isWaiting D i (w.dag.jobs i) = false := by
    by_contra hw
    obtain ⟨p, hmem, hK⟩ := (isWaiting_iff (hI.waits i)).mp (by simpa using hw)
    simp [hp p hmem] at hK
  have hpre0 : (0 : ℤ) ≤ ∑ i, ((w.view i).pre + (w.view i).skips.length : ℤ) :=
    sum_nonneg fun i _ => by omega
  have hpost0 : (0 : ℤ) ≤ ∑ i, if Hold.free.node ≠ some i ∧ (w.view i).job.status = .postrun then
      (1 : ℤ) else 0 := sum_nonneg fun i _ => zero_le_ite _
  have hprerun := hI.preRun
  have hpostrun := hI.postRun
  have hpre : ((w.view i).pre + (w.view i).skips.length : ℤ) = 0 :=
    (sum_eq_zero_iff_of_nonneg (fun i _ => by omega)).mp
      (show ∑ i, ((w.view i).pre + (w.view i).skips.length : ℤ) = 0 by omega) i (mem_univ i)
  have hpost : (if Hold.free.node ≠ some i ∧ (w.view i).job.status = .postrun then (1 : ℤ) else 0) =
      0 := (sum_eq_zero_iff_of_nonneg (fun i _ => zero_le_ite _)).mp
    (show ∑ i, (if Hold.free.node ≠ some i ∧ (w.view i).job.status = .postrun then (1 : ℤ) else 0) =
      0 by omega) i (mem_univ i)
  cases hst : (w.view i).job.status with
  | error => exact .inl rfl
  | futile => exact .inr rfl
  | notReady => exact absurd hst (hA.known i nofun)
  | ready =>
    have hplace := hn.started (by simp) hst hwait
    simp [view, hready, hd] at hplace
  | prerun =>
    rcases hn.prerun hst with hplace | hplace
    · omega
    · have hlen := List.length_pos_iff.mpr hplace
      omega
  | submitted => exact absurd (hcl i) (hn.submitted hst)
  | postrun => simp [hst, Hold.node] at hpost
  | done => exact absurd (hc.symm.trans (hn.done (by simp) hst)) false_ne_true

/-- **An acyclic DAG is never reported as stuck on a cycle**, if no step leaves a node behind. -/
theorem doneCycle_eq_false {ls : List (Label n)} {w₀ : World n} (hD : D.Acyclic)
    (h₀ : start D cfg = some w₀) (hq : OnlyQuirks D cfg (fun q => q ≠ .stuck ∧ q ≠ .onHold) ls w₀)
    (hs : steps D cfg ls w₀ = some w) : doneCycle w.dag = false ∧ (finishedRunning w.dag = true →
      doneSuccess w.dag = true ∨ doneFailed w.dag = true) := by
  have hI0 := Inv.start h₀
  have hmoves := moves_of_steps hI0 (by simp) hq hs
  have hI := hI0.moves hmoves
  have hA : Accounted D w .free := hmoves.induct
    (fun _ _ _ _ hI hA hm => hA.move hD (by simp) (by simp) hI hm) hI0 (Accounted.start h₀)
  have hrun : run D cfg ls = some w := by simp [run, h₀, hs]
  have hd := run_deferred hrun
  have hverdict : finishedRunning w.dag = true → doneSuccess w.dag = true ∨
      doneFailed w.dag = true := by
    intro hfin
    by_cases hall : ∃ i, (w.dag.jobs i).countedAsDone = false
    · right
      obtain ⟨i, hi, hp⟩ := exists_first hD hall
      have hcl := hI.clusters_nil hfin
      have hpos : 0 < w.dag.numNodesFailed := by
        rcases hI.failed_of_finished hA hd hfin hi fun p hmem =>
          eq_true_of_not_eq_false (hp p hmem) with herror | hfutile
        · exact (hA.error i Hold.free_node herror).resolve_left fun hne => hne (hcl i)
        · refine (hA.futile i Hold.free_node hfutile).resolve_right ?_
          rintro (⟨j, -, hne, -⟩ | ⟨j, m, heq, -⟩)
          · exact hne (hcl j)
          · cases heq
      simp [doneFailed, hfin, hpos]
    · left
      push Not at hall
      have hdone : w.dag.numNodesDone = n := by
        rw [hI.numDone]
        have hone : ∀ i, (if (w.view i).job.countedAsDone then (1 : ℤ) else 0) = 1 := fun i =>
          if_pos (eq_true_of_not_eq_false (hall i))
        simp [hone]
      simp [doneSuccess, hfin, hdone]
  refine ⟨?_, hverdict⟩
  by_contra hcycle
  simp only [doneCycle, not_eq_false, and_eq_true, not_eq_true', decide_eq_true_eq] at hcycle
  obtain ⟨⟨hfin, hsuccess⟩, hzero⟩ := hcycle
  rcases hverdict hfin with hdone | hfailed
  · exact absurd (hsuccess.symm.trans hdone) false_ne_true
  · simp [doneFailed, hzero] at hfailed

theorem chain_acyclic : chain.Acyclic := by
  have hchild : ∀ i j, j ∈ (chain.node i).children → i < j := by decide
  have hlt : ∀ i j, Descendant chain i j → i < j := by
    intro i j hij
    induction hij with
    | single hc => exact hchild _ _ hc
    | tail _ hc ih => exact ih.trans (hchild _ _ hc)
  exact fun i hi => lt_irrefl i (hlt i i hi)

/-- The first node of the chain is submitted and fails. -/
def chainFailed (status : ℤ) : List (Label 2) :=
  chainRun.dropLast ++ [.event (.terminated ⟨5, 0, 0⟩ (.exited status))]

theorem doneCycle_eq_false_chain : ∃ w₀ w : World 2, start chain {} = some w₀ ∧
    steps chain {} (chainFailed 1) w₀ = some w ∧ finishedRunning w.dag = true ∧
      doneCycle w.dag = false ∧ (doneSuccess w.dag = true ∨ doneFailed w.dag = true) := by
  have hstart : start chain {} = some _ := rfl
  refine ⟨_, _, hstart, rfl, by decide, ?_⟩
  have hverdict := doneCycle_eq_false chain_acyclic hstart ?_
    (rfl : steps chain {} (chainFailed 1) _ = some _)
  · exact ⟨hverdict.1, hverdict.2 (by decide)⟩
  refine ⟨nofun, fun w hw => ?_⟩
  cases hw
  refine ⟨nofun, fun w hw => ?_⟩
  cases hw
  refine ⟨fun q hq => ?_, fun w hw => trivial⟩
  cases hq

def single : DagFile 1 where
  node _ := { children := [] }
  children_nodup := by decide

/-- The first of two jobs fails, and the second one succeeds. -/
def failedFirst : List (Label 1) :=
  [.submit [.accepted 5 2], .event (.submit ⟨5, 0, 0⟩ 0), .event (.submit ⟨5, 1, 0⟩ 0),
    .event (.terminated ⟨5, 0, 0⟩ (.exited 1)), .event (.terminated ⟨5, 1, 0⟩ (.exited 0))]

/-- A node with a failed job is neither done nor counted as failed: DAGMan reports a cycle. -/
theorem doneCycle_failedFirst : ∃ w : World 1, run single {} failedFirst = some w ∧
    finishedRunning w.dag = true ∧ doneSuccess w.dag = false ∧ doneFailed w.dag = false ∧
      doneCycle w.dag = true ∧ (w.dag.jobs 0).status = .error :=
  ⟨_, rfl, by decide, by decide, by decide, by decide, by decide⟩

end Condor.Dagman
