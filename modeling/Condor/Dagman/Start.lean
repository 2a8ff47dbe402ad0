import Condor.Dagman.Preserved

/-!
# The start of DAGMan

* **`Inv.start`**.
-/

namespace Condor.Dagman

open List Option World

variable {n : ℕ} {D : DagFile n} {cfg : Config} {w : World n} {i j : Fin n} {s s' : State n}

theorem waits_initialJob : Waits (fun _ => false) (D.parents i) (initialJob D i) := by
  have hJ : initialJob D i = { initialJob D i with
      wait := (D.parents i).map fun p => (p, true)
      numWaiting := (D.parents i).length
      parentsDone := (D.parents i).isEmpty } := rfl
  rw [hJ]
  generalize D.parents i = ps
  match ps with
  | [] => trivial
  | [q] => rfl
  | q :: q' :: ps =>
    refine ⟨rfl, by simp, ?_⟩
    simp only [length_cons]
    exact (decide_eq_false (by omega)).symm

/-- The nodes as the parser leaves them: none is counted, and none is started. -/
theorem Inv.initial :
    Inv D cfg ⟨[], finRange n, finRange n⟩ { dag := { jobs := initialJob D } } .free where
  node := fun i _ => by
    refine NodeOk.of_nowhere rfl rfl (fun _ => ?_) (fun h => by cases h) (fun hi => ?_) ?_ ?_
      (fun hi => ?_)
      (fun _ => .inl rfl)
    · simp only [view, initialJob]
      by_cases hd : (D.node i).preDone
      · exact .inr (.inr ⟨by simp [hd], hd⟩)
      · exact .inl (by simp [hd])
    · exact absurd (mem_finRange i) hi
    · simp only [view, initialJob]
      split <;> simp
    · simp only [view, initialJob]
      split <;> simp
    · exact absurd (mem_finRange i) hi
  held := fun _ _ h => by cases h
  waits := fun i => by simpa [initialJob] using waits_initialJob
  numSubmitted := by simp [view]
  current := fun k => by simp [view]
  preRun := by simp [view]
  postRun := by
    refine le_of_eq (Finset.sum_eq_zero fun i _ => if_neg fun hcon => ?_)
    have hs := hcon.2
    simp only [view, initialJob] at hs
    split at hs <;> cases hs
  numDone := by simp [view, initialJob]
  hash := fun _ hk => absurd rfl hk
  info := fun _ hid => absurd rfl hid
  skips := fun _ h => by cases h
  maxJobs := by
    right
    exact Int.natCast_nonneg _
  categoryMax := fun _ m _ => Int.natCast_nonneg m

/-- The node may have been told of parents; all else is the same. -/
structure Told (J' J : Job n) : Prop where
  status : J'.status = J.status
  countedAsDone : J'.countedAsDone = J.countedAsDone
  retries : J'.retries = J.retries
  retryMax : J'.retryMax = J.retryMax
  retval : J'.retval = J.retval
  queued : J'.queuedNodeJobProcs = J.queuedNodeJobProcs
  numSubmitted : J'.numSubmittedProcs = J.numSubmittedProcs
  condorID : J'.condorID = J.condorID

theorem Told.refl (J : Job n) : Told J J := ⟨rfl, rfl, rfl, rfl, rfl, rfl, rfl, rfl⟩

theorem Told.trans {J'' J' J : Job n} (h' : Told J'' J') (h : Told J' J) : Told J'' J where
  status := h'.status.trans h.status
  countedAsDone := h'.countedAsDone.trans h.countedAsDone
  retries := h'.retries.trans h.retries
  retryMax := h'.retryMax.trans h.retryMax
  retval := h'.retval.trans h.retval
  queued := h'.queued.trans h.queued
  numSubmitted := h'.numSubmitted.trans h.numSubmitted
  condorID := h'.condorID.trans h.condorID

theorem told_parentComplete (D : DagFile n) (i p : Fin n) (J : Job n) :
    Told (parentComplete D i p J) J := by
  rw [parentComplete_eq]
  exact ⟨rfl, rfl, rfl, rfl, rfl, rfl, rfl, rfl⟩

theorem notifyChildren_told {cs : List (Fin n)} (hs : notifyChildren D cfg j false cs s = some s') :
    ∃ jobs, s' = { s with jobs := jobs } ∧ ∀ i, Told (jobs i) (s.jobs i) := by
  induction cs generalizing s with
  | nil =>
    cases hs
    exact ⟨_, rfl, fun i => .refl _⟩
  | cons c cs ih =>
    obtain ⟨jobs, rfl, hjobs⟩ := ih hs
    refine ⟨jobs, rfl, fun i => (hjobs i).trans ?_⟩
    by_cases hi : i = c
    · subst hi
      rw [modify_self]
      exact told_parentComplete D i j (s.jobs i)
    · rw [modify_of_ne hi]
      exact .refl _

variable {js : List (Fin n)}

theorem Inv.terminateDone (hnd : js.Nodup) (hI : Inv D cfg ⟨[], js, finRange n⟩ w .free)
    (hstatus : ∀ i, (w.dag.jobs i).status = (initialJob D i).status)
    (hcount : ∀ i ∈ js, (w.dag.jobs i).countedAsDone = false) (hplaces : ∀ i, (w.view i).places = 0)
    (hs : terminateDone D cfg js w.dag = some s) :
    Inv D cfg ⟨[], [], finRange n⟩ (w.withDag s) .free ∧
      (∀ i, (s.jobs i).status = (initialJob D i).status) ∧
      ∀ i, ((w.withDag s).view i).places = 0 := by
  induction js generalizing w with
  | nil =>
    cases hs
    exact ⟨hI, hstatus, hplaces⟩
  | cons j js ih =>
    obtain ⟨hj, hnd⟩ := nodup_cons.mp hnd
    have hcount' : ∀ i ∈ js, (w.dag.jobs i).countedAsDone = false := fun i hi =>
      hcount i (mem_cons_of_mem j hi)
    have hcountj := hcount j mem_cons_self
    have hunmarked : ∀ i, i ≠ j → i ∉ js → i ∉ j :: js := fun i hi hjs => by simp [hi, hjs]
    simp only [Condor.Dagman.terminateDone] at hs
    split at hs
    · rename_i hdone
      obtain ⟨s1, h1, hs⟩ := bind_eq_some_iff.mp hs
      have hpre : (D.node j).preDone = true := by
        by_contra hno
        rw [hstatus j] at hdone
        simp [initialJob, hno] at hdone
      have hqueued : (w.dag.jobs j).queuedNodeJobProcs = 0 := by
        obtain ⟨-, -, -, -, -, hclusters⟩ := View.nowhere (hplaces j)
        exact (hI.node j nofun).queued.trans (by simp [hclusters])
      have hI1 := hI.terminateJob (.inr rfl) hunmarked (hplaces j) hcountj (.inr hpre) hqueued
        (.inr fun i => mem_finRange i) h1
      obtain ⟨jobs, hs1, hjobs⟩ := notifyChildren_told (terminateJob_eq hcountj h1).2
      have hjobs' : s1.jobs = jobs := by rw [hs1]
      refine ih (w := w.withDag s1) hnd hI1 (fun i => ?_) (fun i hi => ?_) (fun i => ?_) hs
      · rw [withDag_dag, hjobs', (hjobs i).status]
        by_cases hij : i = j
        · subst hij
          simp only [modify_self]
          exact hdone.symm.trans (hstatus i)
        · simpa [State.modify, hij] using hstatus i
      · have hij : i ≠ j := fun heq => hj (heq ▸ hi)
        rw [withDag_dag, hjobs', (hjobs i).countedAsDone]
        simpa [State.modify, hij] using hcount' i hi
      · rw [hs1]
        exact hplaces i
    · rename_i hdone
      refine ih hnd ?_ hstatus hcount' hplaces hs
      exact { hI with
        node := fun i hi => { hI.node i hi with
          done := fun hu hd => by
            by_cases hij : i = j
            · subst hij
              exact absurd hd hdone
            · exact (hI.node i hi).done (hunmarked i hij hu) hd } }

theorem Inv.hold (hI : Inv D cfg ⟨[], [], j :: js⟩ w .free)
    (hready : (w.dag.jobs j).status = .ready) (hwait : isWaiting D j (w.dag.jobs j) = false)
    (hplaces : (w.view j).places = 0) : Inv D cfg ⟨[], [], js⟩ w (.held j .fine) := by
  have hn := hI.node j nofun
  obtain ⟨-, -, -, hskips, -, hclusters⟩ := View.nowhere hplaces
  have hcount : (w.view j).job.countedAsDone = false := by
    by_contra hcon
    obtain ⟨-, hdone, -⟩ := hn.counted (by simpa using hcon)
    have hready' : (w.view j).job.status = .ready := hready
    simp [hready'] at hdone
  exact { hI with
    node := fun i hi => { hI.node i nofun with
      started := fun hjs => (hI.node i nofun).started (by
        have hne : i ≠ j := fun heq => hi (congrArg some heq.symm)
        simpa [hne] using hjs) }
    held := fun i m hi => by
      cases hi
      exact {
        places := hplaces
        waiting := hwait
        counted := hcount
        queued := hn.queued.trans (by simp [hclusters])
        identified := fun _ => hn.identified hcount hskips }
    postRun := by
      refine le_trans (Finset.sum_le_sum fun i _ => ?_) hI.postRun
      by_cases hpost : (w.view i).job.status = .postrun
      · rw [if_pos (⟨nofun, hpost⟩ : Hold.free.node ≠ some i ∧ _)]
        split <;> simp
      · simp [hpost] }

theorem Inv.startReady (hnd : js.Nodup)
    (hI : Inv D cfg ⟨[], [], js⟩ w .free) (hplaces : ∀ i ∈ js, (w.view i).places = 0)
    (hs : startReady D cfg js w.dag = some s) : Inv D cfg {} (w.withDag s) .free := by
  induction js generalizing w with
  | nil =>
    cases hs
    exact hI
  | cons j js ih =>
    obtain ⟨hj, hnd⟩ := nodup_cons.mp hnd
    have hplaces' : ∀ i ∈ js, (w.view i).places = 0 := fun i hi =>
      hplaces i (mem_cons_of_mem j hi)
    simp only [Condor.Dagman.startReady] at hs
    split at hs
    · obtain ⟨s1, h1, hs⟩ := bind_eq_some_iff.mp hs
      obtain ⟨hready, hwait, -⟩ := startNode_cases h1
      have hheld := hI.hold hready hwait (hplaces j mem_cons_self)
      refine ih (w := w.withDag s1) hnd (hheld.startNode nofun h1) (fun i hi => ?_) hs
      rw [startNode_view h1 fun heq => hj (heq ▸ hi)]
      exact hplaces' i hi
    · rename_i hsub
      refine ih hnd ?_ hplaces' hs
      exact { hI with
        node := fun i hi => { hI.node i hi with
          started := fun hjs hready hwait => by
            by_cases hij : i = j
            · subst hij
              exact absurd (by simpa [canSubmit] using ⟨hready, hwait⟩) hsub
            · exact (hI.node i hi).started (by simp [hij, hjs]) hready hwait } }

/-- **DAGMan is started with the invariant.** -/
theorem Inv.start (hs : World.start D cfg = some w) : Inv D cfg {} w .free := by
  simp only [World.start, map_eq_some_iff] at hs
  obtain ⟨s', hs, rfl⟩ := hs
  obtain ⟨s, hdone, hs⟩ := bind_eq_some_iff.mp hs
  obtain ⟨hI, -, hplaces⟩ := (Inv.initial).terminateDone (nodup_finRange n)
    (fun _ => rfl) (fun _ _ => rfl) (fun _ => rfl) hdone
  exact hI.startReady (nodup_finRange n) (fun i _ => hplaces i) hs

/-! ## The first state -/

/-- The counting of the nodes that are marked `DONE` changes nothing but nodes and their number. -/
theorem terminateDone_eq (hs : Condor.Dagman.terminateDone D cfg js s = some s') :
    ∃ jobs k, s' = { s with jobs := jobs, numNodesDone := k } := by
  induction js generalizing s with
  | nil =>
    cases hs
    exact ⟨_, _, rfl⟩
  | cons j js ih =>
    simp only [Condor.Dagman.terminateDone] at hs
    split at hs
    · obtain ⟨s1, h1, hs⟩ := bind_eq_some_iff.mp hs
      obtain ⟨jobs, k, rfl⟩ := ih hs
      simp only [Condor.Dagman.terminateJob] at h1
      split_ifs at h1
      · cases h1
        exact ⟨_, _, rfl⟩
      · obtain ⟨jobs1, rfl, -⟩ := notifyChildren_told h1
        exact ⟨_, _, rfl⟩
    · exact ih hs

/-- **The first state of a run.** -/
structure Fresh (D : DagFile n) (w : World n) : Prop where
  preDone : ∀ i, (D.node i).preDone = true → (w.dag.jobs i).status = .done
  other : ∀ i, (D.node i).preDone = false →
    (w.dag.jobs i).status = .ready ∨ (w.dag.jobs i).status = .prerun
  numNodesFailed : w.dag.numNodesFailed = 0
  numNodesFutile : w.dag.numNodesFutile = 0
  deferredJobs : w.dag.deferredJobs = []
  clusters : ∀ i, w.clusters i = []
  log : w.log = []

theorem Fresh.status_ne (hf : Fresh D w) (i : Fin n) : (w.dag.jobs i).status ≠ .error ∧
    (w.dag.jobs i).status ≠ .futile ∧ (w.dag.jobs i).status ≠ .notReady := by
  cases hpre : (D.node i).preDone with
  | true => simp [hf.preDone i hpre]
  | false => rcases hf.other i hpre with hst | hst <;> simp [hst]

theorem Fresh.startReady (hf : Fresh D w)
    (hs : Condor.Dagman.startReady D cfg js w.dag = some s) : Fresh D (w.withDag s) := by
  induction js generalizing w with
  | nil =>
    cases hs
    exact hf
  | cons j js ih =>
    simp only [Condor.Dagman.startReady] at hs
    split at hs
    · obtain ⟨s1, h1, hs⟩ := bind_eq_some_iff.mp hs
      refine ih (w := w.withDag s1) ?_ hs
      obtain ⟨hready, -, rfl | ⟨g, p, rfl⟩⟩ := startNode_cases h1
      · refine { hf with preDone := fun i hi => ?_, other := fun i hi => ?_ }
        all_goals
          by_cases hij : i = j
          · subst hij
            first
              | exact absurd (hready.symm.trans (hf.preDone i hi)) nofun
              | exact .inr (by simp [State.setStatus])
          · simp only [withDag_dag, State.setStatus, modify_of_ne hij]
            first
              | exact hf.preDone i hi
              | exact hf.other i hi
      · exact { hf with }
    · exact ih hf hs

theorem Fresh.start (hs : World.start D cfg = some w) : Fresh D w := by
  simp only [World.start, map_eq_some_iff] at hs
  obtain ⟨s', hs, rfl⟩ := hs
  obtain ⟨s, hdone, hs⟩ := bind_eq_some_iff.mp hs
  obtain ⟨-, hstatus, -⟩ := (Inv.initial).terminateDone (nodup_finRange n)
    (fun _ => rfl) (fun _ _ => rfl) (fun _ => rfl) hdone
  obtain ⟨jobs, k, rfl⟩ := terminateDone_eq hdone
  refine Fresh.startReady (w := { dag := _ }) ⟨fun i hi => ?_, fun i hi => .inl ?_, rfl, rfl,
    rfl, fun _ => rfl, rfl⟩ hs <;>
  exact (hstatus i).trans (by simp [initialJob, hi])

end Condor.Dagman
