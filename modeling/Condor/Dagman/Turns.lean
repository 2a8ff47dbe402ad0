import Condor.Dagman.Steps

/-!
# What a move does to a node

For the results on failed and futile nodes a move matters only in how a node comes to be in one of
these states.

* **`Move.frame`**: the counters, and the nodes that are counted as done;
* **`Move.turn`**.
-/

namespace Condor.Dagman

open List Option State World
variable {n : ℕ} {D : DagFile n} {cfg : Config} {ok : Quirk → Prop} {w w' : World n} {h h' : Hold n}
  {i j : Fin n} {s s' : State n}

attribute [local simp] State.modify State.setStatus World.setClusters accept

/-! ## Counters -/

structure SameCounts (s' s : State n) : Prop where
  failed : s'.numNodesFailed = s.numNodesFailed
  futile : s'.numNodesFutile = s.numNodesFutile
  deferred : s'.deferredJobs = s.deferredJobs

theorem startNode_counts {isRetry : Bool}
    (hs : startNode D cfg s j isRetry = some s') : SameCounts s' s := by
  obtain ⟨-, -, rfl | ⟨g, p, rfl⟩⟩ := startNode_cases hs <;> exact ⟨rfl, rfl, rfl⟩

theorem counted_update {jobs jobs' : Fin n → Job n} {J : Job n}
    (hjobs : jobs' = Function.update jobs j J) (hJ : J.countedAsDone = (jobs j).countedAsDone)
    (i : Fin n) : (jobs' i).countedAsDone = (jobs i).countedAsDone := by
  subst hjobs
  by_cases hi : i = j
  · subst hi
    rw [Function.update_self, hJ]
  · rw [Function.update_of_ne hi]

variable {cs : List (Fin n)} {start : Bool}

theorem notifyChildren_counts (hs : notifyChildren D cfg j start cs s = some s') :
    SameCounts s' s ∧ ∀ i, (s'.jobs i).countedAsDone = (s.jobs i).countedAsDone := by
  induction cs generalizing s with
  | nil =>
    cases hs
    exact ⟨⟨rfl, rfl, rfl⟩, fun _ => rfl⟩
  | cons c cs ih =>
    have htold : ∀ i, ((s.modify c (parentComplete D c j)).jobs i).countedAsDone =
        (s.jobs i).countedAsDone :=
      counted_update rfl (told_parentComplete D c j (s.jobs c)).countedAsDone
    simp only [notifyChildren] at hs
    split at hs
    · obtain ⟨s1, h1, hs⟩ := bind_eq_some_iff.mp hs
      have hstart := startNode_counts h1
      obtain ⟨hrest, hcounted⟩ := ih hs
      exact ⟨⟨hrest.failed.trans hstart.failed, hrest.futile.trans hstart.futile,
        hrest.deferred.trans hstart.deferred⟩,
        fun i => (hcounted i).trans ((startNode_counted h1).trans (htold i))⟩
    · obtain ⟨⟨hfailed, hfutile, hdeferred⟩, hcounted⟩ := ih hs
      exact ⟨⟨hfailed, hfutile, hdeferred⟩, fun i => (hcounted i).trans (htold i)⟩

theorem submitAccepted_frame {cluster : ℤ} {procs : ℕ}
    (hs : submitAccepted D w j cluster procs = some w') :
    SameCounts w'.dag w.dag ∧ (∀ i, (w'.dag.jobs i).countedAsDone = (w.dag.jobs i).countedAsDone) ∧
      (w'.view j).job.status = .submitted ∧ ∀ i, i ≠ j → w'.view i = w.view i := by
  obtain ⟨s1, h1, hs⟩ := bind_eq_some_iff.mp hs
  obtain ⟨hash, rfl, -⟩ := submitNodeJob_eq h1
  split_ifs at hs
  all_goals
    obtain ⟨s2, h2, hs⟩ := bind_eq_some_iff.mp hs
    cases hs
    obtain ⟨cur, rfl, -⟩ := processSuccessfulSubmit_eq h2
    refine ⟨⟨rfl, rfl, rfl⟩, fun i => ?_, by simp [view], fun i hi => ?_⟩
    · by_cases hi : i = j
      · simp [hi]
      · simp [hi]
    · simp [view, hi]

theorem countFutile_counted (hs : countFutile D s j = some s') (i : Fin n) :
    (s'.jobs i).countedAsDone = (s.jobs i).countedAsDone := by
  obtain ⟨jobs, k, rfl, hjobs⟩ := countFutile_eq hs
  rcases hjobs i with hsame | ⟨hnew, -⟩
  · exact congrArg Job.countedAsDone hsame
  · exact (congrArg Job.countedAsDone hnew).trans rfl

/-- The counter of failed nodes only grows, nodes are deferred in submit cycles only, nodes stay
done, and the counter of futile nodes changes with the marks. -/
structure Frame (D : DagFile n) (ok : Quirk → Prop) (w : World n) (h : Hold n) (w' : World n)
    (h' : Hold n) : Prop where
  failed : w.dag.numNodesFailed ≤ w'.dag.numNodesFailed
  deferred : w.dag.deferredJobs = [] → w'.dag.deferredJobs = [] ∨ ok .deferred
  counted : ∀ i, (w.dag.jobs i).countedAsDone = true → (w'.dag.jobs i).countedAsDone = true
  futile : (∃ j s, w' = w.withDag s ∧ countFutile D w.dag j = some s ∧ h'.node = h.node ∧
    (h.node = some j ∨ h = .free)) ∨ w'.dag.numNodesFutile = w.dag.numNodesFutile

theorem Frame.of_same (hs : SameCounts w'.dag w.dag)
    (hc : ∀ i, (w'.dag.jobs i).countedAsDone = (w.dag.jobs i).countedAsDone) :
    Frame D ok w h w' h' :=
  ⟨hs.failed.ge, fun hd => .inl (hs.deferred.trans hd), fun i hi => (hc i).trans hi, .inr hs.futile⟩

theorem Frame.of_countFutile (hs : countFutile D w.dag j = some s) (hh' : h'.node = h.node)
    (hh : h.node = some j ∨ h = .free) : Frame D ok w h (w.withDag s) h' := by
  have hcounted := countFutile_counted hs
  have hfutile := hs
  obtain ⟨jobs, k, rfl, -⟩ := countFutile_eq hs
  exact ⟨le_rfl, .inl, fun i hi => (hcounted i).trans hi, .inl ⟨j, _, rfl, hfutile, hh', hh⟩⟩

theorem Move.frame (hm : Move D cfg ok w h w' h') : Frame D ok w h w' h' := by
  cases hm with
  | log | takeReady | takePre | takePost | dropPost | enqueue | postExit | stuck =>
    exact .of_same ⟨rfl, rfl, rfl⟩ fun _ => rfl
  | queue q ds g p _ hd => exact ⟨le_rfl, fun _ => hd, fun _ hc => hc, .inr rfl⟩
  | fail => exact ⟨Int.le_add_one le_rfl, .inl, fun _ hc => hc, .inr rfl⟩
  | submitEvent | prerun | post | skip => exact .of_same ⟨rfl, rfl, rfl⟩ (counted_update rfl rfl)
  | touch j m f hf | fault j c f _ _ hf =>
    exact .of_same ⟨rfl, rfl, rfl⟩ (counted_update rfl hf.countedAsDone)
  | takeSkip id j s hj hs =>
    obtain ⟨-, rfl, -⟩ := insertEventID_eq hs
    exact .of_same ⟨rfl, rfl, rfl⟩ (counted_update rfl rfl)
  | endLast j c id info s _ _ _ hs | endMore j c id info s _ _ _ hs =>
    obtain ⟨cur, δ, rfl, -⟩ := decrementProcCount_eq hs
    exact .of_same ⟨rfl, rfl, rfl⟩ (counted_update rfl rfl)
  | futile j m s _ hs => exact .of_countFutile hs rfl (.inl rfl)
  | early j s _ _ _ hs => exact .of_countFutile hs rfl (.inr rfl)
  | done j m s _ hs =>
    simp only [terminateJob] at hs
    split_ifs at hs
    · cases hs
      exact .of_same ⟨rfl, rfl, rfl⟩ (counted_update rfl rfl)
    · obtain ⟨hcounts, hcounted⟩ := notifyChildren_counts hs
      refine ⟨hcounts.failed.ge, fun hd => .inl (hcounts.deferred.trans hd), fun i hc => ?_,
        .inr hcounts.futile⟩
      refine (hcounted i).trans ?_
      by_cases hi : i = j
      · subst hi
        simp
      · simpa [hi] using hc
  | forget j s hs =>
    obtain ⟨-, rfl, -⟩ := submitNodeJob_eq hs
    exact .of_same ⟨rfl, rfl, rfl⟩ (counted_update rfl rfl)
  | accept j cluster procs _ hs _ _ =>
    obtain ⟨hcounts, hcounted, -⟩ := submitAccepted_frame hs
    exact .of_same hcounts hcounted

/-! ## Nodes -/

/-- The two views of a node differ in nothing that matters for failed and futile nodes. -/
structure Alike (v' v : View n) : Prop where
  status : v'.job.status = v.job.status
  counted : v'.job.countedAsDone = v.job.countedAsDone
  places : v'.places ≤ v.places
  clusters : v'.clusters = [] ↔ v.clusters = []
  pending : (∀ c ∈ v.clusters, c.pending = []) → ∀ c ∈ v'.clusters, c.pending = []
  again : v.job.status = .error → v'.job.retries = v.job.retries ∧
    v'.job.retryMax = v.job.retryMax ∧ v'.job.retval = v.job.retval

theorem Alike.refl (v : View n) : Alike v v :=
  ⟨rfl, rfl, le_rfl, Iff.rfl, id, fun _ => ⟨rfl, rfl, rfl⟩⟩

theorem Alike.trans {v'' v' v : View n} (h' : Alike v'' v') (h : Alike v' v) : Alike v'' v where
  status := h'.status.trans h.status
  counted := h'.counted.trans h.counted
  places := h'.places.trans h.places
  clusters := h'.clusters.trans h.clusters
  pending := fun hp => h'.pending (h.pending hp)
  again := fun hs => by
    obtain ⟨h1, h2, h3⟩ := h.again hs
    obtain ⟨h1', h2', h3'⟩ := h'.again (h.status.trans hs)
    exact ⟨h1'.trans h1, h2'.trans h2, h3'.trans h3⟩

theorem Alike.of_eq {v' v : View n} (h : v' = v) : Alike v' v := h ▸ .refl v'

/-- The node `j` makes its descendants futile: it is in hand, or it has jobs in the queue. -/
def Spreads (D : DagFile n) (ok : Quirk → Prop) (w : World n) (h h' : Hold n) (j : Fin n) : Prop :=
  (∃ m, h = .held j m ∧ h' = .held j .marked) ∨ h = .free ∧ h' = .free ∧ w.clusters j ≠ [] ∧
    isDoomed D j (w.dag.jobs j) = true ∧ (ok .early ∨ (D.node j).children = [])

/-- **How the node `i`, which is not in hand after a move, has come to its state.** -/
inductive Turn (D : DagFile n) (ok : Quirk → Prop) (w : World n) (h : Hold n) (w' : World n)
    (h' : Hold n) (i : Fin n) : Prop
  /-- Nothing has changed. -/
  | same (hh : h.node ≠ some i) (ha : Alike (w'.view i) (w.view i))
  /-- The node is neither failed nor futile, and it was not so before. -/
  | other (h₀ : h.node = some i ∨ (w.view i).job.status ≠ .error ∧ (w.view i).job.status ≠ .futile)
      (he : (w'.view i).job.status ≠ .error) (hf : (w'.view i).job.status ≠ .futile)
      (hn : (w'.view i).job.status ≠ .notReady)
  /-- A job has failed, and others are still running. -/
  | fault (hh : h.node ≠ some i) (h₀ : (w.view i).job.status ≠ .error)
      (hc0 : (w.view i).clusters ≠ []) (hs : (w'.view i).job.status = .error)
      (hc : (w'.view i).clusters ≠ []) (hp : ∀ c ∈ (w'.view i).clusters, c.pending = [])
  /-- The node has become futile for another one. -/
  | futile (j : Fin n) (s : State n) (hh : h.node ≠ some i) (hj : Descendant D j i)
      (hw' : w' = w.withDag s) (hs : countFutile D w.dag j = some s)
      (hout : Spreads D ok w h h' j)
      (hv : w'.view i = { w.view i with job := { (w.view i).job with status := .futile } })
      (hpre : (D.node i).preDone = false) (hsub : canSubmit D i (w.dag.jobs i) = false)
  /-- The node has been in hand and has failed. -/
  | failed (m : Mark) (hm : h = .held i m)
      (hs : (w.dag.jobs i).status = .error ∨ (w.dag.jobs i).status = .futile ∧ Descendant D i i)
      (hv : w'.view i = w.view i)
      (hq : ok .stuck ∨ w'.dag.numNodesFailed = w.dag.numNodesFailed + 1 ∧
        (m = .marked ∨ m = .fine ∧ (ok .unlessExit ∨ (D.node i).children = [])))

/-- What children see of a parent that is done: they are told, and started. -/
theorem notifyChildren_alike (hs : notifyChildren D cfg j start cs w.dag = some s) :
    Alike ((w.withDag s).view i) (w.view i) ∨ (w.view i).job.status = .ready ∧
      (((w.withDag s).view i).job.status = .ready ∨ ((w.withDag s).view i).job.status =
      .prerun) := by
  induction cs generalizing w with
  | nil =>
    cases hs
    exact .inl (.refl _)
  | cons c cs ih =>
    have htold : Alike ((w.withDag (w.dag.modify c (parentComplete D c j))).view i) (w.view i) := by
      by_cases hi : i = c
      · subst hi
        have htold := told_parentComplete D i j (w.dag.jobs i)
        refine ⟨?_, ?_, le_rfl, Iff.rfl, id, fun _ => ?_⟩
        · simpa [view] using htold.status
        · simpa [view] using htold.countedAsDone
        · simpa [view] using ⟨htold.retries, htold.retryMax, htold.retval⟩
      · exact .of_eq (by simp [view, hi])
    simp only [notifyChildren] at hs
    split at hs
    · obtain ⟨s1, h1, hs⟩ := bind_eq_some_iff.mp hs
      have hrest := ih (w := w.withDag s1) hs
      have hstart : i ≠ c → Alike ((w.withDag s1).view i) (w.view i) := fun hi =>
        (Alike.of_eq (startNode_view (w := w.withDag (w.dag.modify c (parentComplete D c j))) h1
          hi)).trans htold
      by_cases hi : i = c
      · subst hi
        obtain ⟨hready, -, hcases⟩ := startNode_cases h1
        have hready0 : (w.view i).job.status = .ready := htold.status.symm.trans hready
        have hstatus : ((w.withDag s1).view i).job.status = .ready ∨
            ((w.withDag s1).view i).job.status = .prerun := by
          rcases hcases with rfl | ⟨g, p, rfl⟩
          · right
            simp [view]
          · exact .inl hready
        right
        refine ⟨hready0, ?_⟩
        rcases hrest with halike | ⟨-, hnew⟩
        · have hsame : ((w.withDag s).view i).job.status = ((w.withDag s1).view i).job.status :=
            halike.status
          rwa [hsame]
        · exact hnew
      · rcases hrest with halike | ⟨hready, hnew⟩
        · exact .inl (halike.trans (hstart hi))
        · exact .inr ⟨(hstart hi).status.symm.trans hready, hnew⟩
    · rcases ih (w := w.withDag (w.dag.modify c (parentComplete D c j))) hs with
        halike | ⟨hready, hnew⟩
      · exact .inl (halike.trans htold)
      · exact .inr ⟨htold.status.symm.trans hready, hnew⟩

theorem turn_countFutile (hs : countFutile D w.dag j = some s) (hout : Spreads D ok w h h' j)
    (hh : h.node ≠ some i) : Turn D ok w h (w.withDag s) h' i := by
  obtain ⟨jobs, k, hs', hjobs⟩ := countFutile_eq hs
  rcases hjobs i with hsame | ⟨hnew, hdesc, -, hpre, hsub⟩
  · exact .same hh (.of_eq (by simp [view, hs', hsame]))
  · exact .futile j s hh hdesc rfl hs hout (by simp [view, hs', hnew]) hpre hsub

theorem node_held_ne {m : Mark} (hi : i ≠ j) : (Hold.held j m).node ≠ some i := by
  simpa [Hold.node] using Ne.symm hi

theorem ne_of_node_held {m : Mark} (hi : (Hold.held j m).node ≠ some i) : i ≠ j :=
  fun heq => hi (congrArg some heq.symm)

theorem Turn.active {x : Status} (h0 : h.node = some i ∨
    (w.view i).job.status ≠ .error ∧ (w.view i).job.status ≠ .futile)
      (hs : (w'.view i).job.status = x)
    (hx : x ≠ .error ∧ x ≠ .futile ∧ x ≠ .notReady) : Turn D ok w h w' h' i := by
  subst hs
  exact .other h0 hx.1 hx.2.1 hx.2.2

/-- **What a move does to a node that is not in hand after it.** -/
theorem Move.turn (hI : Inv D cfg {} w h) (hm : Move D cfg ok w h w' h') (hi' : h'.node ≠ some i) :
    Turn D ok w h w' h' i := by
  have hfree : (Hold.free : Hold n).node ≠ some i := nofun
  cases hm with
  | log => exact .same hi' (.refl _)
  | queue q ds g p hq _ =>
    have hcount := hq.count_eq i
    simp only [count_append] at hcount
    exact .same hfree (.of_eq (by simp [view, hcount]))
  | takeReady j hj | takePre j hj _ =>
    have hi := ne_of_node_held hi'
    exact .same hfree (.of_eq (by simp [view, count_erase_of_ne hi]))
  | takePost id j x info hj _ =>
    have hi := ne_of_node_held hi'
    exact .same hfree (.of_eq
      (by simp [view, filter_erase_of_ne (a := (id, j, x)) (fun e => e.2.1) hi]))
  | dropPost id j x info hj =>
    refine .same hfree ⟨rfl, rfl, ?_, Iff.rfl, fun hp => hp, fun _ => ⟨rfl, rfl, rfl⟩⟩
    have hlen : ((w.dag.posts.erase (id, j, x)).filter fun e => e.2.1 = i).length ≤
        (w.dag.posts.filter fun e => e.2.1 = i).length :=
      (erase_sublist.filter _).length_le
    simp only [View.places, view, withDag_dag, withDag_clusters]
    omega
  | takeSkip id j s hj hs =>
    have hi := ne_of_node_held hi'
    refine .same hfree (.of_eq ?_)
    obtain ⟨-, rfl, -⟩ := insertEventID_eq hs
    simp [view, hi, filter_erase_of_ne (a := (id, j)) Prod.snd hi]
  | endLast j c id info s hc _ _ hs =>
    have hi := ne_of_node_held hi'
    obtain ⟨cur, δ, rfl, -⟩ := decrementProcCount_eq hs
    exact .same hfree (.of_eq (by simp [view, hi]))
  | endMore j c id info s hc hend _ hs =>
    obtain ⟨cur, δ, rfl, -⟩ := decrementProcCount_eq hs
    refine .same hfree ?_
    by_cases hi : i = j
    · subst hi
      refine ⟨by simp [view], by simp [view], ?_, by simp [view, hc], fun _ => ?_,
        fun _ => by simp [view]⟩
      · simp [View.places, view, hc]
      · simpa [view] using pending_of_mayEnd hend
    · exact .of_eq (by simp [view, hi])
  | submitEvent j c id hc hp =>
    refine .same hfree ?_
    by_cases hi : i = j
    · subst hi
      refine ⟨by simp [view], by simp [view], ?_, by simp [view, hc],
        fun hnil => ?_, fun _ => by simp [view]⟩
      · simp [View.places, view, hc]
      · have hpending : c.pending = [] := hnil c (by simp [view, hc])
        simp [hpending] at hp
    · exact .of_eq (by simp [view, hi])
  | touch j m f hf =>
    have hi := ne_of_node_held hi'
    exact .same hi' (.of_eq (by simp [view, hi]))
  | fault j c f hc hp hf he hs =>
    by_cases hi : i = j
    · subst hi
      rcases hs with hs | hs
      · refine .same hfree ⟨?_, ?_, le_rfl, Iff.rfl, fun hnil => hnil, fun herr => absurd herr he⟩
        · simpa [view] using hs
        · simpa [view] using hf.countedAsDone
      · refine .fault hfree he (by simp [view, hc]) (by simpa [view] using hs)
          (by simp [view, hc]) ?_
        simpa [view, hc] using hp
    · exact .same hfree (.of_eq (by simp [view, hi]))
  | futile j m s _ hs => exact turn_countFutile hs (.inl ⟨m, rfl, rfl⟩) hi'
  | early j s hc hd hok hs => exact turn_countFutile hs (.inr ⟨rfl, rfl, hc, hd, hok⟩) hfree
  | enqueue j m g p hs _ =>
    by_cases hi : i = j
    · subst hi
      exact .active (.inl rfl) hs (by decide)
    · exact .same (node_held_ne hi) (.of_eq (by simp [view, Ne.symm hi]))
  | prerun j m _ =>
    by_cases hi : i = j
    · subst hi
      exact .active (x := .prerun) (.inl rfl) (by simp [view]) (by decide)
    · exact .same (node_held_ne hi) (.of_eq (by
        simp [view, hi, Ne.symm hi]))
  | post j =>
    by_cases hi : i = j
    · subst hi
      exact .active (x := .postrun) (.inl rfl)
        (by simp [view, runPostScript]) (by decide)
    · exact .same (node_held_ne hi) (.of_eq (by
        simp [view, runPostScript, hi, Ne.symm hi]))
  | postExit j x hj hs =>
    by_cases hi : i = j
    · subst hi
      exact .active (.inr (by simp [view, hs])) hs (by decide)
    · exact .same hfree (.of_eq (by simp [view, count_erase_of_ne hi, Ne.symm hi]))
  | skip j hs =>
    by_cases hi : i = j
    · subst hi
      exact .active (x := .prerun) (.inl rfl)
        (by simp [view, writePreSkipEvent, State.setCondorID, hs]) (by decide)
    · exact .same (node_held_ne hi) (.of_eq (by
        simp [view, writePreSkipEvent, State.setCondorID, hi, Ne.symm hi]))
  | fail j m hs hm =>
    by_cases hi : i = j
    · subst hi
      exact .failed m rfl hs rfl (.inr ⟨rfl, hm⟩)
    · exact .same (node_held_ne hi) (.refl _)
  | stuck j m _ hs hok =>
    by_cases hi : i = j
    · subst hi
      exact .failed m rfl (.inl hs) rfl (.inl hok)
    · exact .same (node_held_ne hi) (.refl _)
  | done j m s _ hs =>
    have hcount := (hI.held j m rfl).counted
    have hnotify := (terminateJob_eq hcount hs).2
    rcases notifyChildren_alike (w := w.withDag { w.dag.modify j (fun J =>
      { J with status := .done, countedAsDone := true }) with
        numNodesDone := w.dag.numNodesDone + 1 }) hnotify with
      halike | ⟨hold, hnew⟩
    · by_cases hi : i = j
      · subst hi
        have hdone : ((w.withDag s).view i).job.status = .done :=
          halike.status.trans (by simp [view])
        exact .active (.inl rfl) hdone (by decide)
      · refine .same (node_held_ne hi) (halike.trans (.of_eq ?_))
        simp [view, hi]
    · have hnew' : ((w.withDag s).view i).job.status = .ready ∨
          ((w.withDag s).view i).job.status = .prerun := hnew
      have hold' : (Hold.held j m).node = some i ∨ (w.view i).job.status ≠ .error ∧
          (w.view i).job.status ≠ .futile := by
        by_cases hi : i = j
        · exact .inl (congrArg some hi.symm)
        · have hready : (w.view i).job.status = .ready := by
            simpa [view, hi] using hold
          exact .inr (by simp [hready])
      rcases hnew' with hst | hst <;> exact .active hold' hst (by decide)
  | forget j s hs =>
    have hi := ne_of_node_held hi'
    obtain ⟨-, rfl, -⟩ := submitNodeJob_eq hs
    exact .same hi' (.of_eq (by simp [view, hi]))
  | accept j cluster procs _ hs _ _ =>
    obtain ⟨-, -, hst, hview⟩ := submitAccepted_frame hs
    by_cases hi : i = j
    · subst hi
      exact .active (.inl rfl) hst (by decide)
    · exact .same (node_held_ne hi) (.of_eq (hview i hi))

section

variable (hm : Move D cfg ok w h w' h') (hh : h.node ≠ some j) (hh' : h'.node = some j)
include hm hh hh'

/-- A node is taken from a place, and if this is its cluster, then with the last job. -/
theorem Move.taken : (w.view j).clusters.length < (w.view j).places ∨ (w.view j).places ≠ 0 ∧
      h' = .held j (if isDoomed D j (w.dag.jobs j) then .doomed else .fine) := by
  simp only [View.places, view]
  cases hm with
  | log | touch | futile | forget => exact absurd hh' hh
  | takeReady j' hj | takePre j' hj =>
    obtain rfl : j' = j := some.inj hh'
    have hcount := count_pos_iff.mpr hj
    omega
  | takePost id j' x _ hj =>
    obtain rfl : j' = j := some.inj hh'
    have hmem : (id, j', x) ∈ w.dag.posts.filter fun e => e.2.1 = j' := by simp [hj]
    have hlen := length_pos_of_mem hmem
    omega
  | takeSkip id j' _ hj =>
    obtain rfl : j' = j := some.inj hh'
    have hmem : (id, j') ∈ w.dag.skips.filter fun e => e.2 = j' := by simp [hj]
    have hlen := length_pos_of_mem hmem
    omega
  | endLast j' c _ _ _ hc =>
    obtain rfl : j' = j := some.inj hh'
    simp [hc]
  | _ => cases hh'

theorem Move.places_of_taken : (w.view j).places ≠ 0 :=
  (hm.taken hh hh').elim (fun hlt => (Nat.zero_le _).trans_lt hlt |>.ne') And.left

end

end Condor.Dagman
