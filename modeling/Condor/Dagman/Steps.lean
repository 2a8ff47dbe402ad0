import Condor.Dagman.Start
import Mathlib.Algebra.BigOperators.Ring.Finset

/-!
# Steps are chains of moves

* **`moves_of_step`**;
* **`throttles_count`**.
-/

namespace Condor.Dagman

open List Option Function Bool State World Move

variable {n : ℕ} (d : ℤ) {retval : ℤ} {e : Event n}

/-! ## Quirks -/

/-- With the end of this job the clusters of the node are over. -/
def World.isLast (w : World n) (j : Fin n) (id : CondorID) : Bool :=
  (w.clusters j).all fun c => (c.finish id).isOver

/-- A node after a failed job; the return value is that of the first one. -/
def failedJob (J : Job n) (retval : ℤ) : Job n :=
  if J.status ≠ .error then { J with status := .error, retval } else J

variable (D : DagFile n) (cfg : Config)

/-- The node would be started again, but not after this return value. -/
def givesUp (j : Fin n) (J : Job n) : Bool :=
  doRetry D j J && (D.node j).retryAbortVal = some J.retval && !(D.node j).children.isEmpty

/-- The quirk at the end of a job, which has a return value if it has failed. -/
def jobQuirk (w : World n) (j : Fin n) (id : CondorID) : Option ℤ → Option Quirk
  | none =>
    if !(D.node j).post && w.isLast j id && (w.dag.jobs j).status = .error then some .stuck
      else none
  | some retval =>
    let J := failedJob (w.dag.jobs j) retval
    if (D.node j).post || (D.node j).children.isEmpty then none
    else if doRetry D j J then
      if w.isLast j id && givesUp D j J then some .unlessExit else none
    else if !w.isLast j id then some .early
    else if cfg.putFailedJobsOnHold && (D.node j).retryAbortVal ≠ some J.retval then some .onHold
    else none

/-- **The quirk that a step shows**, if there is one. -/
def World.quirk (w : World n) : Label n → Option Quirk
  | .event (.terminated id exit) => do
    jobQuirk D cfg w (← w.ending id) id (if exit.isSuccess then none else some exit.retval)
  | .event (.aborted id) => do
    jobQuirk D cfg w (← w.ending id) id (some dagErrorCondorJobAborted)
  | .event (.postTerm _ j exit) =>
    if !exit.isSuccess && givesUp D j { w.dag.jobs j with retval := exit.retval } then
      some .unlessExit
    else none
  | .preExit j exit =>
    if !exit.isSuccess && (D.node j).preSkip ≠ some exit.retval &&
      !(cfg.postRun && (D.node j).post) &&
        givesUp D j { w.dag.jobs j with retval := exit.retval } then
      some .unlessExit
    else none
  | _ => none

/-! ## Parts of a step -/

variable {D cfg} {ok : Quirk → Prop} {w w' w'' : World n} {h h' h'' : Hold n} {i j : Fin n}
  {m : Mark} {s : State n}

theorem Moves.trans (h1 : Moves D cfg ok w h w' h') (h2 : Moves D cfg ok w' h' w'' h'') :
    Moves D cfg ok w h w'' h'' := Relation.ReflTransGen.trans h1 h2

theorem Move.then (h1 : Move D cfg ok w h w' h') (h2 : Moves D cfg ok w' h' w'' h'') :
    Moves D cfg ok w h w'' h'' := Relation.ReflTransGen.head h1 h2

theorem Move.moves (h1 : Move D cfg ok w h w' h') : Moves D cfg ok w h w' h' :=
  Relation.ReflTransGen.single h1

theorem moves_startNode {isRetry : Bool}
    (hm : m = .fine ∨ m = .marked ∧ (ok .onHold ∨ (D.node j).children = []))
    (hs : startNode D cfg w.dag j isRetry = some s) :
    Moves D cfg ok w (.held j m) (w.withDag s) .free := by
  obtain ⟨hready, -, rfl | ⟨g, p, rfl⟩⟩ := startNode_cases hs
  · exact (prerun w j m hm).moves
  · exact (enqueue w j m g p hready hm).moves

theorem moves_restartNode (hm : m = .fine ∨ m = .marked ∧ (ok .onHold ∨ (D.node j).children = [] ∨
      (D.node j).retryAbortVal = some (w.dag.jobs j).retval))
    (hgive : m = .fine → (D.node j).retryAbortVal = some (w.dag.jobs j).retval →
      ok .unlessExit ∨ (D.node j).children = [])
    (hs : restartNode D cfg w.dag j false = some s) :
    Moves D cfg ok w (.held j m) (w.withDag s) .free := by
  simp only [restartNode] at hs
  split_ifs at hs with herror habort
  · cases hs
    refine (fail w j m (.inl (not_not.mp herror)) ?_).moves
    exact hm.elim (fun hfine => .inr ⟨hfine, hgive hfine habort⟩) fun hmarked => .inl hmarked.1
  · refine (touch w j m (fun J => { J with
      status := .ready
      retries := J.retries + 1
      numSubmittedProcs := 0
      preScriptDone := false }) ⟨rfl, rfl, rfl, rfl, rfl, rfl⟩).then (moves_startNode ?_ hs)
    exact hm.imp_right fun hmarked => ⟨hmarked.1, hmarked.2.imp_right fun hor =>
      hor.resolve_right habort⟩
  all_goals simp at *

variable {s0 s' : State n} {id : CondorID} {exit : Exit} {w1 : World n}
  {ls : List (Label n)}

theorem countFutile_status (hs : countFutile D s0 j = some s)
    (herror : (s0.jobs j).status = .error) :
    (s.jobs j).status = .error ∨ (s.jobs j).status = .futile ∧ Descendant D j j := by
  obtain ⟨jobs, k, rfl, hjobs⟩ := countFutile_eq hs
  rcases hjobs j with hsame | ⟨hnew, hdesc, -⟩
  · exact .inl ((congrArg Job.status hsame).trans herror)
  · exact .inr ⟨congrArg Job.status hnew, hdesc⟩

theorem moves_giveUp (hm : m = .fine ∨ m = .doomed) (herror : (w.dag.jobs j).status = .error)
    (hs : countFutile D w.dag j = some s) : Moves D cfg ok w (.held j m)
      (w.withDag { s with numNodesFailed := s.numNodesFailed + 1 }) .free :=
  (futile w j m s hm hs).then
    (fail (w.withDag s) j .marked (countFutile_status hs herror) (.inl rfl)).moves

/-! ## Events of jobs -/

theorem checkForDagAbort_eq (hs : checkForDagAbort D s j = some s') : s' = s := by
  unfold checkForDagAbort at hs
  split_ifs at hs
  exact (some.inj hs).symm

theorem procFailed_eq : procFailed D s j retval =
    if !(D.node j).post && !doRetry D j (failedJob (s.jobs j) retval) then
      countFutile D (s.modify j fun J => failedJob J retval) j
    else some (s.modify j fun J => failedJob J retval) := by
  by_cases herror : (s.jobs j).status = .error
  · have hsame : s.modify j (fun J => failedJob J retval) = s := by
      simp [State.modify, failedJob, herror]
    have hjob : failedJob (s.jobs j) retval = s.jobs j := by simp [failedJob, herror]
    simp [procFailed, herror, hsame, hjob]
  · have hnew : s.modify j (fun J => failedJob J retval) =
        s.modify j fun J => { J with status := .error, retval } := by
      simp [State.modify, failedJob, herror]
    rw [← modify_self s j fun J => failedJob J retval, hnew]
    simp [procFailed, herror]

theorem kept_failedJob (J : Job n) (retval : ℤ) : Kept (failedJob J retval) J := by
  unfold failedJob
  split_ifs <;> exact ⟨rfl, rfl, rfl, rfl, rfl, rfl⟩

theorem failedJob_status (J : Job n) (retval : ℤ) : (failedJob J retval).status = .error := by
  unfold failedJob
  split_ifs with herror
  · rfl
  · exact not_not.mp herror

structure Failed (D : DagFile n) (j : Fin n) (J' J : Job n) (retval : ℤ) : Prop where
  status : J'.status = .error ∨ J'.status = .futile ∧ Descendant D j j
  value : J'.retval = (failedJob J retval).retval
  again : doRetry D j J' = doRetry D j (failedJob J retval)
  queued : J'.queuedNodeJobProcs = J.queuedNodeJobProcs

theorem procFailed_failed (hs : procFailed D s j retval = some s') :
    Failed D j (s'.jobs j) (s.jobs j) retval := by
  have hkept := kept_failedJob (s.jobs j) retval
  have herror := failedJob_status (s.jobs j) retval
  rw [procFailed_eq] at hs
  split_ifs at hs
  · have hstatus := countFutile_status hs (by rw [modify_self]; exact herror)
    obtain ⟨jobs, k, rfl, hjobs⟩ := countFutile_eq hs
    refine ⟨hstatus, ?_, ?_, ?_⟩ <;> dsimp only <;>
      rcases hjobs j with hj | ⟨hj, -⟩ <;> rw [hj, modify_self]
    exacts [rfl, hkept.queued, hkept.queued]
  · cases hs
    rw [modify_self]
    exact ⟨.inl herror, rfl, rfl, hkept.queued⟩

theorem moves_procFailed (hm : m = .fine ∨ m = .doomed)
    (hdoomed : m = .doomed → isDoomed D j (w.dag.jobs j) = true)
    (hs : procFailed D w.dag j retval = some s) : Moves D cfg ok w (.held j m) (w.withDag s)
      (.held j (if !(D.node j).post && !doRetry D j (failedJob (w.dag.jobs j) retval) then .marked
        else .fine)) := by
  have htouch : Move D cfg ok w (.held j m) _ _ :=
    touch w j m (fun J => failedJob J retval) (kept_failedJob _ _)
  rw [procFailed_eq] at hs
  split_ifs at hs ⊢ with hgone
  · exact htouch.then (futile _ j m s hm hs).moves
  · cases hs
    obtain rfl : m = .fine := hm.resolve_right fun heq => hgone (by
      have hd := hdoomed heq
      simp only [isDoomed, Bool.and_eq_true, decide_eq_true_eq] at hd
      have hjob : failedJob (w.dag.jobs j) retval = w.dag.jobs j := by simp [failedJob, hd.1.1]
      simp [hjob, hd.1.2, hd.2])
    exact htouch.moves

theorem moves_failedEnd (hq : (w.dag.jobs j).queuedNodeJobProcs = 0)
    (hm : m = if !(D.node j).post && !doRetry D j (w.dag.jobs j) then .marked else .fine)
    (herror : (w.dag.jobs j).status = .error ∨ (w.dag.jobs j).status = .futile ∧ Descendant D j j)
    (hgive : (D.node j).post = false → doRetry D j (w.dag.jobs j) = true →
      (D.node j).retryAbortVal = some (w.dag.jobs j).retval → ok .unlessExit ∨
      (D.node j).children = [])
    (hhold : (D.node j).post = false → doRetry D j (w.dag.jobs j) = false →
      cfg.putFailedJobsOnHold = true → ok .onHold ∨ (D.node j).children = [] ∨
        (D.node j).retryAbortVal = some (w.dag.jobs j).retval)
    (hs : processJobProcEnd D cfg w.dag j false true = some s) :
    Moves D cfg ok w (.held j m) (w.withDag s) .free := by
  subst hm
  cases hpost : (D.node j).post with
  | true =>
    simp only [processJobProcEnd, hpost, Job.allProcsDone, hq, Bool.not_true, Bool.and_false,
      decide_true, Bool.false_eq_true, if_true, if_false, some.injEq] at hs
    subst hs
    exact (post w j).moves
  | false =>
    cases hretry : doRetry D j (w.dag.jobs j) with
    | true =>
      simp only [processJobProcEnd, hpost, hretry, Job.allProcsDone, hq] at hs
      exact moves_restartNode (.inl rfl) (fun _ => hgive hpost hretry) hs
    | false =>
      simp only [processJobProcEnd, hpost, hretry, Job.allProcsDone, hq, Bool.not_false,
        Bool.and_self, decide_true, Bool.false_eq_true, if_true, if_false] at hs
      split_ifs at hs with hputhold
      · refine (touch w j .marked (fun J => { J with retryMax := J.retryMax + 1 })
          ⟨rfl, rfl, rfl, rfl, rfl, rfl⟩).then
            (moves_restartNode (.inr ⟨rfl, ?_⟩) (fun h => by cases h) hs)
        simpa using hhold hpost hretry hputhold
      · cases hs
        exact (fail w j .marked herror (.inl rfl)).moves

theorem moves_goodEnd (hq : (w.dag.jobs j).queuedNodeJobProcs = 0)
    (hm : m = if isDoomed D j (w.dag.jobs j) then .doomed else .fine)
    (hstuck : (D.node j).post = false → (w.dag.jobs j).status = .error → ok .stuck)
    (hs : processJobProcEnd D cfg w.dag j false false = some s) :
    Moves D cfg ok w (.held j m) (w.withDag s) .free := by
  subst hm
  simp only [processJobProcEnd, Job.allProcsDone, hq, Bool.false_and, decide_true,
    Bool.false_eq_true, if_true, if_false] at hs
  split_ifs at hs with hpost herror
  · cases hs
    simp only [isDoomed, hpost, Bool.not_true, Bool.and_false]
    exact (post w j).moves
  · simp only [isDoomed, herror]
    exact (done w j .fine s (.inl rfl) hs).moves
  · cases hs
    refine (stuck w j _ ?_ (not_not.mp herror) (hstuck (by simpa using hpost)
      (not_not.mp herror))).moves
    split <;> simp

theorem processJobProcEnd_more {failed : Bool} (hq : (s.jobs j).queuedNodeJobProcs ≠ 0)
    (hs : processJobProcEnd D cfg s j false failed = some s') : s' = s := by
  simp only [processJobProcEnd, Job.allProcsDone, hq, decide_false, false_eq_true, if_false] at hs
  split_ifs at hs <;> exact (some.inj hs).symm

def Cluster.left (c : Cluster) (id : CondorID) : List Cluster :=
  [c.finish id].filter fun c => !c.isOver

attribute [local simp] Cluster.left

theorem decrementProcCount_job (hs : decrementProcCount D s j = some s') :
    s'.jobs j = { s.jobs j with queuedNodeJobProcs := (s.jobs j).queuedNodeJobProcs - 1 } := by
  obtain ⟨cur, δ, rfl, -⟩ := decrementProcCount_eq hs
  simp

section JobEnd

variable {c : Cluster} {info : JobInfo} {s1 s2 : State n}

theorem pending_of_mayEnd (hend : c.mayEnd id = true) : (c.finish id).pending = [] := by
  simp only [Cluster.mayEnd, and_eq_true, List.isEmpty_iff] at hend
  exact hend.1

theorem isLast_eq (hc : w.clusters j = [c]) : w.isLast j id = (c.finish id).isOver := by
  simp [isLast, hc]

section

variable (hI : Inv D cfg {} w .free) (hc : w.clusters j = [c]) (hend : c.mayEnd id = true)
  (h1 : decrementProcCount D { w.dag with jobHash := update w.dag.jobHash id info } j = some s1)
include hI hc hend h1

theorem Inv.queued_ne (hover : (c.finish id).isOver = false) :
    (s1.jobs j).queuedNodeJobProcs ≠ 0 := by
  have hI' := hI.endMore hc hend hover h1
  have hn := hI'.node j nofun
  have hqueued := hn.queued
  simp only [view, setClusters_dag, withDag_dag] at hqueued
  have hmay : c.pending = [] := pending_of_mayEnd hend
  rw [hqueued]
  simpa [Cluster.finish, Cluster.isOver, hmay] using hover

theorem Inv.queued_eq (hover : (c.finish id).isOver = true) : (s1.jobs j).queuedNodeJobProcs = 0 :=
  ((hI.endLast .fine hc hend hover h1).held j .fine rfl).queued

/-- **A job has failed.** -/
theorem moves_jobFailed (hquirk : ∀ q, jobQuirk D cfg w j id (some retval) = some q → ok q)
    (h2 : procFailed D s1 j retval = some s2)
    (hs : processJobProcEnd D cfg s2 j false true = some s) :
    Moves D cfg ok w .free ((w.withDag s).setClusters j (c.left id)) .free := by
  have hjob := decrementProcCount_job h1
  have hfailed := procFailed_failed h2
  obtain ⟨hretry, hvalue⟩ : doRetry D j (failedJob (s1.jobs j) retval) =
        doRetry D j (failedJob (w.dag.jobs j) retval) ∧
      (failedJob (s1.jobs j) retval).retval = (failedJob (w.dag.jobs j) retval).retval := by
    rw [hjob]
    unfold failedJob
    dsimp only
    split_ifs <;> exact ⟨rfl, rfl⟩
  have hdoomed : isDoomed D j (s1.jobs j) = isDoomed D j (w.dag.jobs j) := by
    rw [hjob]
    rfl
  simp only [jobQuirk, isLast_eq hc] at hquirk
  cases hover : (c.finish id).isOver with
  | true =>
    have hleft : c.left id = [] := by simp [hover]
    rw [hleft]
    refine (endLast w j c id info s1 hc hend hover h1).then ?_
    refine (moves_procFailed (w := (w.withDag s1).setClusters j []) ?_ ?_ h2).trans ?_
    · split <;> simp
    · intro heq
      rw [setClusters_dag, withDag_dag, hdoomed]
      by_contra hno
      simp [hno] at heq
    · refine moves_failedEnd ?_ ?_ hfailed.status ?_ ?_ hs
      · exact hfailed.queued.trans (hI.queued_eq hc hend h1 hover)
      · simp [hfailed.again]
      · simp only [withDag_dag, hfailed.again, hfailed.value, hretry, hvalue]
        intro hpost hagain habort
        refine or_iff_not_imp_right.mpr fun hchild => hquirk _ ?_
        simp [hpost, hchild, hagain, hover, givesUp, habort]
      · simp only [withDag_dag, hfailed.again, hfailed.value, hretry, hvalue]
        intro hpost hagain hputhold
        refine or_iff_not_imp_right.mpr fun hno => hquirk _ ?_
        obtain ⟨hchild, habort⟩ := not_or.mp hno
        simp [hpost, hchild, hagain, hover, hputhold, habort]
  | false =>
    have hleft : c.left id = [c.finish id] := by simp [hover]
    rw [hleft]
    have hq := hI.queued_ne hc hend h1 hover
    obtain rfl := processJobProcEnd_more (hfailed.queued.trans_ne hq) hs
    refine (endMore w j c id info s1 hc hend hover h1).then ?_
    have hne : ((w.withDag s1).setClusters j [c.finish id]).clusters j ≠ [] := by simp
    have hfault : Moves D cfg ok ((w.withDag s1).setClusters j [c.finish id]) .free
        (((w.withDag s1).setClusters j [c.finish id]).withDag
          (s1.modify j fun J => failedJob J retval)) .free := by
      by_cases herror : (s1.jobs j).status = .error
      · have hsame : s1.modify j (fun J => failedJob J retval) = s1 := by
          simp [State.modify, failedJob, herror]
        rw [hsame]
        exact .refl
      · exact (fault _ j (c.finish id) _ (by simp) (pending_of_mayEnd hend)
          (kept_failedJob _ _) herror (.inr (failedJob_status _ _))).moves
    refine hfault.trans ?_
    rw [procFailed_eq] at h2
    split_ifs at h2 with hgone
    · refine (early (((w.withDag s1).setClusters j [c.finish id]).withDag
        (s1.modify j fun J => failedJob J retval)) j s hne ?_ ?_ h2).moves
      · simp only [withDag_dag, modify_self, isDoomed, failedJob_status]
        exact hgone
      · simp only [Bool.and_eq_true, Bool.not_eq_true', hretry] at hgone
        refine or_iff_not_imp_right.mpr fun hchild => hquirk _ ?_
        simp [hgone, hchild, hover]
    · cases h2
      exact .refl

/-- **A job has succeeded.** -/
theorem moves_jobSucceeded (hquirk : ∀ q, jobQuirk D cfg w j id none = some q → ok q)
    (h2 : (if (s1.jobs j).status ≠ .error then s1.modify j (fun J => { J with retval := 0 })
      else s1) = s2)
    (hs : processJobProcEnd D cfg s2 j false false = some s) :
    Moves D cfg ok w .free ((w.withDag s).setClusters j (c.left id)) .free := by
  have hjob := decrementProcCount_job h1
  have hstatus : (s1.jobs j).status = (w.dag.jobs j).status := by rw [hjob]
  have hstatus2 : (s2.jobs j).status = (s1.jobs j).status := by
    rw [← h2]
    split_ifs <;> simp
  have hqueued2 : (s2.jobs j).queuedNodeJobProcs = (s1.jobs j).queuedNodeJobProcs := by
    rw [← h2]
    split_ifs <;> simp
  simp only [jobQuirk, isLast_eq hc] at hquirk
  cases hover : (c.finish id).isOver with
  | true =>
    have hleft : c.left id = [] := by simp [hover]
    rw [hleft]
    refine (endLast w j c id info s1 hc hend hover h1).then ?_
    have hdoomed : isDoomed D j (s2.jobs j) = isDoomed D j (w.dag.jobs j) := by
      by_cases herror : (s1.jobs j).status = .error
      · rw [if_neg (not_not.mpr herror)] at h2
        rw [← h2, hjob]
        rfl
      · have herror' : (w.dag.jobs j).status ≠ .error := hstatus ▸ herror
        simp [isDoomed, hstatus2, herror, herror']
    have hend' : Moves D cfg ok ((w.withDag s2).setClusters j [])
        (.held j (if isDoomed D j (w.dag.jobs j) then .doomed else .fine))
        ((w.withDag s).setClusters j []) .free := by
      refine moves_goodEnd ?_ ?_ ?_ hs
      · exact hqueued2.trans (hI.queued_eq hc hend h1 hover)
      · rw [setClusters_dag, withDag_dag, hdoomed]
      · simp only [setClusters_dag, withDag_dag, hstatus2, hstatus]
        intro hpost herror
        exact hquirk _ (by simp [hpost, herror, hover])
    split_ifs at h2
    · subst h2
      exact (touch _ j _ (fun J => { J with retval := 0 })
        ⟨rfl, rfl, rfl, rfl, rfl, rfl⟩).then hend'
    · subst h2
      exact hend'
  | false =>
    have hleft : c.left id = [c.finish id] := by simp [hover]
    rw [hleft]
    have hq := hI.queued_ne hc hend h1 hover
    obtain rfl := processJobProcEnd_more (hqueued2.trans_ne hq) hs
    refine (endMore w j c id info s1 hc hend hover h1).then ?_
    split_ifs at h2 with herror
    · subst h2
      exact (fault ((w.withDag s1).setClusters j [c.finish id]) j (c.finish id)
        (fun J => { J with retval := 0 }) (by simp) (pending_of_mayEnd hend)
        ⟨rfl, rfl, rfl, rfl, rfl, rfl⟩ herror (.inl rfl)).moves
    · subst h2
      exact .refl

end

end JobEnd

/-! ## Events -/

def State.record (s : State n) (e : Event n) : State n :=
  { s with jobHash := update s.jobHash e.id ((s.jobHash e.id).count e) }

theorem processOneEvent_eq {s0 s1 : State n} {recovery sane : Bool}
    (hlook : logEventNodeLookup D cfg s0 e = some (s1, some j, sane)) :
    processOneEvent D cfg s0 e recovery =
      if (checkAnEvent cfg.allowEvents ((s1.jobHash e.id).count e) e).isProcessed then
        processEvent D cfg (s1.record e) j recovery sane e
      else some (s1.record e) := by
  simp [processOneEvent, hlook, record]

theorem findNodeByEventID_eq (hminus : id.cluster ≠ -1)
    (hhash : s0.eventIDHash id.key = some j) (hcluster : id.cluster = (s0.jobs j).condorID.cluster)
    (hnoop : id.isNoop = (D.node j).noop) : findNodeByEventID D s0 id = some (some j) := by
  simp [findNodeByEventID, hminus, hhash, ← hcluster, hnoop]

theorem Inv.clusters_eq {c : Cluster} (hI : Inv D cfg {} w .free) (hc : c ∈ w.clusters j) :
    w.clusters j = [c] := by
  have hplaces := (hI.node j nofun).places
  have hpos := length_pos_of_mem hc
  simp only [View.places, view] at hplaces
  obtain ⟨c', hc'⟩ := length_eq_one_iff.mp (show (w.clusters j).length = 1 by omega)
  rw [hc', mem_singleton] at hc
  rw [hc', hc]

theorem Inv.ending (hI : Inv D cfg {} w .free) (hj : w.ending id = some j) :
    ∃ c, w.clusters j = [c] ∧ c.mayEnd id = true ∧ findNodeByEventID D w.dag id = some (some j) ∧
      w.dag.jobHash id = { submitCount := 1 } := by
  have hany := List.find?_some hj
  simp only [List.any_eq_true] at hany
  obtain ⟨c, hc, hend⟩ := hany
  have hn := hI.node j nofun
  have hmem : c ∈ (w.view j).clusters := hc
  have hrunning : id ∈ c.running := by
    simp only [Cluster.mayEnd, and_eq_true, List.contains_iff_mem] at hend
    exact hend.2
  obtain ⟨hhash, hnoop, hcluster, hminus⟩ := hn.hash_of_mem hmem (List.mem_append_right _ hrunning)
  exact ⟨c, hI.clusters_eq hc, hend, findNodeByEventID_eq hminus hhash hcluster hnoop,
    (hn.clusters c hmem).running id hrunning⟩

theorem isProcessed_end (a : AllowEvents)
    (he : (∃ id x, e = .terminated id x) ∨ ∃ id, e = .aborted id) :
    (checkAnEvent a (({ submitCount := 1 } : JobInfo).count e) e).isProcessed = true := by
  rcases he with ⟨id, x, rfl⟩ | ⟨id, rfl⟩ <;>
    simp [checkAnEvent, JobInfo.count, checkJobEnd, JobInfo.totalEndCount, CheckResult.isProcessed]

theorem processTerminatedEvent_cases {recovery : Bool}
    (hs : processTerminatedEvent D cfg s0 j exit recovery = some s) :
    ∃ s1 s2, decrementProcCount D s0 j = some s1 ∧
      (exit.isSuccess = false ∧ procFailed D s1 j exit.retval = some s2 ∨
        exit.isSuccess = true ∧ (if (s1.jobs j).status ≠ .error then
          s1.modify j (fun J => { J with retval := 0 }) else s1) = s2) ∧
      processJobProcEnd D cfg s2 j recovery (!exit.isSuccess) = some s := by
  have hfinal : ∀ s3, (if (D.node j).post then some s3 else checkForDagAbort D s3 j) = some s →
      s3 = s := by
    intro s3 hs3
    split_ifs at hs3
    · exact some.inj hs3
    · exact (checkForDagAbort_eq hs3).symm
  simp only [processTerminatedEvent, bind_eq_bind] at hs
  obtain ⟨s1, h1, hs⟩ := bind_eq_some_iff.mp hs
  cases hx : exit.isSuccess with
  | false =>
    simp only [hx] at hs
    obtain ⟨s2, h2, hs⟩ := bind_eq_some_iff.mp hs
    obtain ⟨s3, h3, hs⟩ := bind_eq_some_iff.mp hs
    obtain rfl := hfinal s3 hs
    exact ⟨s1, s2, h1, .inl ⟨rfl, h2⟩, h3⟩
  | true =>
    simp only [hx, Bool.not_true, Bool.false_eq_true, if_false, bind_some] at hs
    refine ⟨s1, _, h1, .inr ⟨rfl, rfl⟩, ?_⟩
    split at hs <;> rename_i herror
    all_goals
      obtain ⟨s3, h3, hs⟩ := bind_eq_some_iff.mp hs
      obtain rfl := hfinal s3 hs
      simpa [herror] using h3

section

variable (hI : Inv D cfg {} w .free)
include hI

/-- The event at the end of a job is for the node that has the job, and it is processed. -/
theorem Inv.finish_cases
    (he : (∃ x, e = .terminated id x) ∨ e = .aborted id) (hd : w.finish id = some w1)
    (hs : processOneEvent D cfg w1.dag e false = some s) :
    ∃ j c, w.ending id = some j ∧ w.clusters j = [c] ∧ c.mayEnd id = true ∧
      w1 = w.setClusters j (c.left id) ∧
      processEvent D cfg { w.dag with
        jobHash := update w.dag.jobHash id ((w.dag.jobHash id).count e) } j false false e =
        some s := by
  obtain ⟨j, hj, hd⟩ := bind_eq_some_iff.mp hd
  cases hd
  obtain ⟨c, hc, hend, hfind, hinfo⟩ := hI.ending hj
  have hid : e.id = id := by rcases he with ⟨x, rfl⟩ | rfl <;> rfl
  have hlook : logEventNodeLookup D cfg w.dag e = some (w.dag, some j, false) := by
    rcases he with ⟨x, rfl⟩ | rfl <;> simp [logEventNodeLookup, hfind]
  have hprocessed : (checkAnEvent cfg.allowEvents ((w.dag.jobHash id).count e) e).isProcessed =
      true := by
    rw [hinfo]
    exact isProcessed_end _ (he.imp (fun ⟨x, hx⟩ => ⟨id, x, hx⟩) fun hx => ⟨id, hx⟩)
  rw [setClusters_dag, processOneEvent_eq hlook, record, hid, if_pos hprocessed] at hs
  exact ⟨j, c, hj, hc, hend, by simp [hc], hs⟩

theorem moves_terminated
    (hquirk : ∀ q, w.quirk D cfg (.event (.terminated id exit)) = some q → ok q)
    (hd : w.finish id = some w1)
    (hs : processOneEvent D cfg w1.dag (.terminated id exit) false = some s) :
    Moves D cfg ok w .free (w1.withDag s) .free := by
  obtain ⟨j, c, hj, hc, hend, rfl, hevent⟩ := hI.finish_cases (.inl ⟨exit, rfl⟩) hd hs
  simp only [quirk, hj] at hquirk
  obtain ⟨s1, s2, h1, h2, h3⟩ := processTerminatedEvent_cases hevent
  rcases h2 with ⟨hx, h2⟩ | ⟨hx, h2⟩
  · simp only [hx] at h3 hquirk
    exact moves_jobFailed hI hc hend h1 hquirk h2 h3
  · simp only [hx] at h3 hquirk
    exact moves_jobSucceeded hI hc hend h1 hquirk h2 h3

theorem moves_aborted (hquirk : ∀ q, w.quirk D cfg (.event (.aborted id)) = some q → ok q)
    (hd : w.finish id = some w1) (hs : processOneEvent D cfg w1.dag (.aborted id) false = some s) :
    Moves D cfg ok w .free (w1.withDag s) .free := by
  obtain ⟨j, c, hj, hc, hend, rfl, hevent⟩ := hI.finish_cases (.inr rfl) hd hs
  simp only [quirk, hj] at hquirk
  obtain ⟨s1, h1, hevent⟩ := bind_eq_some_iff.mp hevent
  obtain ⟨s2, h2, h3⟩ := bind_eq_some_iff.mp hevent
  exact moves_jobFailed hI hc hend h1 hquirk h2 h3

theorem moves_submitEvent (hd : w.deliver (.submit id j) = some w1)
    (hs : processOneEvent D cfg w1.dag (.submit id j) false = some s) :
    Moves D cfg ok w .free (w1.withDag s) .free := by
  simp only [World.deliver] at hd
  split_ifs at hd with hany
  cases hd
  simp only [List.any_eq_true, List.contains_iff_mem] at hany
  obtain ⟨c, hc, hp⟩ := hany
  have hc' := hI.clusters_eq hc
  have hn := hI.node j nofun
  have hmem : c ∈ (w.view j).clusters := hc
  obtain ⟨hhash, hnoop, hcluster, -⟩ := hn.hash_of_mem hmem (List.mem_append_left _ hp)
  have hact := hn.in_cluster (show (w.view j).clusters = [c] from hc')
  have hinfo : w.dag.jobHash id = {} := (hn.clusters c hmem).pending id hp
  have hsane : sanityCheckSubmitEvent cfg (w.dag.jobs j) id = some true := by
    have hcluster' : id.cluster = (w.dag.jobs j).condorID.cluster := hcluster
    simp [sanityCheckSubmitEvent, hcluster']
  have hlook : logEventNodeLookup D cfg w.dag (.submit id j) =
      some (w.dag.setCondorID j id, some j, true) := by
    have hhash' : (w.dag.setCondorID j id).eventIDHash id.key = some j := hhash
    simp [logEventNodeLookup, hsane, hnoop, insertEventID, hhash']
  have hwait : isWaiting D j (((w.dag.setCondorID j id).record (.submit id j)).jobs j) = false := by
    simpa [view, State.record, State.setCondorID, isWaiting] using hact.waiting
  have hinfo' : (w.dag.setCondorID j id).jobHash id = {} := hinfo
  rw [setClusters_dag, processOneEvent_eq hlook, show
    (Event.submit id j : Event n).id = id from rfl,
    hinfo', if_pos (by simp [checkAnEvent, checkJobSubmit, JobInfo.count, JobInfo.totalEndCount,
      CheckResult.isProcessed])] at hs
  simp only [processEvent, processSubmitEvent, hwait, Bool.false_eq_true, if_false,
    Option.some.injEq] at hs
  have hclusters : (w.clusters j).map (fun c => c.submit id) = [c.submit id] := by simp [hc']
  rw [hclusters, ← hs]
  refine (submitEvent w j c id hc' hp).moves.trans ?_
  simp only [State.modify, State.record, State.setCondorID, Event.id, JobInfo.count, hinfo,
    Bool.true_or, if_true, update_self, update_idem]
  exact .refl

end

/-! ## Scripts -/

theorem moves_postExit (hj : j ∈ w.dag.postScripts)
    (hs : postScriptReaper D { w.dag with postScripts := w.dag.postScripts.erase j } j exit =
      some s) : Moves D cfg ok w .free (w.withDag s) .free := by
  simp only [postScriptReaper] at hs
  split_ifs at hs with hpost hnoop
  all_goals
    cases hs
    refine (postExit w j exit hj (not_not.mp hpost)).moves.trans ?_
    simp only [postID, hnoop]
    exact .refl

variable (D cfg) in
def afterPre (s : State n) (j : Fin n) (exit : Exit) : Option (State n) :=
  if !exit.isSuccess then
    if (D.node j).preSkip = some (s.jobs j).retval then
      let s := writePreSkipEvent s j
      let s := { s with preRunNodeCount := s.preRunNodeCount + 1 }
      some (s.modify j fun J => { J with preScriptDone := true, retval := 0 })
    else if cfg.postRun && (D.node j).post then some (runPostScript s j)
    else if doRetry D j (s.jobs j) then restartNode D cfg (s.setStatus j .error) j false
    else do
      let s ← countFutile D (s.setStatus j .error) j
      some { s with numNodesFailed := s.numNodesFailed + 1 }
  else
    let s := s.setStatus j .ready
    if cfg.submitDepthFirst then some (s.prepend j) else some (s.append j)

theorem preScriptReaper_cases
    (hs : preScriptReaper D cfg s0 j exit = some s) : (s0.jobs j).status = .prerun ∧
      afterPre D cfg ({ s0 with preRunNodeCount := s0.preRunNodeCount - 1 }.modify j fun J =>
        { J with retval := exit.retval }) j exit = some s := by
  by_cases hpre : (s0.jobs j).status = .prerun
  · refine ⟨hpre, ?_⟩
    simp only [preScriptReaper, hpre] at hs
    obtain ⟨s1, h1, hs⟩ := bind_eq_some_iff.mp hs
    rw [checkForDagAbort_eq hs]
    exact h1
  · simp [preScriptReaper, hpre] at hs

theorem moves_afterPre (hpre : (w.dag.jobs j).status = .prerun)
    (hgive : exit.isSuccess = false → (D.node j).preSkip ≠ some (w.dag.jobs j).retval →
      (cfg.postRun && (D.node j).post) = false → doRetry D j (w.dag.jobs j) = true →
      (D.node j).retryAbortVal = some (w.dag.jobs j).retval → ok .unlessExit ∨
      (D.node j).children = [])
    (hs : afterPre D cfg w.dag j exit = some s) :
    Moves D cfg ok w (.held j .fine) (w.withDag s) .free := by
  have hkept : ∀ st, Kept { w.dag.jobs j with status := st } (w.dag.jobs j) :=
    fun _ => ⟨rfl, rfl, rfl, rfl, rfl, rfl⟩
  have herror : Move D cfg ok w (.held j .fine) (w.withDag (w.dag.setStatus j .error)) _ :=
    touch w j .fine (fun J => { J with status := .error }) (hkept .error)
  simp only [afterPre] at hs
  split_ifs at hs with hx hskip hpost hretry
  · cases hs
    refine (touch w j .fine (fun J => { J with preScriptDone := true, retval := 0 })
      ⟨rfl, rfl, rfl, rfl, rfl, rfl⟩).then ((skip _ j (by simpa using hpre)).moves.trans ?_)
    simp only [writePreSkipEvent, State.setCondorID, State.modify, withDag_dag, update_idem,
      update_self]
    exact .refl
  · cases hs
    exact (post w j).moves
  · refine herror.then (moves_restartNode (.inl rfl) (fun _ habort => ?_) hs)
    simp only [withDag_dag, State.setStatus, modify_self] at habort
    exact hgive (by simpa using hx) hskip (by simpa using hpost) hretry habort
  · obtain ⟨s1, h1, hs⟩ := bind_eq_some_iff.mp hs
    cases hs
    exact herror.then (moves_giveUp (.inl rfl) (by simp [State.setStatus]) h1)
  all_goals
    cases hs
    exact (touch w j .fine (fun J => { J with status := .ready }) (hkept .ready)).then
      (enqueue _ j .fine _ _ (by simp) (.inl rfl)).moves

theorem moves_preExit
    (hquirk : ∀ q, w.quirk D cfg (.preExit j exit) = some q → ok q) (hj : j ∈ w.dag.preScripts)
    (hs : preScriptReaper D cfg ({ w.dag with
      preScripts := w.dag.preScripts.erase j }.modify j fun J => { J with preScriptDone := true })
        j exit = some s) :
    Moves D cfg ok w .free (w.withDag s) .free := by
  obtain ⟨hpre, hs⟩ := preScriptReaper_cases hs
  rw [modify_self] at hpre
  let w1 := w.withDag { w.dag with
    preScripts := w.dag.preScripts.erase j
    preRunNodeCount := w.dag.preRunNodeCount - 1 }
  let f : Job n → Job n := fun J => { J with preScriptDone := true, retval := exit.retval }
  refine (takePre w j hj hpre).then ((touch w1 j .fine f
    ⟨rfl, rfl, rfl, rfl, rfl, rfl⟩).then ?_)
  have hjob : ((w1.withDag (w1.dag.modify j f)).dag.jobs j) = f (w.dag.jobs j) := by
    rw [withDag_dag, modify_self]
    rfl
  have hafter : afterPre D cfg (w1.withDag (w1.dag.modify j f)).dag j exit = some s := by
    rw [← hs]
    simp [State.modify, w1, f]
  refine moves_afterPre ?_ ?_ hafter
  · rw [hjob]
    exact hpre
  · rw [hjob]
    intro hx hskip hpost hretry habort
    refine or_iff_not_imp_right.mpr fun hchild => hquirk _ ?_
    have hgives : givesUp D j { w.dag.jobs j with retval := exit.retval } = true := by
      have hretry' : doRetry D j { w.dag.jobs j with retval := exit.retval } = true := hretry
      have habort' : (D.node j).retryAbortVal = some exit.retval := habort
      simp [givesUp, hretry', habort', hchild]
    have hskip' : (D.node j).preSkip ≠ some exit.retval := hskip
    simp [World.quirk, hx, hskip', hpost, hgives]

/-- The event of a POST script is for its node. -/
theorem Inv.lookup_postTerm (hI : Inv D cfg {} w .free)
    (hj : (id, j, exit) ∈ w.dag.posts) (ps : List (CondorID × Fin n × Exit)) :
    logEventNodeLookup D cfg { w.dag with posts := ps } (.postTerm id j exit) =
      some ({ w.dag with posts := ps }, some j, false) := by
  have hn := hI.node j nofun
  have hmem : (id, j, exit) ∈ (w.view j).posts := by simp [view, hj]
  by_cases hminus : id.cluster = -1
  · simp [logEventNodeLookup, findNodeByEventID, hminus]
  · have hhash := (hn.hash_posted hmem).resolve_left hminus
    have hid : id = postID D j (w.dag.jobs j).condorID := hn.posted _ hmem
    have hcluster : id.cluster = (w.dag.jobs j).condorID.cluster := by
      rw [hid, postID]
      split <;> rfl
    have hnoop : id.isNoop = (D.node j).noop := by
      have hplaces := hn.places
      have hpos := length_pos_of_mem hmem
      have hact := hn.active (by unfold View.places; omega)
      unfold View.places at hplaces
      have hskips : (w.view j).skips = [] := length_eq_zero_iff.mp (by omega)
      have hident := (hn.identified hact.2 hskips).resolve_left (hcluster ▸ hminus)
      cases hno : (D.node j).noop with
      | true =>
        rw [hid, postID, if_pos hno]
        exact hident.2.trans hno
      | false =>
        simp [hid, postID, hno, CondorID.isNoop, noopNodeProcId]
    have hfind : findNodeByEventID D { w.dag with posts := ps } id = some (some j) :=
      findNodeByEventID_eq hminus hhash hcluster hnoop
    simp [logEventNodeLookup, hfind]

theorem processPostTermEvent_cases
    (hs : processPostTermEvent D cfg s0 j exit false = some s) : (s0.jobs j).status = .postrun ∧
      (exit.isSuccess = false ∧ (doRetry D j { s0.jobs j with retval := exit.retval } = true ∧
            restartNode D cfg ({ s0 with postRunNodeCount := s0.postRunNodeCount - 1 }.modify j
              fun J => { J with status := .error, retval := exit.retval }) j false = some s ∨
          ∃ s1, countFutile D ({ s0 with postRunNodeCount := s0.postRunNodeCount - 1 }.modify j
              fun J => { J with status := .error, retval := exit.retval }) j = some s1 ∧
            s = { s1 with numNodesFailed := s1.numNodesFailed + 1 }) ∨
        terminateJob D cfg ({ s0 with postRunNodeCount := s0.postRunNodeCount - 1 }.modify j
          fun J => { J with retval := 0 }) j false false = some s) := by
  by_cases hpost : (s0.jobs j).status = .postrun
  · refine ⟨hpost, ?_⟩
    simp only [processPostTermEvent, hpost, bind_eq_bind, bind_some] at hs
    cases hx : exit.isSuccess with
    | true =>
      simp only [hx] at hs
      obtain ⟨s1, h1, hs⟩ := bind_eq_some_iff.mp hs
      rw [checkForDagAbort_eq hs]
      exact .inr h1
    | false =>
      simp only [hx, Bool.not_false, if_true, modify_self] at hs
      left
      refine ⟨rfl, ?_⟩
      split at hs
      · rename_i hretry
        obtain ⟨s1, h1, hs⟩ := bind_eq_some_iff.mp hs
        rw [checkForDagAbort_eq hs]
        exact .inl ⟨hretry, h1⟩
      · obtain ⟨s1, h1, hs⟩ := bind_eq_some_iff.mp hs
        exact .inr ⟨s1, h1, checkForDagAbort_eq hs⟩
  · simp [processPostTermEvent, hpost] at hs

theorem moves_postTerm (hI : Inv D cfg {} w .free)
    (hquirk : ∀ q, w.quirk D cfg (.event (.postTerm id j exit)) = some q → ok q)
    (hd : w.deliver (.postTerm id j exit) = some w1)
    (hs : processOneEvent D cfg w1.dag (.postTerm id j exit) false = some s) :
    Moves D cfg ok w .free (w1.withDag s) .free := by
  simp only [deliver] at hd
  split_ifs at hd with hj
  cases hd
  rw [processOneEvent_eq (hI.lookup_postTerm hj _)] at hs
  let info := (w.dag.jobHash id).count (.postTerm id j exit : Event n)
  split_ifs at hs
  · obtain ⟨hpost, hs⟩ := processPostTermEvent_cases hs
    have htake : Move D cfg ok _ _ _ _ := takePost w id j exit info hj hpost
    refine htake.then ?_
    set w2 := w.withDag { w.dag with
      posts := w.dag.posts.erase (id, j, exit)
      jobHash := update w.dag.jobHash id info
      postRunNodeCount := w.dag.postRunNodeCount - 1 }
    have hfail : Move D cfg ok w2 (.held j .fine) _ _ := touch w2 j .fine
      (fun J => { J with status := .error, retval := exit.retval }) ⟨rfl, rfl, rfl, rfl, rfl, rfl⟩
    rcases hs with ⟨hx, ⟨hretry, hs⟩ | ⟨s1, h1, rfl⟩⟩ | hs
    · refine hfail.then (moves_restartNode (.inl rfl) (fun _ habort => ?_) hs)
      refine or_iff_not_imp_right.mpr fun hchild => hquirk _ ?_
      have habort' : (D.node j).retryAbortVal = some exit.retval := by simpa using habort
      have hretry' : doRetry D j { w.dag.jobs j with retval := exit.retval } = true := hretry
      simp [quirk, hx, givesUp, hretry', habort', hchild]
    · exact hfail.then (moves_giveUp (.inl rfl) (by simp) h1)
    · exact (touch w2 j .fine (fun J => { J with retval := 0 })
        ⟨rfl, rfl, rfl, rfl, rfl, rfl⟩).then (done _ j .fine s (.inl rfl) hs).moves
  · cases hs
    exact (dropPost w id j exit info hj).moves

/-! ## Nodes that are skipped -/

def State.shift (s : State n) : State n :=
  { s with preRunNodeCount := s.preRunNodeCount + d }

theorem ite_eq_map {α β : Type} {c : Prop} [Decidable c] {f : α → β} {a b : Option α}
    {a' b' : Option β} (ha : a' = a.map f) (hb : b' = b.map f) :
    (if c then a' else b') = (if c then a else b).map f := by
  split <;> assumption

theorem startNode_shift (isRetry : Bool) :
    startNode D cfg (s.shift d) j isRetry = (startNode D cfg s j isRetry).map (State.shift d) := by
  refine ite_eq_map rfl (ite_eq_map ?_ (ite_eq_map rfl (ite_eq_map rfl rfl)))
  simp [State.shift, State.setStatus, State.modify, add_right_comm]

theorem notifyChildren_shift (start : Bool) (cs : List (Fin n)) (s : State n) :
    notifyChildren D cfg j start cs (s.shift d) = (notifyChildren D cfg j start cs s).map
      (shift d) := by
  induction cs generalizing s with
  | nil => rfl
  | cons c cs ih =>
    have hmodify : (s.shift d).modify c (parentComplete D c j) =
        (s.modify c (parentComplete D c j)).shift d := rfl
    have hjobs : ∀ s : State n, (s.shift d).jobs = s.jobs := fun _ => rfl
    simp only [notifyChildren, hmodify, hjobs, startNode_shift]
    split
    · cases startNode D cfg (s.modify c (parentComplete D c j)) c false with
      | none => rfl
      | some s1 => exact ih s1
    · exact ih _

theorem terminateJob_shift (recovery bootstrap : Bool) :
    terminateJob D cfg (s.shift d) j recovery bootstrap =
      (terminateJob D cfg s j recovery bootstrap).map (shift d) := by
  refine ite_eq_map rfl (ite_eq_map rfl ?_)
  exact notifyChildren_shift d _ _ { (s.setStatus j .done).modify j
    (fun J => { J with countedAsDone := true }) with numNodesDone := s.numNodesDone + 1 }

theorem insertEventID_shift (s : State n) (id : CondorID) :
    insertEventID (s.shift d) id j = (insertEventID s id j).map (State.shift d) := by
  simp only [insertEventID, State.shift, State.setCondorID, State.modify]
  split
  · rfl
  · split_ifs <;> rfl

theorem moves_preSkip (hd : w.deliver (.preSkip id j) = some w1)
    (hs : processOneEvent D cfg w1.dag (.preSkip id j) false = some s) :
    Moves D cfg ok w .free (w1.withDag s) .free := by
  simp only [deliver] at hd
  split_ifs at hd with hj
  cases hd
  obtain ⟨s1, h1⟩ : ∃ s1, insertEventID { w.dag with skips := w.dag.skips.erase (id, j) } id j =
      some s1 := by
    rw [← ne_none_iff_exists']
    intro hnone
    simp [processOneEvent, logEventNodeLookup, hnone] at hs
  have hlook : logEventNodeLookup D cfg { w.dag with skips := w.dag.skips.erase (id, j) }
      (.preSkip id j) = some (s1, some j, false) := by
    simp [logEventNodeLookup, h1]
  have hrecord : s1.record (.preSkip id j) = s1 := by
    simp [record, JobInfo.count]
  rw [processOneEvent_eq hlook, hrecord] at hs
  obtain ⟨s2, h2, hs⟩ := bind_eq_some_iff.mp hs
  cases hs
  have htake : insertEventID { w.dag with
      skips := w.dag.skips.erase (id, j)
      preRunNodeCount := w.dag.preRunNodeCount - 1 } id j = some (s1.shift (-1)) := by
    have hshift := insertEventID_shift (j := j) (-1) { w.dag with
      skips := w.dag.skips.erase (id, j) } id
    rw [h1] at hshift
    exact hshift
  have hdone : terminateJob D cfg (s1.shift (-1)) j false false = some (s2.shift (-1)) := by
    rw [terminateJob_shift, h2]
    rfl
  exact (takeSkip w id j _ hj htake).then
    (done _ j .skipped _ (.inr rfl) hdone).moves

/-! ## Submit cycles -/

theorem foldl_select_mem {α : Type} (f : α → α → α) (hf : ∀ a b, f a b = a ∨ f a b = b) (a : α)
    (l : List α) : l.foldl f a ∈ a :: l := by
  induction l generalizing a with
  | nil => exact mem_singleton_self a
  | cons b l ih =>
    rw [foldl_cons]
    rcases mem_cons.mp (ih (f a b)) with heq | hmem
    · rw [heq]
      rcases hf a b with heq | heq <;> simp [heq]
    · exact mem_cons_of_mem _ (mem_cons_of_mem _ hmem)

theorem pop_eq (hs : s0.pop D = some (j, s)) :
    j ∈ s0.readyQ ∧ s = { s0 with readyQ := s0.readyQ.erase j } := by
  unfold pop at hs
  split at hs
  · cases hs
  · rename_i a q hq
    obtain ⟨rfl, rfl⟩ := hs
    refine ⟨?_, rfl⟩
    rw [hq]
    exact foldl_select_mem _ (fun a b => by split <;> simp) a q

/-- The count of failed nodes does not matter for the futile ones. -/
def State.fail (s : State n) : State n := { s with numNodesFailed := s.numNodesFailed + 1 }

theorem setChildrenToFutile_fail {rec : State n → Fin n → Option (State n × ℤ)}
    (hrec : ∀ s c, rec s.fail c = (rec s c).map fun x => (x.1.fail, x.2)) (cs : List (Fin n))
    (s : State n) (k : ℤ) : setChildrenToFutile D rec cs s.fail k =
      (setChildrenToFutile D rec cs s k).map fun x => (x.1.fail, x.2) := by
  induction cs generalizing s k with
  | nil => rfl
  | cons c cs ih =>
    have hset : s.fail.setStatus c .futile = (s.setStatus c .futile).fail := rfl
    refine ite_eq_map (ih s k) (ite_eq_map ?_ (ite_eq_map rfl ?_))
    · rw [hrec]
      cases rec s c with
      | none => rfl
      | some x => exact ih _ _
    · rw [hset, hrec]
      cases rec (s.setStatus c .futile) c with
      | none => rfl
      | some x => exact ih _ _

theorem countFutile_fail : countFutile D s.fail j = (countFutile D s j).map fail := by
  have hdesc : ∀ (k : ℕ) (s : State n) (j : Fin n), setDescendantsToFutile D k s.fail j =
      (setDescendantsToFutile D k s j).map fun x => (x.1.fail, x.2) := by
    intro k
    induction k with
    | zero => exact fun _ _ => rfl
    | succ k ih => exact fun s j => setChildrenToFutile_fail ih _ s 0
  unfold countFutile
  rw [hdesc]
  cases setDescendantsToFutile D (n + 1) s j <;> rfl

theorem moves_submitFailed (hready : (w.dag.jobs j).status = .ready)
    (hs : submitFailed D cfg w j = some w') : Moves D cfg ok w (.held j .fine) w' .free := by
  obtain ⟨s1, h1, hs⟩ := bind_eq_some_iff.mp hs
  obtain ⟨s2, h2, hs⟩ := bind_eq_some_iff.mp hs
  cases hs
  refine (forget w j s1 h1).then ?_
  have hready1 : (s1.jobs j).status = .ready := by
    obtain ⟨-, rfl, -⟩ := submitNodeJob_eq h1
    simpa using hready
  have hgive : Move D cfg ok (w.withDag s1) (.held j .fine) _ _ :=
    touch (w.withDag s1) j .fine (fun J => { J with retries := J.retryMax })
      ⟨rfl, rfl, rfl, rfl, rfl, rfl⟩
  simp only [processFailedSubmit] at h2
  split_ifs at h2
  · cases h2
    exact hgive.then (post _ j).moves
  · set s3 := (s1.modify j fun J => { J with retries := J.retryMax }).setStatus j .error
    have hfail : countFutile D s3.fail j = some s2 := h2
    rw [countFutile_fail, map_eq_some_iff] at hfail
    obtain ⟨s4, h4, rfl⟩ := hfail
    refine hgive.then ((touch _ j .fine (fun J => { J with status := .error })
      ⟨rfl, rfl, rfl, rfl, rfl, rfl⟩).then (moves_giveUp (.inl rfl) (by simp) ?_))
    exact h4
  all_goals
    cases h2
    exact (enqueue _ j .fine _ _ hready1 (.inl rfl)).moves

theorem moves_submitLoop {outcomes : List Outcome} (hok : ok .deferred)
    (hs : submitLoop D cfg outcomes w = some w') : Moves D cfg ok w .free w' .free := by
  induction outcomes generalizing w with
  | nil =>
    cases hs
    exact .refl
  | cons o os ih =>
    simp only [submitLoop] at hs
    cases hpop : w.dag.pop D with
    | none =>
      simp only [hpop] at hs
      cases hs
      exact .refl
    | some x =>
      obtain ⟨j, s⟩ := x
      obtain ⟨hj, rfl⟩ := pop_eq hpop
      simp only [hpop] at hs
      split_ifs at hs with hmax hready hthrottle
      · cases hs
        exact .refl
      · refine (queue w _ _ w.dag.generation w.dag.subPriority ?_ (.inr hok)).then (ih hs)
        have herase := perm_cons_erase hj
        refine Perm.trans ?_ (herase.append_right _).symm
        simpa using perm_append_singleton j (w.dag.readyQ.erase j ++ w.dag.deferredJobs)
      · refine (takeReady w j hj).then ?_
        cases o with
        | accepted cluster procs =>
          obtain ⟨w1, h1, hs⟩ := bind_eq_some_iff.mp hs
          refine (accept _ j cluster procs w1 h1 ?_ (by simpa using hthrottle)).then (ih hs)
          by_contra hcon
          push Not at hcon
          exact hmax hcon
        | failed => exact moves_submitFailed (not_not.mp hready) hs

theorem moves_returnDeferred : Moves D cfg ok w .free (returnDeferred w) .free := by
  obtain ⟨g, p, hfold⟩ : ∃ g p, w.dag.deferredJobs.foldl prepend w.dag = { w.dag with
      readyQ := w.dag.readyQ ++ w.dag.deferredJobs, generation := g, subPriority := p } := by
    generalize w.dag = s, w.dag.deferredJobs = ds
    induction ds generalizing s with
    | nil => exact ⟨s.generation, s.subPriority, by simp⟩
    | cons d ds ih =>
      obtain ⟨g, p, hfold⟩ := ih (s.prepend d)
      rw [foldl_cons, hfold]
      simp [prepend]
  have hmove : Move D cfg ok _ _ _ _ := queue w
    (w.dag.readyQ ++ w.dag.deferredJobs) [] g p (by simp) (.inl rfl)
  simp only [returnDeferred, hfold]
  exact hmove.moves

/-! ## Steps -/

/-- **A step is a chain of moves.** -/
theorem moves_of_step {l : Label n} (hI : Inv D cfg {} w .free)
    (hok : ok .deferred ∨ ∀ os, l ≠ .submit os)
    (hquirk : ∀ q, w.quirk D cfg l = some q → ok q) (hs : w.step D cfg l = some w') :
    Moves D cfg ok w .free w' .free := by
  cases l with
  | submit outcomes =>
    simp only [step, submitReadyJobs, map_eq_some_iff] at hs
    obtain ⟨w1, h1, rfl⟩ := hs
    have hok' := hok.resolve_right fun hne => hne outcomes rfl
    exact (moves_submitLoop hok' h1).trans moves_returnDeferred
  | preExit j exit =>
    simp only [step] at hs
    split_ifs at hs with hj
    obtain ⟨s, h1, hs⟩ := bind_eq_some_iff.mp hs
    cases hs
    exact moves_preExit hquirk hj h1
  | postExit j exit =>
    simp only [step] at hs
    split_ifs at hs with hj
    obtain ⟨s, h1, hs⟩ := bind_eq_some_iff.mp hs
    cases hs
    exact moves_postExit hj h1
  | event e =>
    obtain ⟨w1, hd, hs⟩ := bind_eq_some_iff.mp hs
    obtain ⟨s, hp, hs⟩ := bind_eq_some_iff.mp hs
    cases hs
    have hmoves : Moves D cfg ok w .free (w1.withDag s) .free := by
      cases e with
      | submit id j => exact moves_submitEvent hI hd hp
      | terminated id exit => exact moves_terminated hI hquirk hd hp
      | aborted id => exact moves_aborted hI hquirk hd hp
      | postTerm id j exit => exact moves_postTerm hI hquirk hd hp
      | preSkip id j => exact moves_preSkip hd hp
    exact hmoves.trans (log _ .free _).moves

/-! ## Runs -/

variable (D cfg ok) in
/-- The steps show no quirks but those that are `ok`. -/
def World.OnlyQuirks : List (Label n) → World n → Prop
  | [], _ => True
  | l :: ls, w => (∀ q, w.quirk D cfg l = some q → ok q) ∧
      ∀ w', w.step D cfg l = some w' → OnlyQuirks ls w'

theorem onlyQuirks_of_forall (hok : ∀ q, ok q) (w : World n) : OnlyQuirks D cfg ok ls w := by
  induction ls generalizing w with
  | nil => trivial
  | cons l ls ih => exact ⟨fun q _ => hok q, fun w' _ => ih w'⟩

/-- **The steps of a run are a chain of moves.** -/
theorem moves_of_steps (hI : Inv D cfg {} w .free) (hok : ok .deferred)
    (hquirk : OnlyQuirks D cfg ok ls w) (hs : steps D cfg ls w = some w') :
    Moves D cfg ok w .free w' .free := by
  induction ls generalizing w with
  | nil =>
    cases hs
    exact .refl
  | cons l ls ih =>
    obtain ⟨w1, h1, hs⟩ := bind_eq_some_iff.mp hs
    have hmoves := moves_of_step hI (.inl hok) hquirk.1 h1
    exact hmoves.trans (ih (hI.moves hmoves) (hquirk.2 w1 h1) hs)

theorem World.run_cases (hs : run D cfg ls = some w) :
    ∃ w0, start D cfg = some w0 ∧ steps D cfg ls w0 = some w := by
  simpa only [run, bind_eq_bind, bind_eq_some_iff] using hs

theorem moves_of_allowed (hI : Inv D cfg {} w .free)
    (hs : steps D cfg ls w = some w') : Moves D cfg (fun _ => True) w .free w' .free :=
  moves_of_steps hI trivial (onlyQuirks_of_forall (fun _ => trivial) w) hs

/-- **Every state of a run has the invariant.** -/
theorem Inv.run (hs : run D cfg ls = some w) : Inv D cfg {} w .free := by
  obtain ⟨w0, h0, hs⟩ := run_cases hs
  have hI := Inv.start h0
  exact hI.moves (moves_of_allowed hI hs)

/-! ## Throttles -/

theorem sum_eq_card (P : Fin n → Prop) [DecidablePred P] (f : Fin n → ℕ)
    (hf : ∀ i, f i = if P i then 1 else 0) : ∑ i, (f i : ℤ) = (Finset.univ.filter P).card := by
  simp [hf]

theorem Inv.length_clusters (hI : Inv D cfg {} w .free) (i : Fin n) :
    (w.clusters i).length = if w.clusters i ≠ [] then 1 else 0 := by
  have hplaces := (hI.node i nofun).places
  simp only [View.places, view] at hplaces
  split_ifs with hne
  · have hpos := List.length_pos_iff.mpr hne
    omega
  · simpa using hne

/-- **The throttles count correctly**: in every run, the counters are those of the nodes with a
cluster that is not over, the ready queue has only ready nodes, each once, and the limits are kept.
-/
theorem throttles_count {ls : List (Label n)} (hs : run D cfg ls = some w) :
    w.dag.numJobsSubmitted = (Finset.univ.filter fun i => w.clusters i ≠ []).card ∧
      (∀ k, w.dag.currentJobs k = (Finset.univ.filter fun i =>
        w.clusters i ≠ [] ∧ (D.node i).throttle = some k).card) ∧
      w.dag.readyQ.Nodup ∧ (∀ i ∈ w.dag.readyQ, (w.dag.jobs i).status = .ready) ∧
      (cfg.maxJobs ≠ 0 → w.dag.numJobsSubmitted ≤ cfg.maxJobs) ∧
      ∀ k m, cfg.categoryMax k = some m → w.dag.currentJobs k ≤ m := by
  have hI := Inv.run hs
  refine ⟨?_, fun k => ?_, ?_, fun i hi => ?_, fun hmax => hI.maxJobs.resolve_left hmax,
    hI.categoryMax⟩
  · exact hI.numSubmitted.trans (sum_eq_card _ _ hI.length_clusters)
  · rw [hI.current k, ← sum_eq_card _ (fun i => if w.clusters i ≠ [] ∧ (D.node i).throttle = some k
      then 1 else 0) fun _ => rfl]
    refine Finset.sum_congr rfl fun i _ => ?_
    change (if (D.node i).throttle = some k then ((w.clusters i).length : ℤ) else 0) = _
    rw [hI.length_clusters i]
    by_cases hk : (D.node i).throttle = some k <;> by_cases hne : w.clusters i = [] <;>
      simp [hk, hne]
  · rw [List.nodup_iff_count_le_one]
    intro i
    have hplaces := (hI.node i nofun).places
    simp only [View.places, view] at hplaces
    omega
  · refine (hI.node i nofun).ready ?_
    have hcount := List.count_pos_iff.mpr hi
    simp only [view]
    omega

def twoNodes : DagFile 2 where
  node _ := { children := [], throttle := some 0 }
  children_nodup := by decide

theorem throttles_count_twoNodes : ∃ w : World 2, run twoNodes { categoryMax := fun _ => some 1 }
      [.submit [.accepted 5 1, .accepted 6 1]] = some w ∧ w.dag.currentJobs 0 = 1 ∧
      w.dag.currentJobs 0 ≤ 1 := by
  have hrun : run twoNodes { categoryMax := fun _ => some 1 }
      [.submit [.accepted 5 1, .accepted 6 1]] = some _ := rfl
  exact ⟨_, hrun, rfl, (throttles_count hrun).2.2.2.2.2 0 1 rfl⟩

end Condor.Dagman
