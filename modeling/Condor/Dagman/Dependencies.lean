import Condor.Dagman.Turns

/-!
# DAGMan respects the dependencies

If the nodes that are marked `DONE` are closed under parents, then the descendants of a node that is
not done all wait. A futile node is therefore nowhere, and a node that has been started has parents
that are done.

* **`parents_done`**.
-/

namespace Condor.Dagman

open Bool World

variable {n : ℕ} {D : DagFile n} {cfg : Config} {ok : Quirk → Prop} {w w' : World n} {h h' : Hold n}
  {i j p : Fin n}

/-- The nodes that are marked `DONE` are closed under parents. -/
def DagFile.Closed (D : DagFile n) : Prop :=
  ∀ p c, c ∈ (D.node p).children → (D.node c).preDone = true → (D.node p).preDone = true

/-! ## Descendants -/

def Marked (D : DagFile n) (w : World n) : Prop :=
  ∀ i, (D.node i).preDone = true → (w.dag.jobs i).countedAsDone = true

section

variable (hD : D.Closed) (hI : Inv D cfg {} w h) (hM : Marked D w)
  (hp : (w.dag.jobs p).countedAsDone = false)
include hD hI hM hp

theorem Inv.waiting_of_child (hc : i ∈ (D.node p).children) :
    isWaiting D i (w.dag.jobs i) = true ∧ (w.dag.jobs i).countedAsDone = false := by
  have hw : isWaiting D i (w.dag.jobs i) = true :=
    (isWaiting_iff (hI.waits i)).mpr ⟨p, mem_parents.mpr hc, by simp [hp]⟩
  refine ⟨hw, ?_⟩
  have hheld : h.node ≠ some i := by
    intro heq
    obtain ⟨m, rfl⟩ := Hold.node_eq_some.mp heq
    exact absurd ((hI.held i m rfl).waiting.symm.trans hw) false_ne_true
  by_contra hcount
  obtain ⟨-, -, hor⟩ := (hI.node i hheld).counted (eq_true_of_not_eq_false hcount)
  rcases hor with hno | hpre
  · exact absurd (hno.symm.trans hw) false_ne_true
  · have hmarked := hM p (hD p i hc hpre)
    exact absurd (hp.symm.trans hmarked) false_ne_true

/-- **The descendants of a node that is not done wait.** -/
theorem Inv.waiting_of_descendant (hi : Descendant D p i) :
    isWaiting D i (w.dag.jobs i) = true ∧ (w.dag.jobs i).countedAsDone = false := by
  induction hi with
  | single hc => exact hI.waiting_of_child hD hM hp hc
  | tail _ hc ih => exact hI.waiting_of_child hD hM ih.2 hc

end

/-! ## Futile nodes -/

/-- **Futile nodes are nowhere, and not done.** -/
structure Settled (D : DagFile n) (w : World n) (h : Hold n) : Prop where
  marked : Marked D w
  futile : ∀ i, h.node ≠ some i → (w.view i).job.status = .futile →
    (w.view i).job.countedAsDone = false ∧ (w.view i).places = 0

theorem Inv.uncounted_of_spreads (hI : Inv D cfg {} w h) (hout : Spreads D ok w h h' j) :
    (w.dag.jobs j).countedAsDone = false := by
  rcases hout with ⟨m, rfl, -⟩ | ⟨rfl, -, hc, -⟩
  · exact (hI.held j m rfl).counted
  · have hpos := List.length_pos_iff.mpr hc
    refine ((hI.node j nofun).active ?_).2
    simp only [View.places, view]
    omega

theorem Settled.move (hD : D.Closed) (hI : Inv D cfg {} w h) (hS : Settled D w h)
    (hm : Move D cfg ok w h w' h') : Settled D w' h' where
  marked := fun i hi => hm.frame.counted i (hS.marked i hi)
  futile := fun i hi' hst => by
    cases hm.turn hI hi' with
    | same hh ha =>
      obtain ⟨hcount, hplaces⟩ := hS.futile i hh (ha.status.symm.trans hst)
      exact ⟨ha.counted.trans hcount, Nat.le_zero.mp (ha.places.trans hplaces.le)⟩
    | other _ _ hf => exact absurd hst hf
    | fault _ _ _ hs => exact absurd (hs.symm.trans hst) nofun
    | futile j _ hh hj _ _ hout hv =>
      obtain ⟨hwait, hcount⟩ :=
        hI.waiting_of_descendant hD hS.marked (hI.uncounted_of_spreads hout) hj
      rw [hv]
      exact ⟨hcount, ((hI.node i hh).waiting hwait).1⟩
    | failed m heq _ hv =>
      subst heq
      rw [hv]
      exact ⟨(hI.held i m rfl).counted, (hI.held i m rfl).places⟩

theorem Settled.start (hs : start D cfg = some w) : Settled D w .free where
  marked := fun i hi =>
    (Inv.start hs).node i nofun |>.done (by simp) ((Fresh.start hs).preDone i hi)
  futile := fun i _ hst => absurd hst ((Fresh.start hs).status_ne i).2.1

theorem Settled.run {ls : List (Label n)} (hD : D.Closed) (hs : run D cfg ls = some w) :
    Settled D w .free := by
  obtain ⟨w0, h0, hs⟩ := run_cases hs
  have hI := Inv.start h0
  exact (moves_of_allowed hI hs).induct (fun _ _ _ _ hI hS hm => hS.move hD hI hm) hI
    (Settled.start h0)

/-! ## Dependencies -/

theorem NodeOk.not_waiting {r : Rest n} {hash : Bool × ℤ → Option (Fin n)}
    {info : CondorID → JobInfo} {v : View n} (hn : NodeOk D r hash info i v)
    (hi : v.ready ≠ 0 ∨ v.job.status = .prerun ∨ v.job.status = .submitted ∨
      v.job.status = .postrun ∨ v.job.status = .done) :
    isWaiting D i v.job = false ∨ (D.node i).preDone = true := by
  by_contra hcon
  push Not at hcon
  obtain ⟨hw, hpre⟩ := hcon
  obtain ⟨hplaces, hst⟩ := hn.waiting (by simpa using hw)
  have hready : v.ready = 0 := (View.nowhere hplaces).ready
  rcases hst with hst | hst | ⟨-, hdone⟩
  · simp [hst, hready] at hi
  · simp [hst, hready] at hi
  · exact hpre hdone

/-- **DAGMan respects the dependencies**: in every run, the parents of a node that is ready or has
been started are done. -/
theorem parents_done {ls : List (Label n)} (hD : D.Closed) (hs : run D cfg ls = some w)
    (hi : i ∈ w.dag.readyQ ∨ (w.dag.jobs i).status = .prerun ∨
      (w.dag.jobs i).status = .submitted ∨ (w.dag.jobs i).status = .postrun ∨
      (w.dag.jobs i).status = .done) (hp : p ∈ D.parents i) : (w.dag.jobs p).status = .done := by
  have hI := Inv.run hs
  have hS := Settled.run hD hs
  have hready : i ∈ w.dag.readyQ → (w.view i).ready ≠ 0 := by
    intro hmem
    have hcount := List.count_pos_iff.mpr hmem
    simp only [view]
    omega
  have hcount : (w.view p).job.countedAsDone = true := by
    rcases (hI.node i Hold.free_node).not_waiting (hi.imp_left hready) with hw | hpre
    · by_contra hcount
      have hw' := (isWaiting_iff (hI.waits i)).mpr ⟨p, hp, by
        have hcount' : (w.dag.jobs p).countedAsDone = false := eq_false_of_not_eq_true hcount
        simp [hcount']⟩
      exact absurd (hw.symm.trans hw') false_ne_true
    · exact hS.marked p (hD p i (mem_parents.mp hp) hpre)
  obtain ⟨-, hst, -⟩ := (hI.node p Hold.free_node).counted hcount
  refine hst.resolve_right fun hfutile => ?_
  have hno := (hS.futile p Hold.free_node hfutile).1
  exact absurd (hno.symm.trans hcount) false_ne_true

def chain : DagFile 2 where
  node j := { children := if j = 0 then [1] else [] }
  children_nodup := by decide

def chainRun : List (Label 2) :=
  [.submit [.accepted 5 1], .event (.submit ⟨5, 0, 0⟩ 0),
    .event (.terminated ⟨5, 0, 0⟩ (.exited 0))]

theorem parents_done_chain : ∃ w : World 2, run chain {} chainRun = some w ∧
    1 ∈ w.dag.readyQ ∧ (w.dag.jobs 0).status = .done := by
  have hclosed : chain.Closed := by
    intro p c _ hpre
    cases hpre
  have hrun : run chain {} chainRun = some _ := rfl
  have hparent : (0 : Fin 2) ∈ chain.parents 1 := by decide
  refine ⟨_, hrun, by decide, ?_⟩
  exact parents_done hclosed hrun (.inl (by decide)) hparent

/-- **Done is final**: however a run goes on, a node that is done stays done, and nothing of it is
in a queue, a script or a cluster. -/
theorem done_stays {ls ls' : List (Label n)} (hD : D.Closed) (hs : run D cfg ls = some w)
    (hi : (w.dag.jobs i).status = .done) (hs' : steps D cfg ls' w = some w') :
    (w'.dag.jobs i).status = .done ∧ (w'.view i).places = 0 := by
  have hI := Inv.run hs
  have hmoves := moves_of_allowed hI hs'
  obtain ⟨hS', hcount⟩ :=
    hmoves.induct (P := fun w h => Settled D w h ∧ (w.dag.jobs i).countedAsDone = true)
      (fun _ _ _ _ hI hP hm => ⟨hP.1.move hD hI hm, hm.frame.counted i hP.2⟩) hI
      ⟨Settled.run hD hs, (hI.node i Hold.free_node).done (by simp) hi⟩
  obtain ⟨hplaces, hst, -⟩ := ((hI.moves hmoves).node i Hold.free_node).counted hcount
  refine ⟨hst.resolve_right fun hfutile => ?_, hplaces⟩
  have hno := (hS'.futile i Hold.free_node hfutile).1
  exact absurd (hno.symm.trans hcount) false_ne_true

theorem done_stays_chain : ∃ w w' : World 2, run chain {} chainRun = some w ∧
    steps chain {} [.submit [.accepted 6 1]] w = some w' ∧ (w'.dag.jobs 0).status = .done := by
  have hclosed : chain.Closed := by
    intro p c _ hpre
    cases hpre
  have hall : ((run chain {} chainRun).bind (steps chain {} [.submit [.accepted 6 1]])).isSome =
      true := by decide
  obtain ⟨w', hall⟩ := Option.isSome_iff_exists.mp hall
  obtain ⟨w, hrun, hmore⟩ := Option.bind_eq_some_iff.mp hall
  have hdone : (run chain {} chainRun).map (fun w => (w.dag.jobs 0).status) = some .done := rfl
  rw [hrun] at hdone
  exact ⟨w, w', hrun, hmore, (done_stays hclosed hrun (Option.some.inj hdone) hmore).1⟩

end Condor.Dagman
