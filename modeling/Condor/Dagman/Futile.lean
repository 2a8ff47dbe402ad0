import Condor.Dagman.Verdict

/-!
# Futile nodes

Without nodes that are marked `DONE`, a node is futile exactly if an ancestor has failed for good,
as long as no step shows a quirk.

* **`futile_iff`**, **`countFutile_frame`**.
-/

namespace Condor.Dagman

open Option World

variable {n : ℕ} {D : DagFile n} {cfg : Config} {ok : Quirk → Prop} {w w' : World n} {h h' : Hold n}
  {i j p : Fin n}

/-! ## All descendants become futile -/

def IsFutile (s : State n) (i : Fin n) : Prop := (s.jobs i).status = .futile

theorem isFutile_setStatus {s : State n} {c : Fin n} :
    IsFutile (s.setStatus c .futile) i ↔ i = c ∨ IsFutile s i := by
  by_cases hi : i = c
  · subst hi
    simp [IsFutile, State.setStatus]
  · simp [IsFutile, State.setStatus, modify_of_ne hi, hi]

variable {s s' : State n} {l : ℕ} {m : ℤ}

theorem setDescendantsToFutile_isFutile (hs : setDescendantsToFutile D l s j = some (s', m)) :
    (∀ i, IsFutile s i → IsFutile s' i) ∧ ∀ i, IsFutile s' i → IsFutile s i ∨ Descendant D j i := by
  refine setDescendantsToFutile_induct (k := 0) (P := fun s' _ =>
    (∀ i, IsFutile s i → IsFutile s' i) ∧ ∀ i, IsFutile s' i → IsFutile s i ∨ Descendant D j i)
    (fun c s1 _ hc hP _ _ _ => ⟨fun i hi => ?_, fun i hi => ?_⟩) hs ⟨fun _ => id, fun _ => .inl⟩
  · exact isFutile_setStatus.mpr (.inr (hP.1 i hi))
  · rcases isFutile_setStatus.mp hi with rfl | hi
    · exact .inr hc
    · exact hP.2 i hi

section

variable (hD : D.Acyclic) (hpre : ∀ i, (D.node i).preDone = false)
include hD hpre

/-- The loop over the children makes all their descendants futile, if none of them is skipped. -/
theorem setChildrenToFutile_all {cs : List (Fin n)} {k m : ℤ}
    (hrec : ∀ {s s' : State n} {c : Fin n} {m : ℤ}, setDescendantsToFutile D l s c = some (s', m) →
      (∀ x e, IsFutile s x → Descendant D c x → Descendant D x e → IsFutile s e) →
        ∀ e, Descendant D c e → IsFutile s' e)
    (hcs : ∀ c ∈ cs, c ∈ (D.node j).children)
    (hs : setChildrenToFutile D (setDescendantsToFutile D l) cs s k = some (s', m))
    (hclosed : ∀ x e, IsFutile s x → Descendant D j x → Descendant D x e → IsFutile s e) :
    (∀ i, IsFutile s i → IsFutile s' i) ∧
      ∀ c ∈ cs, IsFutile s' c ∧ ∀ e, Descendant D c e → IsFutile s' e := by
  induction cs generalizing s k with
  | nil =>
    simp only [setChildrenToFutile, some.injEq, Prod.mk.injEq] at hs
    rw [← hs.1]
    exact ⟨fun _ => id, fun _ h => by cases h⟩
  | cons c cs ih =>
    have hcs' := fun c' hc' => hcs c' (List.mem_cons_of_mem c hc')
    have hjc : Descendant D j c := .single (hcs c List.mem_cons_self)
    simp only [setChildrenToFutile, hpre c, Bool.false_eq_true, if_false] at hs
    split_ifs at hs with hfutile
    · obtain ⟨hmono, hall⟩ := ih hcs' hs hclosed
      refine ⟨hmono, fun c' hc' => ?_⟩
      rcases List.mem_cons.mp hc' with rfl | hc'
      · exact ⟨hmono _ hfutile, fun e he => hmono e (hclosed _ e hfutile hjc he)⟩
      · exact hall c' hc'
    · obtain ⟨⟨s1, m1⟩, h1, hs⟩ := bind_eq_some_iff.mp hs
      obtain ⟨hmono1, hnew1⟩ := setDescendantsToFutile_isFutile h1
      have hbelow : ∀ e, Descendant D c e → IsFutile s1 e := hrec h1 fun x e hx hcx hxe => by
        rcases isFutile_setStatus.mp hx with rfl | hx
        · exact absurd hcx (hD x)
        · exact isFutile_setStatus.mpr (.inr (hclosed x e hx (hjc.trans hcx) hxe))
      have hkeep : ∀ i, IsFutile s i → IsFutile s1 i := fun i hi =>
        hmono1 i (isFutile_setStatus.mpr (.inr hi))
      have hc1 : IsFutile s1 c := hmono1 c (isFutile_setStatus.mpr (.inl rfl))
      -- what has become futile lies below the child, so that all below it is futile too
      have hclosed1 : ∀ x e, IsFutile s1 x → Descendant D j x → Descendant D x e →
          IsFutile s1 e := by
        intro x e hx hjx hxe
        rcases hnew1 x hx with hx | hcx
        · rcases isFutile_setStatus.mp hx with rfl | hx
          · exact hbelow e hxe
          · exact hkeep e (hclosed x e hx hjx hxe)
        · exact hbelow e (hcx.trans hxe)
      obtain ⟨hmono, hall⟩ := ih hcs' hs hclosed1
      refine ⟨fun i hi => hmono i (hkeep i hi), fun c' hc' => ?_⟩
      rcases List.mem_cons.mp hc' with rfl | hc'
      · exact ⟨hmono _ hc1, fun e he => hmono e (hbelow e he)⟩
      · exact hall c' hc'

theorem setDescendantsToFutile_all (hs : setDescendantsToFutile D l s j = some (s', m))
    (hclosed : ∀ x e, IsFutile s x → Descendant D j x → Descendant D x e → IsFutile s e) :
    ∀ e, Descendant D j e → IsFutile s' e := by
  induction l generalizing j s s' m with
  | zero => cases hs
  | succ l ih =>
    obtain ⟨-, hall⟩ := setChildrenToFutile_all hD hpre (fun hs hc => ih hs hc) (fun _ hc => hc) hs
      hclosed
    intro e he
    obtain ⟨c, hc, hce⟩ := Relation.TransGen.head'_iff.mp he
    rcases Relation.reflTransGen_iff_eq_or_transGen.mp hce with rfl | hce
    · exact (hall e hc).1
    · exact (hall c hc).2 e hce

/-- **All descendants become futile.** -/
theorem futile_of_countFutile (hs : countFutile D s j = some s')
    (hclosed : ∀ x e, IsFutile s x → Descendant D j x → Descendant D x e → IsFutile s e)
    (hi : Descendant D j i) : IsFutile s' i := by
  obtain ⟨⟨s1, m⟩, h1, hs⟩ := bind_eq_some_iff.mp hs
  cases hs
  exact setDescendantsToFutile_all hD hpre h1 hclosed i hi

end

/-! ## Futile and dead nodes stay so -/

theorem not_taken (hm : Move D cfg ok w h w' h') (hh : h.node ≠ some i)
    (hp : (w.view i).places = 0) : h'.node ≠ some i := fun hh' => hm.places_of_taken hh hh' hp

theorem Settled.futile_stays (hI : Inv D cfg {} w h) (hS : Settled D w h)
    (hm : Move D cfg ok w h w' h') (hh : h.node ≠ some i) (hst : (w.view i).job.status = .futile) :
    h'.node ≠ some i ∧ (w'.view i).job.status = .futile := by
  have hplaces := (hS.futile i hh hst).2
  have hh' := not_taken hm hh hplaces
  refine ⟨hh', ?_⟩
  cases hm.turn hI hh' with
  | same _ ha => exact ha.status.trans hst
  | other h0 => exact absurd hst (h0.resolve_left hh).2
  | fault _ _ hc => exact absurd (View.nowhere hplaces).clusters hc
  | futile _ _ _ _ _ _ _ hv =>
    rw [hv]
  | failed m heq => exact absurd (congrArg Hold.node heq) hh

structure Dead (w : World n) (h : Hold n) (a : Fin n) : Prop where
  node : h.node ≠ some a
  status : (w.view a).job.status = .error
  clusters : (w.view a).clusters = []

theorem Dead.places (hI : Inv D cfg {} w h) (hd : Dead w h i) : (w.view i).places = 0 := by
  have hn := hI.node i hd.node
  have hst := hd.status
  have hready : (w.view i).ready = 0 := by
    by_contra hne
    exact absurd (hst.symm.trans (hn.ready hne)) nofun
  have hpre : (w.view i).pre = 0 ∧ (w.view i).skips = [] := by
    by_contra hne
    have hne' : (w.view i).pre ≠ 0 ∨ (w.view i).skips ≠ [] := by
      rwa [not_and_or] at hne
    rcases hn.pre hne' with hcon | hcon <;> exact absurd (hst.symm.trans hcon) nofun
  have hpost : (w.view i).post = 0 ∧ (w.view i).posts = [] := by
    by_contra hne
    have hne' : (w.view i).post ≠ 0 ∨ (w.view i).posts ≠ [] := by
      rwa [not_and_or] at hne
    rcases hn.post hne' with hcon | hcon <;> exact absurd (hst.symm.trans hcon) nofun
  simp [View.places, hready, hpre, hpost, hd.clusters]

theorem Dead.stays (hD : D.Closed) (hI : Inv D cfg {} w h) (hS : Settled D w h)
    (hm : Move D cfg ok w h w' h') (hd : Dead w h i) : Dead w' h' i := by
  have hh' := not_taken hm hd.node (hd.places hI)
  cases hm.turn hI hh' with
  | same _ ha => exact ⟨hh', ha.status.trans hd.status, ha.clusters.mpr hd.clusters⟩
  | other h0 => exact absurd hd.status (h0.resolve_left hd.node).1
  | fault _ h0 => exact absurd hd.status h0
  | futile j _ _ hj _ _ hout =>
    obtain ⟨hwait, -⟩ := hI.waiting_of_descendant hD hS.marked (hI.uncounted_of_spreads hout) hj
    have hst := ((hI.node i hd.node).waiting hwait).2
    simp [hd.status] at hst
  | failed m heq => exact absurd (congrArg Hold.node heq) hd.node

/-! ## The futile nodes are those below dead nodes -/

/-- **The futile nodes, exactly.** -/
structure Exact (D : DagFile n) (w : World n) (h : Hold n) : Prop where
  dead : ∀ a d, Dead w h a → Descendant D a d → (w.view d).job.status = .futile
  marked : ∀ j d, h = .held j .marked → Descendant D j d → (w.view d).job.status = .futile
  futile : ∀ i, h.node ≠ some i → (w.view i).job.status = .futile →
    ∃ a, Descendant D a i ∧ (Dead w h a ∨ h = .held a .marked)
  pending : ∀ i, h.node ≠ some i → (w.view i).job.status = .error →
    ∀ c ∈ (w.view i).clusters, c.pending = []
  count : w.dag.numNodesFutile =
    ∑ i, if h.node ≠ some i ∧ (w.view i).job.status = .futile then (1 : ℤ) else 0

theorem Exact.closed (hE : Exact D w h) (hh : h.node ≠ some i)
    (hst : (w.view i).job.status = .futile) (hp : Descendant D i p) :
    (w.view p).job.status = .futile := by
  obtain ⟨a, ha, hdead | hheld⟩ := hE.futile i hh hst
  · exact hE.dead a p hdead (ha.trans hp)
  · exact hE.marked a p hheld (ha.trans hp)

theorem Inv.node_ne_of_descendant (hD : D.Closed) (hI : Inv D cfg {} w h) (hM : Marked D w)
    (hp : (w.dag.jobs p).countedAsDone = false) (hi : Descendant D p i) : h.node ≠ some i := by
  intro heq
  obtain ⟨m, rfl⟩ := Hold.node_eq_some.mp heq
  have hwait := (hI.waiting_of_descendant hD hM hp hi).1
  exact absurd ((hI.held i m rfl).waiting.symm.trans hwait) Bool.false_ne_true

theorem Dead.uncounted (hI : Inv D cfg {} w h) (hd : Dead w h i) :
    (w.dag.jobs i).countedAsDone = false := by
  by_contra hc
  obtain ⟨-, hst, -⟩ := (hI.node i hd.node).counted (Bool.eq_true_of_not_eq_false hc)
  simp [hd.status] at hst

section Quirkless

variable (hD : D.Acyclic) (hpre : ∀ i, (D.node i).preDone = false) (hok : ∀ q, ok q → q = .deferred)
  (hI : Inv D cfg {} w h) (hS : Settled D w h) (hE : Exact D w h) (hm : Move D cfg ok w h w' h')

include hpre in
theorem closed_of_unmarked : D.Closed := fun _ c _ hc => absurd ((hpre c).symm.trans hc) nofun

include hpre hok hI hS hE hm in
theorem Exact.move_dead {a d : Fin n} (hd : Dead w' h' a) (had : Descendant D a d) :
    (w'.view d).job.status = .futile := by
  have hclosed := closed_of_unmarked hpre
  have hstay : ∀ d, h.node ≠ some d → (w.view d).job.status = .futile →
      (w'.view d).job.status = .futile := fun d hh hst => (hS.futile_stays hI hm hh hst).2
  cases hm.turn hI hd.node with
  | same hh ha =>
    have hdead : Dead w h a := ⟨hh, ha.status.symm.trans hd.status, ha.clusters.mp hd.clusters⟩
    exact hstay d (hI.node_ne_of_descendant hclosed hS.marked (hdead.uncounted hI) had)
      (hE.dead a d hdead had)
  | other _ he => exact absurd hd.status he
  | fault _ _ _ _ hc => exact absurd hd.clusters hc
  | futile _ _ _ _ _ _ _ hv =>
    have hst := hd.status
    rw [hv] at hst
    cases hst
  | failed m heq hs hv hq =>
    subst heq
    obtain ⟨-, hmark⟩ := hq.resolve_left fun hstuck => absurd (hok _ hstuck) nofun
    rcases hmark with rfl | ⟨-, hun | hnil⟩
    · refine hstay d ?_ (hE.marked a d rfl had)
      exact hI.node_ne_of_descendant hclosed hS.marked (hI.held a .marked rfl).counted had
    · exact absurd (hok _ hun) nofun
    · exact absurd hnil (children_ne_nil had)

include hD hpre hI hS hE hm in
theorem Exact.move_marked (hh' : h' = .held j .marked) (hj : Descendant D j i) :
    (w'.view i).job.status = .futile := by
  have hclosed := closed_of_unmarked hpre
  have hkeep : h = .held j .marked → (w'.view i).job.status = .futile := by
    rintro rfl
    refine (hS.futile_stays hI hm ?_ (hE.marked j i rfl hj)).2
    exact hI.node_ne_of_descendant hclosed hS.marked (hI.held j .marked rfl).counted hj
  cases hm with
  | log | touch => exact hkeep hh'
  | futile j' m s hm' hs =>
    cases hh'
    have huncounted := (hI.held j m rfl).counted
    refine futile_of_countFutile hD hpre hs (fun x e hx hjx hxe => ?_) hj
    exact hE.closed (hI.node_ne_of_descendant hclosed hS.marked huncounted hjx) hx hxe
  | endLast =>
    split at hh' <;> simp at hh'
  | _ => cases hh'

include hD hpre hok hI hS hE hm in
theorem Exact.move_futile (hh' : h'.node ≠ some i) (hst : (w'.view i).job.status = .futile) :
    ∃ a, Descendant D a i ∧ (Dead w' h' a ∨ h' = .held a .marked) := by
  have hclosed := closed_of_unmarked hpre
  cases hturn : hm.turn hI hh' with
  | other _ _ hf => exact absurd hst hf
  | fault _ _ _ hs => exact absurd (hs.symm.trans hst) nofun
  | futile j _ _ hj _ _ hout =>
    rcases hout with ⟨m, -, hheld⟩ | ⟨-, -, -, -, hearly | hnil⟩
    · exact ⟨j, hj, .inr hheld⟩
    · exact absurd (hok _ hearly) nofun
    · exact absurd hnil (children_ne_nil hj)
  | failed m _ hs hv =>
    rw [hv] at hst
    rcases hs with hs | ⟨-, hself⟩
    · exact absurd (hs.symm.trans hst) nofun
    · exact absurd hself (hD i)
  | same hh ha =>
    obtain ⟨a, hai, hdead | hheld⟩ := hE.futile i hh (ha.status.symm.trans hst)
    · exact ⟨a, hai, .inl (hdead.stays hclosed hI hS hm)⟩
    · subst hheld
      have hne := children_ne_nil hai
      refine ⟨a, hai, ?_⟩
      cases hm with
      | log | touch => exact .inr rfl
      | futile _ _ _ hmark => simp at hmark
      | enqueue _ _ g p _ hput | prerun _ _ hput =>
        have hhold := (hput.resolve_left nofun).2.resolve_right hne
        exact absurd (hok _ hhold) nofun
      | fail _ _ hs =>
        have herror := hs.resolve_right fun hself => hD a hself.2
        exact .inl ⟨nofun, herror, (hI.held a .marked rfl).nowhere.clusters⟩
      | stuck _ _ _ _ hstuck => exact absurd (hok _ hstuck) nofun
      | done _ _ _ hput => simp at hput

def futileSum (h : Hold n) (s : State n) : ℤ :=
  ∑ i, if h.node ≠ some i ∧ (s.jobs i).status = .futile then 1 else 0

include hD in
theorem countFutile_sum {s s' : State n} (hs : countFutile D s j = some s')
    (hh : h.node = some j ∨ h = .free) :
    s'.numNodesFutile - s.numNodesFutile = futileSum h s' - futileSum h s := by
  let P : State n → ℤ → Prop := fun s1 k => s1.numNodesFutile = s.numNodesFutile ∧
    futileSum h s1 = futileSum h s + k
  have hstep : ∀ c s1 k, Descendant D j c → P s1 k → (s1.jobs c).status ≠ .futile →
      P (s1.setStatus c .futile) (k + 1) := by
    rintro c s1 k hc ⟨hnum, hsum⟩ hfutile
    have hnode : h.node ≠ some c := by
      rcases hh with hh | rfl
      · rw [hh]
        rintro heq
        exact hD j (some.inj heq ▸ hc)
      · exact nofun
    refine ⟨hnum, ?_⟩
    rw [futileSum, sum_update c fun i hi => by simp only [State.setStatus, modify_of_ne hi]; rfl,
      ← futileSum, hsum]
    simp only [State.setStatus, modify_self, hnode, ne_eq, not_false_eq_true, and_self, if_true,
      hfutile, and_false, if_false]
    omega
  obtain ⟨s1, k, rfl, hnum, hsum⟩ := countFutile_induct
    (fun c s1 k hc hP hfutile _ _ => hstep c s1 k hc hP hfutile) hs ⟨rfl, (add_zero _).symm⟩
  change s1.numNodesFutile + k - _ = futileSum h s1 - _
  omega

include hD hpre hok hI hS hE hm in
/-- **A move keeps the futile nodes exact.** -/
theorem Exact.move : Exact D w' h' where
  dead := fun _ _ hd had => hE.move_dead hpre hok hI hS hm hd had
  marked := fun _ _ hh' hj => hE.move_marked hD hpre hI hS hm hh' hj
  futile := fun _ hh' hst => hE.move_futile hD hpre hok hI hS hm hh' hst
  pending := fun i hh' hst => by
    cases hm.turn hI hh' with
    | same hh ha => exact ha.pending (hE.pending i hh (ha.status.symm.trans hst))
    | other _ he => exact absurd hst he
    | fault _ _ _ _ _ hp => exact hp
    | futile _ _ _ _ _ _ _ hv =>
      rw [hv] at hst
      cases hst
    | failed m heq _ hv =>
      subst heq
      rw [hv, (hI.held i m rfl).nowhere.clusters]
      exact nofun
  count := by
    have hold := hE.count
    by_cases hmark : ∃ j s, w' = w.withDag s ∧ countFutile D w.dag j = some s ∧
        h'.node = h.node ∧ (h.node = some j ∨ h = .free)
    · obtain ⟨j, s, rfl, hs, hnode, hout⟩ := hmark
      have hsum := countFutile_sum hD hs hout
      have hold' : w.dag.numNodesFutile = futileSum h w.dag := hold
      rw [hnode]
      change s.numNodesFutile = futileSum h s
      omega
    · rw [hm.frame.futile.resolve_left hmark, hold]
      refine Finset.sum_congr rfl fun i _ => if_congr ⟨?_, ?_⟩ rfl rfl
      · rintro ⟨hh, hst⟩
        exact hS.futile_stays hI hm hh hst
      · rintro ⟨hh', hst⟩
        cases hm.turn hI hh' with
        | same hh ha => exact ⟨hh, ha.status.symm.trans hst⟩
        | other _ _ hf => exact absurd hst hf
        | fault _ _ _ hs => exact absurd (hs.symm.trans hst) nofun
        | futile j s _ _ hw' hs hout =>
          refine absurd ⟨j, s, hw', hs, ?_⟩ hmark
          rcases hout with ⟨m, rfl, rfl⟩ | ⟨rfl, rfl, -⟩
          · exact ⟨rfl, .inl rfl⟩
          · exact ⟨rfl, .inr rfl⟩
        | failed m _ hs hv =>
          rw [hv] at hst
          rcases hs with hs | ⟨-, hself⟩
          · exact absurd (hs.symm.trans hst) nofun
          · exact absurd hself (hD i)

end Quirkless

theorem Exact.start (hs : start D cfg = some w) : Exact D w .free := by
  have hfresh := Fresh.start hs
  refine ⟨fun a d hd _ => ?_, nofun, fun i _ hst => ?_, fun i _ hst => ?_, ?_⟩
  · exact absurd hd.status (hfresh.status_ne a).1
  · exact absurd hst (hfresh.status_ne i).2.1
  · exact absurd hst (hfresh.status_ne i).1
  · rw [hfresh.numNodesFutile]
    exact (Finset.sum_eq_zero fun i _ => if_neg fun hcon => (hfresh.status_ne i).2.1 hcon.2).symm

/-! ## Finally failed nodes -/

/-- The node has no jobs in the queue, and it is not started again in any continuation. -/
def FinallyFailed (D : DagFile n) (cfg : Config) (w : World n) (a : Fin n) : Prop :=
  (w.dag.jobs a).status = .error ∧ (w.dag.jobs a).queuedNodeJobProcs = 0 ∧
    ∀ ls w', steps D cfg ls w = some w' → (w'.dag.jobs a).status = .error

theorem Dead.finallyFailed (hD : D.Closed) (hI : Inv D cfg {} w .free) (hS : Settled D w .free)
    (hd : Dead w .free i) : FinallyFailed D cfg w i := by
  refine ⟨hd.status, ?_, fun ls w' hs => ?_⟩
  · exact (hI.node i nofun).queued.trans (by simp [hd.clusters])
  · have hkeep := (moves_of_allowed hI hs).induct (P := fun w h => Settled D w h ∧ Dead w h i)
      (fun _ _ _ _ hI hP hm => ⟨hP.1.move hD hI hm, hP.2.stays hD hI hP.1 hm⟩) hI ⟨hS, hd⟩
    exact hkeep.2.status

theorem Exact.dead_of_error (hI : Inv D cfg {} w .free) (hE : Exact D w .free)
    (hst : (w.dag.jobs i).status = .error) (hq : (w.dag.jobs i).queuedNodeJobProcs = 0) :
    Dead w .free i := by
  refine ⟨nofun, hst, ?_⟩
  by_contra hne
  obtain ⟨c, hc⟩ := List.exists_mem_of_ne_nil _ hne
  have hcl := hI.clusters_eq hc
  have hpending := hE.pending i nofun hst c hc
  obtain ⟨-, -, -, hqueued, hok⟩ := (hI.node i nofun).in_cluster hcl
  have hrunning : c.running = [] :=
    List.length_eq_zero_iff.mp (Int.natCast_eq_zero.mp (hqueued.symm.trans hq))
  have hover := hok.notOver
  simp [Cluster.isOver, hpending, hrunning] at hover

theorem World.OnlyQuirks.mono {ok' : Quirk → Prop} {ls : List (Label n)}
    (hmono : ∀ q, ok q → ok' q) (hq : OnlyQuirks D cfg ok ls w) : OnlyQuirks D cfg ok' ls w := by
  induction ls generalizing w with
  | nil => trivial
  | cons l ls ih => exact ⟨fun q hl => hmono q (hq.1 q hl), fun w' hw' => ih (hq.2 w' hw')⟩

/-- **Futile marks mean a failed ancestor**, and are counted, as long as no step of the run shows a
quirk. -/
theorem futile_iff {ls : List (Label n)} {w₀ : World n} (hD : D.Acyclic)
    (hpre : ∀ i, (D.node i).preDone = false) (h₀ : start D cfg = some w₀)
    (hq : OnlyQuirks D cfg (fun _ => False) ls w₀) (hs : steps D cfg ls w₀ = some w) :
    (∀ i, (w.dag.jobs i).status = .futile ↔ ∃ a, Descendant D a i ∧ FinallyFailed D cfg w a) ∧
    w.dag.numNodesFutile = (Finset.univ.filter fun i => (w.dag.jobs i).status = .futile).card := by
  have hclosed := closed_of_unmarked hpre
  have hI0 := Inv.start h₀
  have hmoves : Moves D cfg (· = .deferred) _ _ _ _ :=
    moves_of_steps hI0 rfl (hq.mono fun _ => False.elim) hs
  have hI := hI0.moves hmoves
  obtain ⟨hS, hE⟩ := hmoves.induct (P := fun w h => Settled D w h ∧ Exact D w h)
    (fun _ _ _ _ hI hP hm => ⟨hP.1.move hclosed hI hm,
      hP.2.move hD hpre (fun _ hok => hok) hI hP.1 hm⟩) hI0 ⟨Settled.start h₀, Exact.start h₀⟩
  refine ⟨fun i => ⟨fun hst => ?_, ?_⟩, ?_⟩
  · obtain ⟨a, hai, hdead | hheld⟩ := hE.futile i nofun hst
    · exact ⟨a, hai, hdead.finallyFailed hclosed hI hS⟩
    · cases hheld
  · rintro ⟨a, hai, herror, hqueued, -⟩
    exact hE.dead a i (hE.dead_of_error hI herror hqueued) hai
  · have hfree : ∀ i, (Hold.free : Hold n).node ≠ some i := fun _ => nofun
    have hcount : w.dag.numNodesFutile = ∑ i, if Hold.free.node ≠ some i ∧
      (w.dag.jobs i).status = .futile then (1 : ℤ) else 0 := hE.count
    rw [hcount]
    simp [hfree]

theorem futile_iff_chain : ∃ w₀ w : World 2, start chain {} = some w₀ ∧
    steps chain {} (chainFailed 1) w₀ = some w ∧ (w.dag.jobs 1).status = .futile ∧
      ∃ a, Descendant chain a 1 ∧ FinallyFailed chain {} w a := by
  have hstart : start chain {} = some _ := rfl
  refine ⟨_, _, hstart, rfl, by decide, ?_⟩
  refine ((futile_iff chain_acyclic (fun _ => rfl) hstart ?_
    (rfl : steps chain {} (chainFailed 1) _ = some _)).1 1).mp (by decide)
  refine ⟨(fun _ hq => by cases hq), fun w hw => ?_⟩
  cases hw
  refine ⟨(fun _ hq => by cases hq), fun w hw => ?_⟩
  cases hw
  refine ⟨fun q hq => ?_, fun w hw => trivial⟩
  cases hq

/-- A node with one child, which is not started again after the return value two. -/
def chainUnless : DagFile 2 where
  node j := { chain.node j with retryMax := 1, retryAbortVal := some 2 }
  children_nodup := chain.children_nodup

/-- A node is given up for its return value, and its child is not futile. -/
theorem not_futile_chainUnless : ∃ w : World 2,
    run chainUnless {} (chainFailed 2) = some w ∧ Descendant chainUnless 0 1 ∧
      FinallyFailed chainUnless {} w 0 ∧ (w.dag.jobs 1).status = .ready ∧
      w.dag.numNodesFutile = 0 := by
  have hclosed : chainUnless.Closed := closed_of_unmarked fun _ => rfl
  have hrun : run chainUnless {} (chainFailed 2) = some _ := rfl
  refine ⟨_, hrun, .single (by decide), ?_, by decide, by decide⟩
  exact Dead.finallyFailed hclosed (Inv.run hrun) (Settled.run hclosed hrun) ⟨nofun, rfl, rfl⟩

/-! ## What becoming futile leaves alone

If the nodes that are marked `DONE` are closed under parents, the descendants of a node that is not
done all wait. Otherwise the call goes through a marked node to nodes that run already.
-/

theorem isWaiting_setStatus (s : State n) (c : Fin n) (st : Status) :
    isWaiting D i ((s.setStatus c st).jobs i) = isWaiting D i (s.jobs i) := by
  by_cases hi : i = c
  · subst hi
    rw [State.setStatus, modify_self]
    exact isWaiting_congr rfl
  · rw [State.setStatus, modify_of_ne hi]

theorem setDescendantsToFutile_waiting {l : ℕ} {s s' : State n} {m : ℤ}
    (hs : setDescendantsToFutile D l s j = some (s', m)) (i : Fin n) :
    isWaiting D i (s'.jobs i) = isWaiting D i (s.jobs i) :=
  setDescendantsToFutile_induct (k := 0)
    (fun c s1 _ _ hP _ _ _ => (isWaiting_setStatus s1 c _).trans hP) hs rfl

/-- The call succeeds if the descendants wait; each call goes to fewer descendants. -/
theorem setDescendantsToFutile_isSome (hD : D.Acyclic) {l : ℕ} {s : State n}
    (hl : {i | Descendant D j i}.ncard < l)
    (hw : ∀ i, Descendant D j i → isWaiting D i (s.jobs i) = true) :
    ∃ x, setDescendantsToFutile D l s j = some x := by
  induction l generalizing j s with
  | zero => exact absurd hl (Nat.not_lt_zero _)
  | succ l ih =>
    have hchildren : ∀ (cs : List (Fin n)) (s : State n)
        (k : ℤ), (∀ c ∈ cs, c ∈ (D.node j).children) →
        (∀ i, Descendant D j i → isWaiting D i (s.jobs i) = true) →
        ∃ x, setChildrenToFutile D (setDescendantsToFutile D l) cs s k = some x := by
      intro cs
      induction cs with
      | nil => exact fun s k _ _ => ⟨_, rfl⟩
      | cons c cs ihcs =>
        intro s k hcs hw
        rw [List.forall_mem_cons] at hcs
        have hjc : Descendant D j c := .single hcs.1
        have hlt := Nat.lt_of_lt_of_le (ncard_descendants_lt hD hcs.1) (Nat.le_of_lt_succ hl)
        have hnext : ∀ s1, (∀ i, isWaiting D i (s1.jobs i) = isWaiting D i (s.jobs i)) → ∀ k',
            ∃ x, ((setDescendantsToFutile D l s1 c).bind fun y =>
              setChildrenToFutile D (setDescendantsToFutile D l) cs y.1 (k' + y.2)) = some x := by
          intro s1 hs1 k'
          obtain ⟨⟨s2, m⟩, h2⟩ := ih hlt fun i hi => (hs1 i).trans (hw i (hjc.trans hi))
          rw [h2]
          exact ihcs s2 _ hcs.2 fun i hi =>
            ((setDescendantsToFutile_waiting h2 i).trans (hs1 i)).trans (hw i hi)
        have hsub : canSubmit D c (s.jobs c) = false := by simp [canSubmit, hw c hjc]
        simp only [setChildrenToFutile, hsub, Bool.false_eq_true, if_false]
        split_ifs
        · exact ihcs s k hcs.2 hw
        · exact hnext s (fun _ => rfl) k
        · exact hnext _ (fun i => isWaiting_setStatus s c _) (k + 1)
    exact hchildren _ s 0 (fun _ hc => hc) hw

/-- **Only nodes that cannot run become futile**: in every run, the call for a failed node returns,
and leaves alone the nodes that have been started or could be. -/
theorem countFutile_frame {ls : List (Label n)} {s : State n} (hD : D.Acyclic) (hclosed : D.Closed)
    (hs : World.run D cfg ls = some w) (hj : (w.dag.jobs j).status ≠ .done)
    (hsame : ∀ i, i ≠ j → s.jobs i = w.dag.jobs i) (herror : (s.jobs j).status = .error) :
    ∃ s', countFutile D s j = some s' ∧ ∀ i,
      (s.jobs i).status ∈ [.submitted, .prerun, .postrun, .done, .error] ∨
        (s.jobs i).status = .ready ∧ (∀ p ∈ D.parents i, (s.jobs p).status = .done) →
      (s'.jobs i).status = (s.jobs i).status := by
  have hI := Inv.run hs
  have hS := Settled.run hclosed hs
  have hnode := fun i => hI.node i Hold.free_node
  have hcount : (w.dag.jobs j).countedAsDone = false := by
    by_contra hcount
    have hcount := Bool.eq_true_of_not_eq_false hcount
    have hfutile := ((hnode j).counted hcount).2.1.resolve_left hj
    exact Bool.false_ne_true ((hS.futile j Hold.free_node hfutile).1.symm.trans hcount)
  have hne : ∀ i, Descendant D j i → i ≠ j := fun i hi h => hD j (h ▸ hi)
  have hwait := fun i hi => (hI.waiting_of_descendant hclosed hS.marked hcount hi (i := i)).1
  obtain ⟨⟨s₁, m⟩, h1⟩ := setDescendantsToFutile_isSome hD ncard_descendants_le fun i hi =>
    (hsame i (hne i hi)).symm ▸ hwait i hi
  obtain ⟨s', hs'⟩ : ∃ s', countFutile D s j = some s' := ⟨_, by rw [countFutile, h1]; rfl⟩
  refine ⟨s', hs', fun i hi => ?_⟩
  obtain ⟨jobs, k, rfl, hjobs⟩ := countFutile_eq hs'
  obtain hsame' | ⟨-, hdesc, hfutile, hpre, -⟩ := hjobs i
  · exact congrArg Job.status hsame'
  rw [hsame i (hne i hdesc)] at hi hfutile
  exfalso
  rcases ((hnode i).waiting (hwait i hdesc)).2 with hst | hst | ⟨-, hdone⟩
  · have hst : (w.dag.jobs i).status = .ready := hst
    obtain ⟨p, hp, hcountp⟩ := (isWaiting_iff (hI.waits i)).mp (hwait i hdesc)
    have hdone := (hi.resolve_left (by simp [hst])).2 p hp
    by_cases hpj : p = j
    · subst hpj
      rw [herror] at hdone
      cases hdone
    · rw [hsame p hpj] at hdone
      have hcounted : (w.dag.jobs p).countedAsDone = true := (hnode p).done (by simp) hdone
      exact absurd hcountp (by simp [hcounted])
  · exact hfutile hst
  · exact Bool.false_ne_true (hpre.symm.trans hdone)

theorem countFutile_frame_chain : ∃ w : World 2, World.run chain {} (chainRun.take 2) = some w ∧
    ∃ s, countFutile chain (w.dag.setStatus 0 .error) 0 = some s ∧ (s.jobs 0).status = .error := by
  obtain ⟨w, hrun, hst⟩ : ∃ w : World 2, World.run chain {} (chainRun.take 2) = some w ∧
    (w.dag.jobs 0).status = .submitted := ⟨_, rfl, by decide⟩
  have herror : ((w.dag.setStatus 0 .error).jobs 0).status = .error := by simp [State.setStatus]
  obtain ⟨s, hs, hkeep⟩ := countFutile_frame chain_acyclic (closed_of_unmarked fun _ => rfl) hrun
    (by simp [hst]) (fun i hi => modify_of_ne hi _ _) herror
  exact ⟨w, hrun, s, hs, (hkeep 0 (.inl (by simp))).trans herror⟩

/-- A chain, where the second node is marked, so that the third one runs together with the first. -/
def markedChain : DagFile 3 where
  node j := { children := if j = 0 then [1] else if j = 1 then [2] else [], preDone := j = 1 }
  children_nodup := by decide

def markedRun : List (Label 3) :=
  [.submit [.accepted 5 1, .accepted 6 1], .event (.submit ⟨5, 0, 0⟩ 0),
    .event (.submit ⟨6, 0, 0⟩ 2), .event (.terminated ⟨5, 0, 0⟩ (.exited 1))]

/-- A node becomes futile while its job runs. -/
theorem markedChain_futile :
    ∃ w w' : World 3, World.run markedChain {} (markedRun.take 3) = some w ∧
    (w.dag.jobs 2).status = .submitted ∧ World.run markedChain {} markedRun = some w' ∧
      (w'.dag.jobs 2).status = .futile :=
  ⟨_, _, rfl, by decide, rfl, by decide⟩

end Condor.Dagman
