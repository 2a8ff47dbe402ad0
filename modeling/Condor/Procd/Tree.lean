import Condor.Procd.Lists

/-!
# The tree of families

Every family of the tree has the list of its subfamilies, which is linked from the first child along
the siblings, and each subfamily leads back to it. The table of families has exactly the families of
the tree. Together with the lists of members this is the invariant of the monitor.
-/

namespace Condor.Procd

open List Option Monitor
open Function (update)

variable {M M' : Monitor} {kids : Addr → List Addr} {fams cs l : List Addr} {L : Addr → List Addr}
  {f g p a : Addr}

/-- The links of the tree lead to the subfamilies and back. -/
structure Links (M : Monitor) (kids : Addr → List Addr) (fams : List Addr) : Prop where
  child : ∀ f ∈ fams, M.child f = (kids f).head?
  sibling : ∀ f ∈ fams, Segment M.sibling (kids f) none
  parent : ∀ f ∈ fams, ∀ c ∈ kids f, M.parent c = some f
  root : M.parent M.tree = none

/-- The tree has the families `fams`, with the subfamilies `kids`. -/
structure TreeOf (M : Monitor) (kids : Addr → List Addr) (fams : List Addr) : Prop where
  forest : Forest kids [M.tree] fams
  nodup : (M.everybodyElse :: fams).Nodup
  old : ∀ f ∈ M.everybodyElse :: fams, f < M.made
  links : Links M kids fams
  table : ∀ pid f, M.familyTable pid = some f ↔ f ∈ fams ∧ (M.registration f).rootPid = pid
  mappings : ∀ m ∈ M.pidMappings, m.2 ∈ fams
  mappings_nodup : (M.pidMappings.map Prod.snd).Nodup
  others : (M.registration M.everybodyElse).rootPid = 0
  unwatched : (M.registration M.tree).watcherPid = 0

/-- The invariant: the tree, and the members of its families and of everybody else. -/
structure Inv (M : Monitor) (kids : Addr → List Addr) (fams : List Addr) (L : Addr → List Addr) :
    Prop where
  tree : TreeOf M kids fams
  lists : Lists M (M.everybodyElse :: fams) L
  table : Table M (M.everybodyElse :: fams) L

theorem Links.congr (h : Links M kids fams) (hchild : M'.child = M.child)
    (hsibling : M'.sibling = M.sibling) (hparent : M'.parent = M.parent)
    (htree : M'.tree = M.tree) : Links M' kids fams where
  child := by rw [hchild]; exact h.child
  sibling := by rw [hsibling]; exact h.sibling
  parent := by rw [hparent]; exact h.parent
  root := by rw [hparent, htree]; exact h.root

section

variable (h : TreeOf M kids fams)
include h

theorem TreeOf.congr (hsame : SameTree M M') (hmade : M.made ≤ M'.made) : TreeOf M' kids fams where
  forest := by rw [hsame.tree]; exact h.forest
  nodup := by rw [hsame.everybodyElse]; exact h.nodup
  old := by
    rw [hsame.everybodyElse]
    exact fun f hf => Nat.lt_of_lt_of_le (h.old f hf) hmade
  links := h.links.congr hsame.child hsame.sibling hsame.parent hsame.tree
  table := by rw [hsame.familyTable, hsame.registration]; exact h.table
  mappings := by rw [hsame.pidMappings]; exact h.mappings
  mappings_nodup := by rw [hsame.pidMappings]; exact h.mappings_nodup
  others := by rw [hsame.registration, hsame.everybodyElse]; exact h.others
  unwatched := by rw [hsame.registration, hsame.tree]; exact h.unwatched

theorem TreeOf.fams_nodup : fams.Nodup := (nodup_cons.mp h.nodup).2

theorem TreeOf.ne_everybodyElse (hf : f ∈ fams) : f ≠ M.everybodyElse := fun h' =>
  (nodup_cons.mp h.nodup).1 (by rw [← h']; exact hf)

theorem TreeOf.tree_mem : M.tree ∈ fams :=
  h.forest.roots_subset (mem_singleton_self _)

theorem TreeOf.length_le : fams.length ≤ M.made :=
  length_le_of_old h.fams_nodup fun f hf => h.old f (mem_cons_of_mem _ hf)

theorem TreeOf.parent_eq (hf : f ∈ fams) :
    (f = M.tree ∧ M.parent f = none) ∨ ∃ p ∈ fams, f ∈ kids p ∧ M.parent f = some p := by
  rcases h.forest.exists_parent hf with hroot | ⟨p, hp, hfp⟩
  · rw [mem_singleton.mp hroot]
    exact .inl ⟨rfl, h.links.root⟩
  · exact .inr ⟨p, hp, hfp, h.links.parent p hp f hfp⟩

theorem TreeOf.below_tree : ∃ l, fams = M.tree :: l ∧ Forest kids (kids M.tree) l := by
  have hforest := h.forest
  generalize hcs : [M.tree] = cs at hforest
  cases hforest with
  | nil => cases hcs
  | @cons c cs l1 l2 below beside =>
    obtain ⟨rfl, rfl⟩ := cons.inj hcs
    cases beside
    exact ⟨l1, by simp, below⟩

end

/-! ## Walks -/

/-- **A walk** over siblings visits the nodes below them in their order, if no visit changes the
links downwards. -/
theorem walk_spec {act : Monitor → Addr → Option Monitor} {P : List Addr → Monitor → Prop}
    {child sibling : Addr → Option Addr} {done : List Addr}
    (hact : ∀ done c M, c ∈ fams → c ∉ done → P done M → ∃ M', act M c = some M' ∧
      P (done ++ [c]) M')
    (hlinks : ∀ done M, P done M → M.child = child ∧ M.sibling = sibling)
    (hchild : ∀ f ∈ fams, child f = (kids f).head?)
    (hkids : ∀ f ∈ fams, Segment sibling (kids f) none) (hforest : Forest kids cs l)
    (hsub : l ⊆ fams) (hnodup : (done ++ l).Nodup) (hseg : Segment sibling cs none)
    {n : ℕ} (hn : l.length ≤ n) (hP : P done M) :
    ∃ M', walk act n cs.head? M = some M' ∧ P (done ++ l) M' := by
  induction hforest generalizing n M done with
  | nil => exact ⟨M, by cases n <;> rfl, by simpa using hP⟩
  | @cons c cs l1 l2 below beside ih1 ih2 =>
    obtain _ | n := n
    · simp at hn
    have hlen : l1.length + l2.length ≤ n := by simpa using hn
    have hc : c ∈ fams := hsub mem_cons_self
    have hsub1 : l1 ⊆ fams := fun d hd => hsub (mem_cons_of_mem _ (mem_append_left _ hd))
    have hsub2 : l2 ⊆ fams := fun d hd => hsub (mem_cons_of_mem _ (mem_append_right _ hd))
    have hcons : done ++ c :: (l1 ++ l2) = done ++ [c] ++ l1 ++ l2 := by simp
    rw [hcons] at hnodup ⊢
    have hcdone : c ∉ done := fun h =>
      (nodup_append.mp (hnodup.sublist (sublist_append_left _ l2))).1 |> fun h' =>
        (nodup_append.mp h').2.2 c h c (mem_singleton_self c) rfl
    obtain ⟨M1, hact1, hP1⟩ := hact done c M hc hcdone hP
    obtain ⟨M2, hwalk2, hP2⟩ := ih1 hsub1 (hnodup.sublist (sublist_append_left _ l2)) (hkids c hc)
      (by omega : l1.length ≤ n) hP1
    obtain ⟨M3, hwalk3, hP3⟩ := ih2 hsub2 hnodup hseg.2 (by omega : l2.length ≤ n) hP2
    have hnext : M2.sibling c = cs.head? := by
      rw [(hlinks _ _ hP2).2, hseg.1, or_none]
    refine ⟨M3, ?_, hP3⟩
    rw [head?_cons, walk, hact1, bind_eq_bind, bind_some, (hlinks _ _ hP1).1, hchild c hc,
      hwalk2, bind_some, hnext, hwalk3]

/-- What `remove_exited_processes` does to the families that are done. -/
structure ClearedAll (M : Monitor) (dom : List Addr) (L : Addr → List Addr) (done : List Addr)
    (M' : Monitor) :
    Prop extends SameTree M M' where
  procInfo : M'.procInfo = M.procInfo
  made : M'.made = M.made
  stillAlive : ∀ a, M'.stillAlive a = (M.stillAlive a && decide (∀ f ∈ done, a ∉ L f))
  exited : ∀ f, M'.exited f =
    if f ∈ done then M.exited f + M.timesOf ((L f).filter fun a => !M.stillAlive a) else M.exited f
  lists : Lists M' dom fun f => if f ∈ done then (L f).filter M.stillAlive else L f
  table : Table M' dom fun f => if f ∈ done then (L f).filter M.stillAlive else L f

variable {dom done : List Addr}

theorem clearedAll_nil (h : Lists M dom L) (ht : Table M dom L) : ClearedAll M dom L [] M :=
  ⟨SameTree.refl M, rfl, rfl, by simp, by simp, by simpa using h, by simpa using ht⟩

theorem clearedAll_step (h : Lists M dom L) (hdone : done ⊆ dom) (hf : f ∈ dom) (hfdone : f ∉ done)
    (hc : ClearedAll M dom L done M') :
    ∃ M'', M'.removeExited f = some M'' ∧ ClearedAll M dom L (done ++ [f]) M'' := by
  obtain ⟨M'', hrun, hl, ht, hcf⟩ := removeExited_spec hc.lists hc.table hf
  have hother : ∀ a ∈ L f, ∀ g ∈ done, a ∉ L g := fun a ha g hg ha' =>
    hfdone (by rw [h.eq_of_mem hf (hdone hg) ha ha']; exact hg)
  have halive : ∀ a ∈ L f, M'.stillAlive a = M.stillAlive a := fun a ha => by
    rw [hc.stillAlive]
    simpa using fun _ => hother a ha
  rw [if_neg hfdone] at hl ht hcf
  have hfilter : (L f).filter M'.stillAlive = (L f).filter M.stillAlive := filter_congr halive
  have hfun : update (fun g => if g ∈ done then (L g).filter M.stillAlive else L g) f
      ((L f).filter M'.stillAlive) = fun g => if g ∈ done ++ [f] then (L g).filter M.stillAlive
        else L g := by
    funext g
    by_cases hgf : g = f
    · subst hgf
      simp [hfilter]
    · simp [hgf]
  rw [hfun] at hl ht
  refine ⟨M'', hrun, hc.toSameTree.trans hcf.toSameTree, hcf.procInfo.trans hc.procInfo,
    hcf.made.trans hc.made, fun a => ?_, fun g => ?_, hl, ht⟩
  · rw [hcf.stillAlive, hc.stillAlive, Bool.and_assoc]
    congr 1
    simp [or_imp, forall_and]
  · have hdead : M'.timesOf ((L f).filter fun a => !M'.stillAlive a) =
        M.timesOf ((L f).filter fun a => !M.stillAlive a) := by
      unfold timesOf
      rw [hc.procInfo, filter_congr fun a ha => by rw [halive a ha]]
    rw [hcf.exited, hdead]
    by_cases hgf : g = f
    · subst hgf
      simp [hc.exited, hfdone]
    · simp [hgf, hc.exited]

/-- **`remove_exited_processes`** of the tree and of everybody else. -/
theorem removeExitedTree_spec (h : Inv M kids fams L) :
    ∃ M1 M', M.removeExitedTree = some M1 ∧ M1.removeExited M1.everybodyElse = some M' ∧
      ClearedAll M (M.everybodyElse :: fams) L (fams ++ [M.everybodyElse]) M' := by
  obtain ⟨l, hfams, hbelow⟩ := h.tree.below_tree
  set dom := M.everybodyElse :: fams
  have hsub : fams ⊆ dom := subset_cons_self _ _
  have hnodup := h.tree.fams_nodup
  -- the root, the families below it, everybody else
  obtain ⟨M1, hrun1, hc1⟩ :=
    clearedAll_step h.lists (nil_subset _) (hsub h.tree.tree_mem) not_mem_nil
      (clearedAll_nil h.lists h.table)
  have hvisit : ∀ done c M', c ∈ fams → c ∉ done → (done ⊆ dom ∧ ClearedAll M dom L done M') →
      ∃ M'', M'.removeExited c = some M'' ∧ done ++ [c] ⊆ dom ∧
      ClearedAll M dom L (done ++ [c]) M'' := by
    intro done c M' hc hcdone hP
    obtain ⟨M'', hrun, hc'⟩ := clearedAll_step h.lists hP.1 (hsub hc) hcdone hP.2
    exact ⟨M'', hrun, append_subset.mpr ⟨hP.1, by simpa using hsub hc⟩, hc'⟩
  have hone : fams = [] ++ [M.tree] ++ l := hfams
  have hlen : l.length ≤ M1.made := by
    have hlen := h.tree.length_le
    rw [hc1.made]
    rw [hfams, length_cons] at hlen
    omega
  obtain ⟨M2, hrun2, hc2⟩ :=
    walk_spec hvisit (fun done M' hP => ⟨hP.2.child, hP.2.sibling⟩) h.tree.links.child
      h.tree.links.sibling hbelow (by rw [hfams]; exact subset_cons_self _ _)
      (by rw [← hone]; exact hnodup) (h.tree.links.sibling _ h.tree.tree_mem) hlen
      ⟨by simpa using hsub h.tree.tree_mem, hc1⟩
  rw [← hone] at hc2
  obtain ⟨M3, hrun3, hc3⟩ :=
    clearedAll_step h.lists hsub mem_cons_self (nodup_cons.mp h.tree.nodup).1 hc2.2
  refine ⟨M2, M3, ?_, ?_, hc3⟩
  · rw [removeExitedTree, hrun1, bind_eq_bind, bind_some, hc1.tree, hc1.child,
      h.tree.links.child _ h.tree.tree_mem, hrun2]
  · rw [hc2.2.everybodyElse, hrun3]

/-! ## Families above a family -/

/-- `g` is below `f`. -/
def Above (kids : Addr → List Addr) : Addr → Addr → Prop := Relation.TransGen fun p c => c ∈ kids p

theorem Above.mem (habove : Above kids f g) (h : Forest kids cs l) (hf : f ∈ l) : g ∈ l := by
  induction habove with
  | single hg => exact h.kids_subset hf hg
  | tail _ hg ih => exact h.kids_subset ih hg

theorem Above.idxOf_lt (habove : Above kids f g) (h : Forest kids cs l) (hl : l.Nodup)
    (hf : f ∈ l) :
    l.idxOf f < l.idxOf g := by
  induction habove with
  | single hg => exact h.idxOf_lt hl hf hg
  | tail hbetween hg ih => exact Nat.lt_trans ih (h.idxOf_lt hl (Above.mem hbetween h hf) hg)

/-- **The loop upwards** comes to an end, and finds only families that are above. -/
theorem isAbove_spec (h : TreeOf M kids fams) (hg : g ∈ fams) {n : ℕ} (hn : fams.idxOf g < n) :
    ∃ b, M.isAbove f n g = some b ∧ (b = true → f ∈ fams ∧ Above kids f g) := by
  induction n generalizing g with
  | zero => omega
  | succ n ih =>
    rcases h.parent_eq hg with ⟨_, hnone⟩ | ⟨p, hp, hgp, hsome⟩
    · exact ⟨false, by rw [isAbove, hnone], nofun⟩
    · by_cases hpf : p = f
      · subst hpf
        exact ⟨true, by rw [isAbove, hsome]; simp, fun _ => ⟨hp, .single hgp⟩⟩
      · have hlt := h.forest.idxOf_lt h.fams_nodup hp hgp
        obtain ⟨b, hb, hspec⟩ := ih hp (by omega)
        refine ⟨b, by rw [isAbove, hsome]; simp [hpf, hb], fun hb' => ?_⟩
        exact ⟨(hspec hb').1, (hspec hb').2.tail hgp⟩

end Condor.Procd
