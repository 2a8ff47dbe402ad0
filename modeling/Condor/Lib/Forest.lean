import Mathlib.Data.List.Nodup
import Mathlib.Algebra.Order.BigOperators.Group.List

/-!
# Forests given by their lists of children

Every node has a list of children. A forest is given by the list of its roots, and it has a list of
its nodes in which every node comes before its descendants.
-/

namespace Condor

open List

variable {A : Type}

/-- The nodes below the roots, every one before its descendants. -/
inductive Forest (kids : A → List A) : List A → List A → Prop
  | nil : Forest kids [] []
  | cons {c : A} {cs l₁ l₂ : List A} (below : Forest kids (kids c) l₁)
    (beside : Forest kids cs l₂) :
      Forest kids (c :: cs) (c :: (l₁ ++ l₂))

variable {kids kids' : A → List A} {cs ds l l' : List A} {c p f : A}

section

variable (h : Forest kids cs l)
include h

theorem Forest.roots_subset : cs ⊆ l := by
  induction h with
  | nil => exact nil_subset _
  | cons below beside _ ih => exact cons_subset_cons _ fun c hc => mem_append_right _ (ih hc)

theorem Forest.append (h' : Forest kids ds l') : Forest kids (cs ++ ds) (l ++ l') := by
  induction h with
  | nil => exact h'
  | @cons c cs l1 l2 below beside _ ih =>
    have := Forest.cons below ih
    rwa [← append_assoc] at this

/-- **Frame rule.** A forest depends on the children of its own nodes only. -/
theorem Forest.congr (heq : ∀ c ∈ l, kids' c = kids c) : Forest kids' cs l := by
  induction h with
  | nil => exact .nil
  | @cons c cs l1 l2 below beside ih1 ih2 =>
    refine .cons ?_ (ih2 fun d hd => heq d (mem_cons_of_mem _ (mem_append_right _ hd)))
    rw [heq c mem_cons_self]
    exact ih1 fun d hd => heq d (mem_cons_of_mem _ (mem_append_left _ hd))

theorem Forest.kids_subset (hp : p ∈ l) : kids p ⊆ l := by
  induction h with
  | nil => cases hp
  | @cons c cs l1 l2 below beside ih1 ih2 =>
    rcases mem_cons.mp hp with rfl | hp
    · exact fun d hd => mem_cons_of_mem _ (mem_append_left _ (below.roots_subset hd))
    · rcases mem_append.mp hp with hp | hp
      · exact fun d hd => mem_cons_of_mem _ (mem_append_left _ (ih1 hp hd))
      · exact fun d hd => mem_cons_of_mem _ (mem_append_right _ (ih2 hp hd))

theorem Forest.exists_parent (hc : c ∈ l) : c ∈ cs ∨ ∃ p ∈ l, c ∈ kids p := by
  induction h with
  | nil => cases hc
  | @cons d cs l1 l2 below beside ih1 ih2 =>
    rcases mem_cons.mp hc with rfl | hc
    · exact .inl mem_cons_self
    · rcases mem_append.mp hc with hc | hc
      · refine .inr ((ih1 hc).elim (fun hd => ⟨d, mem_cons_self, hd⟩) fun ⟨p, hp, hcp⟩ => ?_)
        exact ⟨p, mem_cons_of_mem _ (mem_append_left _ hp), hcp⟩
      · refine (ih2 hc).imp (mem_cons_of_mem _) fun ⟨p, hp, hcp⟩ => ?_
        exact ⟨p, mem_cons_of_mem _ (mem_append_right _ hp), hcp⟩

theorem Forest.eq (h' : Forest kids cs l') : l = l' := by
  induction h generalizing l' with
  | nil =>
    cases h'
    rfl
  | cons below beside ih1 ih2 =>
    cases h' with
    | cons below' beside' => rw [ih1 below', ih2 beside']

theorem Forest.exists_below (hc : c ∈ l) : ∃ l', Forest kids [c] l' ∧ l'.Sublist l := by
  induction h with
  | nil => cases hc
  | @cons d cs l1 l2 below beside ih1 ih2 =>
    rcases mem_cons.mp hc with rfl | hc
    · refine ⟨c :: (l1 ++ []), .cons below .nil, ?_⟩
      rw [append_nil]
      exact (sublist_append_left l1 l2).cons_cons c
    · rcases mem_append.mp hc with hc | hc
      · obtain ⟨l', h', hsub⟩ := ih1 hc
        exact ⟨l', h', (hsub.trans (sublist_append_left l1 l2)).cons d⟩
      · obtain ⟨l', h', hsub⟩ := ih2 hc
        exact ⟨l', h', (hsub.trans (sublist_append_right l1 l2)).cons d⟩

/-- A root is not a child, and a node is a child once at most. -/
theorem Forest.unique (hl : l.Nodup) :
    cs.Nodup ∧ (∀ p ∈ l, (kids p).Nodup) ∧ (∀ p ∈ l, ∀ c ∈ kids p, c ∉ cs) ∧
      ∀ p ∈ l, ∀ p' ∈ l, ∀ c, c ∈ kids p → c ∈ kids p' → p = p' := by
  induction h with
  | nil => simp
  | @cons d cs l1 l2 below beside ih1 ih2 =>
    obtain ⟨hd, hl⟩ := nodup_cons.mp hl
    obtain ⟨hl1, hl2, hdisj⟩ := nodup_append.mp hl
    obtain ⟨hn1, hk1, hr1, hu1⟩ := ih1 hl1
    obtain ⟨hn2, hk2, hr2, hu2⟩ := ih2 hl2
    have hd1 : d ∉ l1 := fun h => hd (mem_append_left _ h)
    have hd2 : d ∉ l2 := fun h => hd (mem_append_right _ h)
    have hcs : cs ⊆ l2 := beside.roots_subset
    have hkd : kids d ⊆ l1 := below.roots_subset
    have hne : ∀ {x}, x ∈ l1 → x ∈ l2 → False := fun h1 h2 => hdisj _ h1 _ h2 rfl
    have hsub1 : ∀ p ∈ l1, kids p ⊆ l1 := fun p hp => below.kids_subset hp
    have hsub2 : ∀ p ∈ l2, kids p ⊆ l2 := fun p hp => beside.kids_subset hp
    refine ⟨nodup_cons.mpr ⟨fun h => hd2 (hcs h), hn2⟩, ?_, ?_, ?_⟩
    · intro p hp
      rcases mem_cons.mp hp with rfl | hp
      · exact hn1
      · exact (mem_append.mp hp).elim (hk1 p) (hk2 p)
    · rintro p (_ | ⟨_, hp⟩) c hc (_ | ⟨_, hmem⟩)
      · exact hd1 (hkd hc)
      · exact hne (hkd hc) (hcs hmem)
      · rcases mem_append.mp hp with hp | hp
        · exact hd1 (hsub1 p hp hc)
        · exact hd2 (hsub2 p hp hc)
      · rcases mem_append.mp hp with hp | hp
        · exact hne (hsub1 p hp hc) (hcs hmem)
        · exact hr2 p hp c hc hmem
    · rintro p (_ | ⟨_, hp⟩) p' (_ | ⟨_, hp'⟩) c hc hc'
      · rfl
      · rcases mem_append.mp hp' with hp' | hp'
        · exact absurd hc (hr1 p' hp' c hc')
        · exact (hne (hkd hc) (hsub2 p' hp' hc')).elim
      · rcases mem_append.mp hp with hp | hp
        · exact absurd hc' (hr1 p hp c hc)
        · exact (hne (hkd hc') (hsub2 p hp hc)).elim
      · rcases mem_append.mp hp with hp | hp <;> rcases mem_append.mp hp' with hp' | hp'
        · exact hu1 p hp p' hp' c hc hc'
        · exact (hne (hsub1 p hp hc) (hsub2 p' hp' hc')).elim
        · exact (hne (hsub1 p' hp' hc') (hsub2 p hp hc)).elim
        · exact hu2 p hp p' hp' c hc hc'

end

section Splice

variable [DecidableEq A]

section

variable (h : Forest kids cs l) (hl : l.Nodup) (hp : p ∈ l) (hc : c ∈ kids p)
include h hl hp hc

/-- A node comes after its parent. -/
theorem Forest.idxOf_lt : l.idxOf p < l.idxOf c := by
  induction h with
  | nil => cases hp
  | @cons d cs l1 l2 below beside ih1 ih2 =>
    obtain ⟨hd, hl⟩ := nodup_cons.mp hl
    obtain ⟨hl1, hl2, hdisj⟩ := nodup_append.mp hl
    have hne : ∀ x ∈ l1 ++ l2, d ≠ x := fun x hx h => hd (by rw [h]; exact hx)
    rcases mem_cons.mp hp with rfl | hp
    · have hc' : c ∈ l1 ++ l2 := mem_append_left _ (below.roots_subset hc)
      rw [idxOf_cons_self, idxOf_cons_ne _ (hne c hc')]
      exact Nat.succ_pos _
    · have hc' : c ∈ l1 ++ l2 := (mem_append.mp hp).elim
        (fun h => mem_append_left _ (below.kids_subset h hc))
        (fun h => mem_append_right _ (beside.kids_subset h hc))
      rw [idxOf_cons_ne _ (hne p hp), idxOf_cons_ne _ (hne c hc')]
      refine Nat.succ_lt_succ ?_
      rcases mem_append.mp hp with hp | hp
      · rw [idxOf_append_of_mem hp, idxOf_append_of_mem (below.kids_subset hp hc)]
        exact ih1 hl1 hp
      · have hp1 : p ∉ l1 := fun h => hdisj p h p hp rfl
        have hc1 : c ∉ l1 := fun h => hdisj c h c (beside.kids_subset hp hc) rfl
        rw [idxOf_append_of_notMem hp1, idxOf_append_of_notMem hc1]
        exact Nat.add_lt_add_left (ih2 hl2 hp) _

theorem Forest.ne_of_mem_kids : c ≠ p :=
  fun heq => Nat.lt_irrefl (l.idxOf p) (by
    have hlt := h.idxOf_lt hl hp hc
    rwa [heq] at hlt)

end

/-! ## A new leaf -/

/-- `f` comes right after `p`. -/
def insertAfter (p f : A) : List A → List A
  | [] => []
  | a :: l => if a = p then a :: f :: l else a :: insertAfter p f l

theorem insertAfter_of_notMem (h : p ∉ l) : insertAfter p f l = l := by
  induction l with
  | nil => rfl
  | cons a l ih =>
    rw [insertAfter, if_neg fun h' => h (by simp [h']), ih fun h' => h (mem_cons_of_mem _ h')]

theorem insertAfter_append_of_mem (h : p ∈ l) :
    insertAfter p f (l ++ l') = insertAfter p f l ++ l' := by
  induction l with
  | nil => cases h
  | cons a l ih =>
    by_cases ha : a = p
    · simp [insertAfter, ha]
    · have hmem : p ∈ l := (mem_cons.mp h).resolve_left fun h' => ha h'.symm
      simp [insertAfter, ha, ih hmem]

theorem insertAfter_append_of_notMem (h : p ∉ l) :
    insertAfter p f (l ++ l') = l ++ insertAfter p f l' := by
  induction l with
  | nil => rfl
  | cons a l ih =>
    rw [cons_append, insertAfter, if_neg fun h' => h (by simp [h']),
      ih fun h' => h (mem_cons_of_mem _ h'), cons_append]

theorem perm_insertAfter (h : p ∈ l) : (insertAfter p f l).Perm (f :: l) := by
  induction l with
  | nil => cases h
  | cons a l ih =>
    by_cases ha : a = p
    · rw [insertAfter, if_pos ha]
      exact Perm.swap _ _ _
    · rw [insertAfter, if_neg ha]
      have hmem : p ∈ l := (mem_cons.mp h).resolve_left fun h' => ha h'.symm
      exact ((ih hmem).cons a).trans (Perm.swap _ _ _)

/-- A leaf becomes the first child of a node. -/
theorem forest_insert (h : Forest kids cs l) (hl : l.Nodup) (hf : f ∉ l) (hkf : kids' f = [])
    (hkp : kids' p = f :: kids p) (hk : ∀ c ∈ l, c ≠ p → kids' c = kids c) :
    Forest kids' cs (insertAfter p f l) := by
  induction h with
  | nil => exact .nil
  | @cons c cs l1 l2 below beside ih1 ih2 =>
    obtain ⟨hc, hl⟩ := nodup_cons.mp hl
    obtain ⟨hl1, hl2, hdisj⟩ := nodup_append.mp hl
    have hf1 : f ∉ l1 := fun h => hf (mem_cons_of_mem _ (mem_append_left _ h))
    have hf2 : f ∉ l2 := fun h => hf (mem_cons_of_mem _ (mem_append_right _ h))
    have hk1 : ∀ d ∈ l1, d ≠ p → kids' d = kids d := fun d hd =>
      hk d (mem_cons_of_mem _ (mem_append_left _ hd))
    have hk2 : ∀ d ∈ l2, d ≠ p → kids' d = kids d := fun d hd =>
      hk d (mem_cons_of_mem _ (mem_append_right _ hd))
    by_cases hcp : c = p
    · subst hcp
      have hbelow : Forest kids' (kids c) l1 := below.congr fun d hd => hk1 d hd fun h =>
        hc (by rw [← h]; exact mem_append_left _ hd)
      have hbeside : Forest kids' cs l2 := beside.congr fun d hd => hk2 d hd fun h =>
        hc (by rw [← h]; exact mem_append_right _ hd)
      rw [insertAfter, if_pos rfl]
      have hleaf : Forest kids' (kids' c) (f :: ([] ++ l1)) := by
        rw [hkp]
        exact .cons (by rw [hkf]; exact .nil) hbelow
      exact .cons hleaf hbeside
    · rw [insertAfter, if_neg hcp]
      have hkc : kids' c = kids c := hk c mem_cons_self hcp
      by_cases hp : p ∈ l1
      · have hp2 : p ∉ l2 := fun h => hdisj p hp p h rfl
        rw [insertAfter_append_of_mem hp]
        refine .cons (by rw [hkc]; exact ih1 hl1 hf1 hk1) (beside.congr fun d hd => hk2 d hd ?_)
        exact fun h => hp2 (by rw [← h]; exact hd)
      · rw [insertAfter_append_of_notMem hp]
        refine .cons ?_ (ih2 hl2 hf2 hk2)
        rw [hkc]
        exact below.congr fun d hd => hk1 d hd fun h => hp (by rw [← h]; exact hd)

/-! ## A node goes -/

/-- The children of `f` take its place. -/
def splice (kids : A → List A) (f : A) (cs : List A) : List A :=
  cs.flatMap fun c => if c = f then kids f else [c]

theorem splice_cons_self : splice kids f (f :: cs) = kids f ++ splice kids f cs := by
  simp [splice]

theorem splice_cons_of_ne (h : c ≠ f) : splice kids f (c :: cs) = c :: splice kids f cs := by
  simp [splice, h]

theorem splice_append : splice kids f (cs ++ ds) = splice kids f cs ++ splice kids f ds := by
  simp [splice]

theorem splice_of_notMem (h : f ∉ cs) : splice kids f cs = cs := by
  induction cs with
  | nil => rfl
  | cons c cs ih =>
    rw [splice_cons_of_ne fun h' => h (by simp [h']), ih fun h' => h (mem_cons_of_mem _ h')]

/-- A node goes, and its children take its place. -/
theorem forest_splice (h : Forest kids cs l) (hl : l.Nodup) (f : A) :
    Forest (fun c => splice kids f (kids c)) (splice kids f cs) (l.filter (· ≠ f)) := by
  induction h with
  | nil => exact .nil
  | @cons c cs l1 l2 below beside ih1 ih2 =>
    obtain ⟨hc, hl⟩ := nodup_cons.mp hl
    obtain ⟨hl1, hl2, -⟩ := nodup_append.mp hl
    have h1 := ih1 hl1
    have h2 := ih2 hl2
    by_cases hcf : c = f
    · subst hcf
      have hc1 : c ∉ l1 := fun h => hc (mem_append_left _ h)
      rw [splice_of_notMem fun h => hc1 (below.roots_subset h)] at h1
      rw [splice_cons_self, filter_cons_of_neg (by simp), filter_append]
      exact h1.append h2
    · rw [splice_cons_of_ne hcf, filter_cons_of_pos (by simpa using hcf), filter_append]
      exact .cons h1 h2

end Splice

/-! ## Weights

The total of a node is the weight of all nodes of its tree. Weight that moves around in the tree
changes the totals of few nodes, and those in one direction.
-/

section

open Function

variable {N : Type} [AddCommMonoid N] {u u' : A → N} {a g : A} {t : N}

def total (u : A → N) (l : List A) : N := (l.map u).sum

@[simp] theorem total_nil : total u [] = 0 := rfl

@[simp] theorem total_cons : total u (a :: l) = u a + total u l := sum_cons

@[simp] theorem total_append : total u (l ++ l') = total u l + total u l' := by simp [total]

theorem total_map {B : Type} (q : B → A) (l : List B) :
    total u (l.map q) = total (fun b => u (q b)) l := by
  simp [total, comp_def]

theorem total_flatMap {B : Type} (q : B → List A) (l : List B) :
    total u (l.flatMap q) = total (fun b => total u (q b)) l := by
  induction l with
  | nil => rfl
  | cons b l ih => rw [flatMap_cons, total_append, total_cons, ih]

theorem total_add : total (fun a => u a + u' a) l = total u l + total u' l := by
  induction l with
  | nil => simp
  | cons a l ih => rw [total_cons, total_cons, total_cons, ih, add_add_add_comm]

theorem total_perm (h : l.Perm l') : total u l = total u l' := (h.map u).sum_eq

theorem total_filter (q : A → Bool) :
    total u l = total u (l.filter q) + total u (l.filter fun a => !q a) := by
  rw [← total_append]
  exact (total_perm (filter_append_perm q l)).symm

theorem total_congr (h : ∀ a ∈ l, u' a = u a) : total u' l = total u l := by
  rw [total, total, map_congr_left h]

theorem total_mono [PartialOrder N] [IsOrderedAddMonoid N] (h : ∀ a ∈ l, u a ≤ u' a) :
    total u l ≤ total u' l :=
  sum_le_sum h

variable [DecidableEq A]

theorem total_change (hl : l.Nodup) (ha : a ∈ l) (hua : u' a = u a + t)
    (hother : ∀ b ∈ l, b ≠ a → u' b = u b) :
    total u' l = total u l + t := by
  have hperm := perm_cons_erase ha
  have herase : total u' (l.erase a) = total u (l.erase a) := total_congr fun b hb =>
    hother b (mem_of_mem_erase hb) (Nodup.mem_erase_iff hl |>.mp hb).1
  rw [total_perm hperm, total_perm hperm, total_cons, total_cons, hua, herase, add_right_comm]

/-- **Weight goes down.** A list with the upper node has the lower one, too. -/
theorem total_moveDown [PartialOrder N] [IsOrderedAddMonoid N] (hl : l.Nodup) (hfg : f ∈ l → g ∈ l)
    (hne : f ≠ g) (ht : 0 ≤ t) (hf : u f = u' f + t) (hg : u' g = u g + t)
    (hother : ∀ b, b ≠ f → b ≠ g → u' b = u b) :
    total u l ≤ total u' l := by
  by_cases hgl : g ∈ l
  · by_cases hfl : f ∈ l
    · -- between the two, the weight is with neither of them
      set v := update u' g (u g) with hv
      have hvf : v f = u' f := update_of_ne hne ..
      have hvg : v g = u g := update_self ..
      have h1 : total u' l = total v l + t := total_change hl hgl (by rw [hvg, hg]) fun b _ hb =>
        (update_of_ne hb ..).symm
      have h2 : total u l = total v l + t := total_change hl hfl (by rw [hvf, hf]) fun b _ hb => by
        by_cases hbg : b = g
        · rw [hbg, hvg]
        · rw [hv, update_of_ne hbg, hother b hb hbg]
      rw [h1, h2]
    · have h1 : total u' l = total u l + t := total_change hl hgl hg fun b hb hbg =>
        hother b (fun h => hfl (by rw [← h]; exact hb)) hbg
      rw [h1]
      exact le_add_of_nonneg_right ht
  · have hfl : f ∉ l := fun h => hgl (hfg h)
    refine (total_congr fun b hb => ?_).ge
    exact hother b (fun h => hfl (by rw [← h]; exact hb)) fun h => hgl (by rw [← h]; exact hb)

variable {nodes : List A}

/-- **A node goes**, and leaves its weight to its parent. -/
theorem total_splice (h : Forest kids cs nodes) (hnodes : nodes.Nodup) (hp : p ∈ nodes)
    (hf : f ∈ kids p) (hc : Forest kids [c] l) (hsub : l.Sublist nodes) (hcf : c ≠ f)
    (hup : u' p = u p + u f) (hother : ∀ b, b ≠ f → b ≠ p → u' b = u b) :
    total u' (l.filter (· ≠ f)) = total u l := by
  have hl : l.Nodup := hnodes.sublist hsub
  have hpf : p ≠ f := (h.ne_of_mem_kids hnodes hp hf).symm
  by_cases hpl : p ∈ l
  · have hfl : f ∈ l := hc.kids_subset hpl hf
    have hperm : l.Perm (f :: l.filter (· ≠ f)) := by
      have herase : l.erase f = l.filter (· ≠ f) := by simp [hl.erase_eq_filter, bne, BEq.beq]
      rw [← herase]
      exact perm_cons_erase hfl
    rw [total_perm hperm, total_cons, add_comm]
    refine total_change (hl.filter _) (by simp [hpl, hpf]) hup fun b hb hbp => hother b ?_ hbp
    simpa using (mem_filter.mp hb).2
  · have hfl : f ∉ l := fun hfl => by
      rcases hc.exists_parent hfl with hroot | ⟨q, hq, hfq⟩
      · exact hcf (mem_singleton.mp hroot).symm
      · rw [(h.unique hnodes).2.2.2 q (hsub.subset hq) p hp f hfq hf] at hq
        exact hpl hq
    rw [filter_eq_self.mpr fun b hb => by simpa using fun h' => hfl (by rw [← h']; exact hb)]
    exact total_congr fun b hb => hother b (fun h' => hfl (by rw [← h']; exact hb)) fun h' =>
      hpl (by rw [← h']; exact hb)

/-- **A new leaf** gets a part of the weight of its parent. -/
theorem total_insert (hl : l.Nodup) (hf : f ∉ l) (hup : u p = u' p + u' f)
    (hother : ∀ b, b ≠ f → b ≠ p → u' b = u b) : total u' (insertAfter p f l) = total u l := by
  have hne : ∀ b ∈ l, b ≠ f := fun b hb h => hf (by rw [← h]; exact hb)
  by_cases hpl : p ∈ l
  · rw [total_perm (perm_insertAfter hpl), total_cons, add_comm]
    exact (total_change hl hpl hup fun b hb hbp => (hother b (hne b hb) hbp).symm).symm
  · rw [insertAfter_of_notMem hpl]
    exact total_congr fun b hb => hother b (hne b hb) fun h => hpl (by rw [← h]; exact hb)

end

end Condor
