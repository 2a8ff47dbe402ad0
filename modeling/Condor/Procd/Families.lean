import Condor.Procd.Tree

/-!
# Families come and go

A family that is unregistered gives its members and the times of its exited processes to its parent,
and its subfamilies take its place in the tree. A new family is a leaf below the family of its root
process, which becomes its first member.

* **`unregister_spec`**, **`newFamily_spec`**.
-/

namespace Condor.Procd

open List Option Function Monitor

variable {M M' : Monitor} {kids : Addr → List Addr} {dom fams cs l : List Addr}
  {L : Addr → List Addr}
  {f g p a c : Addr} {n : ℕ}

/-! ## Folding a family into its parent -/

theorem reassign_spec (hseg : Segment M.next (a :: l) none) (hn : l.length < n) :
    ∃ b, (a :: l).getLast? = some b ∧
      reassign p n a M = some (b,
      { M with family := fun c => if c ∈ a :: l then p else M.family c }) := by
  induction l generalizing a M n with
  | nil =>
    obtain _ | n := n
    · simp at hn
    have hnext : M.next a = none := hseg.1
    refine ⟨a, rfl, ?_⟩
    rw [reassign]
    simp only [hnext]
    congr 3
    funext c
    simp [update_apply]
  | cons b l ih =>
    obtain _ | n := n
    · simp at hn
    have hnext : M.next a = some b := hseg.1
    obtain ⟨d, hlast, hrun⟩ :=
      ih (M := { M with family := update M.family a p }) hseg.2 (by simpa using hn)
    refine ⟨d, by rw [getLast?_cons_cons]; exact hlast, ?_⟩
    rw [reassign]
    simp only [hnext]
    rw [hrun]
    congr 3
    funext c
    by_cases hca : c = a <;> simp [hca]

/-- What `fold_into_parent` does to the state, but for the lists. -/
structure Folded (M : Monitor) (f p : Addr) (M' : Monitor) : Prop extends SameTree M M' where
  procInfo : M'.procInfo = M.procInfo
  stillAlive : M'.stillAlive = M.stillAlive
  made : M'.made = M.made
  memberTable : M'.memberTable = M.memberTable
  exited : M'.exited = update M.exited p (M.exited p + M.exited f)

theorem MembersOf.append {l1 l2 : List Addr} {b : Addr} (h1 : MembersOf M f (l1 ++ [b]))
    (h2 : MembersOf M p l2) (hne : ∀ c ∈ l1 ++ [b], c ∉ l2)
    (hhead : M'.memberList p = (l1 ++ [b]).head?) (hb : M'.next b = l2.head?)
    (hnext : ∀ c, c ≠ b → M'.next c = M.next c) (hq : ∀ q, l2.head? = some q → M'.prev q = some b)
    (hprev : ∀ c, l2.head? ≠ some c → M'.prev c = M.prev c)
    (hfamily1 : ∀ c ∈ l1 ++ [b], M'.family c = p) (hfamily2 : ∀ c ∈ l2, M'.family c = M.family c)
    (hmade : M'.made = M.made) : MembersOf M' p (l1 ++ [b] ++ l2) where
  head := by
    rw [hhead]
    cases l1 <;> rfl
  forth := by
    have hb2 : ∀ c ∈ l2, c ≠ b := fun c hc h => hne b (by simp) (by rw [← h]; exact hc)
    have hb1 : ∀ c ∈ l1, c ≠ b := fun c hc h =>
      (nodup_append.mp h1.nodup).2.2 c hc b (mem_singleton_self b) h
    rw [segment_append]
    refine ⟨segment_relink h1.forth (fun c hc => hnext c (hb1 c hc)) (by rw [hb, or_none]), ?_⟩
    exact h2.forth.congr fun c hc => hnext c (hb2 c hc)
  back := by
    have hout : ∀ c ∈ l1 ++ [b], l2.head? ≠ some c := fun c hc h => hne c hc (mem_of_head? h)
    rw [reverse_append, segment_append]
    refine ⟨?_, h1.back.congr fun c hc => hprev c (hout c (mem_reverse.mp hc))⟩
    cases l2 with
    | nil => trivial
    | cons q l2 =>
      have hback := h2.back
      rw [reverse_cons] at hback ⊢
      refine segment_relink hback (fun c hc => hprev c ?_) (by rw [hq q rfl]; simp)
      exact fun h => (nodup_cons.mp h2.nodup).1 (by rw [some.inj h]; exact mem_reverse.mp hc)
  nodup := nodup_append.mpr ⟨h1.nodup, h2.nodup, fun c hc d hd h => hne c hc (by rw [h]; exact hd)⟩
  family c hc := (mem_append.mp hc).elim (hfamily1 c) fun hc =>
    (hfamily2 c hc).trans (h2.family c hc)
  old c hc := by
    rw [hmade]
    exact (mem_append.mp hc).elim (h1.old c) (h2.old c)

/-- `fold_into_parent`: the members of the family come before those of the parent. -/
theorem foldIntoParent_spec (h : Lists M dom L) (hf : f ∈ dom) (hp : p ∈ dom) (hfp : f ≠ p) :
    ∃ M', M.foldIntoParent f p = some M' ∧ Lists M' dom (update (update L p (L f ++ L p)) f []) ∧
      Folded M f p M' := by
  rcases List.eq_nil_or_concat (L f) with hL | ⟨l, b, hL⟩
  · have hself : update (update L p (L f ++ L p)) f [] = L := by
      rw [hL, List.nil_append, update_eq_self, ← hL, update_eq_self]
    have hhead := (h f hf).head
    rw [hL] at hhead
    refine ⟨{ M with exited := update M.exited p (M.exited p + M.exited f) }, ?_, ?_, ?_⟩
    · rw [foldIntoParent]
      simp [hhead]
    · rw [hself]
      exact h.congr rfl rfl rfl rfl rfl
    · exact ⟨⟨rfl, rfl, rfl, rfl, rfl, rfl, rfl, rfl⟩, rfl, rfl, rfl, rfl, rfl⟩
  · rw [List.concat_eq_append] at hL
    have hlist := h f hf
    rw [hL] at hlist
    obtain ⟨a, l', hl'⟩ : ∃ a l', l ++ [b] = a :: l' := by
      cases l with
      | nil => exact ⟨b, [], rfl⟩
      | cons a l => exact ⟨a, l ++ [b], rfl⟩
    have hhead : M.memberList f = some a := by rw [hlist.head, hl']; rfl
    set M0 : Monitor := { M with exited := update M.exited p (M.exited p + M.exited f) } with hM0
    have hlen : (l ++ [b]).length ≤ M.made := length_le_of_old hlist.nodup hlist.old
    have hforth := hlist.forth
    rw [hl'] at hforth
    obtain ⟨b', hb', hrun⟩ := reassign_spec (M := M0) hforth (by
      rw [hl'] at hlen
      exact hlen)
    obtain rfl : b = b' := by
      rw [← hl', getLast?_concat] at hb'
      exact Option.some.inj hb'
    set prev' := (M.memberList p).elim M.prev fun q => update M.prev q (some b) with hprev'
    set M' : Monitor := { M0 with
      family := fun c => if c ∈ a :: l' then p else M.family c
      next := update M.next b (M.memberList p)
      prev := prev'
      memberList := update (update M.memberList p (M.memberList f)) f none } with hM'
    refine ⟨M', ?_, ?_, ⟨rfl, rfl, rfl, rfl, rfl, rfl, rfl, rfl⟩, rfl, rfl, rfl, rfl, rfl⟩
    · rw [foldIntoParent]
      simp only [hhead]
      rw [hrun]
      cases hmp : M.memberList p with
      | none | some q => simp [hM', hM0, hprev', hmp]
    · have hmem : ∀ c, c ∈ a :: l' ↔ c ∈ L f := fun c => by rw [hL, hl']
      have hbf : b ∈ L f := by rw [hL]; simp
      have hphead : ∀ q, (L p).head? = some q → M'.prev q = some b := by
        intro q hq
        rw [← (h p hp).head] at hq
        simp [hM', hprev', hq]
      have hpother : ∀ c, (L p).head? ≠ some c → M'.prev c = M.prev c := by
        intro c hc
        rw [← (h p hp).head] at hc
        cases hmp : M.memberList p with
        | none => simp only [hM', hprev', hmp, Option.elim]
        | some q =>
          rw [hmp] at hc
          simp only [hM', hprev', hmp]
          exact update_of_ne (fun h' => hc (by rw [h'])) ..
      refine lists_update (fun g hg hgf => ?_) ⟨?_, trivial, trivial, List.nodup_nil,
        (fun _ h => by cases h), (fun _ h => by cases h)⟩
      · by_cases hgp : g = p
        · subst hgp
          rw [update_self, hL]
          refine hlist.append (h g hg) (fun c hc hc' => hfp ?_) ?_ ?_ ?_ hphead hpother ?_ ?_ rfl
          · exact h.eq_of_mem hf hg (by rw [hL]; exact hc) hc'
          · change update (update M.memberList g (M.memberList f)) f none g = _
            rw [update_of_ne hgf, update_self, hhead, hl']
            rfl
          · change update M.next b (M.memberList g) b = _
            rw [update_self, (h g hg).head]
          · exact fun c hc => update_of_ne hc ..
          · intro c hc
            rw [hl'] at hc
            exact if_pos hc
          · intro c hc
            exact if_neg fun hc' => hfp (h.eq_of_mem hf hg ((hmem c).mp hc') hc)
        · rw [update_of_ne hgp]
          have hout : ∀ c ∈ L g, c ∉ L f := fun c hc hc' => hgf (h.eq_of_mem hg hf hc hc')
          refine (h g hg).congr ?_ (fun c hc => ?_) (fun c hc => hpother c fun h' => ?_)
            (fun c hc => ?_) (Nat.le_refl _)
          · change update (update M.memberList p (M.memberList f)) f none g = _
            rw [update_of_ne hgf, update_of_ne hgp]
          · exact update_of_ne (fun h' => hout c hc (by rw [h']; exact hbf)) ..
          · exact hgp (h.eq_of_mem hg hp hc (List.mem_of_head? h'))
          · exact if_neg fun hc' => hout c hc ((hmem c).mp hc')
      · change update (update M.memberList p (M.memberList f)) f none f = _
        rw [update_self]
        rfl

/-! ## Taking a node out of the tree -/

theorem reparent_spec {q : Option Addr} (hseg : Segment M.sibling (c :: cs) none)
    (hn : cs.length < n) :
    ∃ b, (c :: cs).getLast? = some b ∧
      reparent q n c M = some (b,
      { M with parent := fun d => if d ∈ c :: cs then q else M.parent d }) := by
  induction cs generalizing c M n with
  | nil =>
    obtain _ | n := n
    · simp at hn
    have hnext : M.sibling c = none := hseg.1
    refine ⟨c, rfl, ?_⟩
    rw [reparent]
    simp only [hnext]
    congr 3
    funext d
    simp [update_apply]
  | cons b cs ih =>
    obtain _ | n := n
    · simp at hn
    have hnext : M.sibling c = some b := hseg.1
    obtain ⟨d, hlast, hrun⟩ :=
      ih (M := { M with parent := update M.parent c q }) hseg.2 (by simpa using hn)
    refine ⟨d, by rw [getLast?_cons_cons]; exact hlast, ?_⟩
    rw [reparent]
    simp only [hnext]
    rw [hrun]
    congr 3
    funext e
    by_cases hec : e = c <;> simp [hec]

/-- The children get the parent, and are put before the siblings of the node. -/
theorem liftChildren_spec (hchild : M.child f = cs.head?) (hseg : Segment M.sibling cs none)
    (hf : f ∉ cs) (hcs : cs.Nodup) (hn : cs.length ≤ M.made) :
    ∃ sibling, M.liftChildren f p = some { M with
        parent := fun d => if d ∈ cs then some p else M.parent d
        sibling := sibling } ∧
      Segment sibling cs (M.sibling f) ∧ sibling f = cs.head?.or (M.sibling f) ∧
      ∀ d, d ∉ cs → d ≠ f → sibling d = M.sibling d := by
  cases cs with
  | nil =>
    refine ⟨M.sibling, ?_, trivial, rfl, fun _ _ _ => rfl⟩
    rw [liftChildren, hchild]
    simp
  | cons c cs =>
    obtain ⟨b, hb, hrun⟩ := reparent_spec (q := some p) hseg hn
    obtain ⟨l, hl⟩ : ∃ l, c :: cs = l ++ [b] := getLast?_eq_some_iff.mp hb
    have hbf : b ≠ f := fun h => hf (by rw [hl, h]; simp)
    refine ⟨update (update M.sibling b (M.sibling f)) f (M.child f), ?_, ?_, ?_, fun d hd hdf => ?_⟩
    · rw [liftChildren]
      simp [hrun, hchild]
    · rw [hl] at hseg hf hcs ⊢
      refine segment_relink hseg (fun d hd => ?_) ?_
      · have hdf : d ≠ f := fun h => hf (by rw [← h]; exact mem_append_left _ hd)
        have hdb : d ≠ b := fun h => (nodup_append.mp hcs).2.2 d hd b (mem_singleton_self b) h
        rw [update_of_ne hdf, update_of_ne hdb]
      · rw [update_of_ne hbf, update_self]
    · rw [update_self, hchild]
      rfl
    · have hdb : d ≠ b := fun h => hd (by rw [hl, h]; simp)
      rw [update_of_ne hdf, update_of_ne hdb]

theorem findBefore_spec (hseg : Segment M.sibling (c :: cs) (some f)) (hf : f ∉ cs)
    (hn : cs.length < n) :
    ∃ b, (c :: cs).getLast? = some b ∧ M.findBefore f n c = some b := by
  induction cs generalizing c n with
  | nil =>
    obtain _ | n := n
    · simp at hn
    have hnext : M.sibling c = some f := hseg.1
    exact ⟨c, rfl, by rw [findBefore, hnext]; simp⟩
  | cons b cs ih =>
    obtain _ | n := n
    · simp at hn
    have hnext : M.sibling c = some b := hseg.1
    have hbf : b ≠ f := fun h => hf (by rw [h]; exact mem_cons_self)
    obtain ⟨d, hlast, hrun⟩ := ih hseg.2 (fun h => hf (mem_cons_of_mem _ h)) (by simpa using hn)
    exact ⟨d, by rw [getLast?_cons_cons]; exact hlast, by rw [findBefore, hnext]; simp [hbf, hrun]⟩

/-- `Tree::remove`, for a node between `pre` and `post` with the children `cs`. -/
theorem removeNode_links {pre post : List Addr} (hparent : M.parent f = some p) (hfp : f ≠ p)
    (hp : M.child p = (pre ++ f :: post).head?) (hsib : Segment M.sibling (pre ++ f :: post) none)
    (hf : M.child f = cs.head?) (hseg : Segment M.sibling cs none)
    (hnodup : (pre ++ f :: post).Nodup) (hcs : cs.Nodup) (hfcs : f ∉ cs)
    (hdisj : ∀ d ∈ cs, d ∉ pre ++ post) (hncs : cs.length ≤ M.made) (hnpre : pre.length ≤ M.made) :
    ∃ child sibling, M.removeNode f = some { M with
        parent := update (fun d => if d ∈ cs then some p else M.parent d) f none
        child := child
        sibling := sibling } ∧
      child p = (pre ++ cs ++ post).head? ∧ (∀ d, d ≠ p → d ≠ f → child d = M.child d) ∧
      Segment sibling (pre ++ cs ++ post) none ∧
      ∀ d, d ∉ pre ++ cs → d ≠ f → sibling d = M.sibling d := by
  obtain ⟨sib1, hlift, hseg1, hf1, hother1⟩ := liftChildren_spec (p := p) hf hseg hfcs hcs hncs
  have hnodup' := hnodup
  rw [nodup_middle, nodup_cons] at hnodup
  obtain ⟨hfout, hprepost⟩ := hnodup
  obtain ⟨hpre, hfnext, hpost⟩ := segment_append.mp hsib
  have hfnext : M.sibling f = post.head? := by rw [hfnext, or_none]
  rw [hfnext] at hseg1 hf1
  have hf1 : sib1 f = (cs ++ post).head? := by
    rw [hf1]
    cases cs <;> simp
  have hpost1 : Segment sib1 post none := hpost.congr fun d hd => hother1 d
    (fun h => hdisj d h (mem_append_right _ hd)) fun h =>
      hfout (by rw [← h]; exact mem_append_right _ hd)
  have hpre1 : Segment sib1 pre (some f) := hpre.congr fun d hd => hother1 d
    (fun h => hdisj d h (mem_append_left _ hd)) fun h =>
      hfout (by rw [← h]; exact mem_append_left _ hd)
  have hrest1 : Segment sib1 (cs ++ post) none := by
    rw [segment_append, or_none]
    exact ⟨hseg1, hpost1⟩
  have hfpre : f ∉ pre := fun h => hfout (mem_append_left _ h)
  set M1 : Monitor := { M with
    parent := fun d => if d ∈ cs then some p else M.parent d, sibling := sib1 }
  have hrun : M.removeNode f = (M1.child p).bind fun c =>
      if c = f then some { M1 with
        child := update (update M.child p (sib1 f)) f none
        sibling := update sib1 f none
        parent := update M1.parent f none }
      else (M1.findBefore f M1.made c).bind fun b => some { M1 with
        child := update M.child f none
        sibling := update (update sib1 b (sib1 f)) f none
        parent := update M1.parent f none } := by
    rw [removeNode, hparent]
    simp only [bind_eq_bind, bind_some, hlift]
    rfl
  cases pre with
  | nil =>
    have hc : M.child p = some f := hp
    refine ⟨update (update M.child p (sib1 f)) f none, update sib1 f none, ?_, ?_,
      fun d hdp hdf => ?_, ?_, fun d hd hdf => ?_⟩
    · rw [hrun, show M1.child p = some f from hc, bind_some, if_pos rfl]
    · rw [update_of_ne hfp.symm, update_self, hf1]
      rfl
    · rw [update_of_ne hdf, update_of_ne hdp]
    · refine hrest1.congr fun d hd => update_of_ne (fun h => ?_) ..
      subst h
      exact (mem_append.mp hd).elim hfcs fun h => hfout h
    · rw [update_of_ne hdf]
      exact hother1 d hd hdf
  | cons c pre =>
    have hc : M.child p = some c := hp
    have hcf : c ≠ f := fun h => hfpre (by rw [h]; exact mem_cons_self)
    obtain ⟨b, hb, hbefore⟩ := findBefore_spec (M := M1) hpre1
      (fun h => hfpre (mem_cons_of_mem _ h)) hnpre
    obtain ⟨pre', hpre'⟩ : ∃ l, c :: pre = l ++ [b] := getLast?_eq_some_iff.mp hb
    have hbmem : b ∈ c :: pre := by rw [hpre']; simp
    refine ⟨update M.child f none, update (update sib1 b (sib1 f)) f none, ?_, ?_,
      fun d hdp hdf => ?_, ?_, fun d hd hdf => ?_⟩
    · rw [hrun, show M1.child p = some c from hc, bind_some, if_neg hcf, hbefore]
      rfl
    · rw [update_of_ne hfp.symm, hc]
      rfl
    · rw [update_of_ne hdf]
    · have hne : ∀ d ∈ (c :: pre) ++ (cs ++ post), d ≠ f := fun d hd h => by
        subst h
        rcases mem_append.mp hd with h | h
        · exact hfpre h
        · exact (mem_append.mp h).elim hfcs fun h => hfout (mem_append_right _ h)
      rw [append_assoc]
      suffices hseg : Segment (update sib1 b (sib1 f)) ((c :: pre) ++ (cs ++ post)) none from
        hseg.congr fun d hd => update_of_ne (hne d hd) ..
      rw [segment_append, or_none]
      refine ⟨?_, hrest1.congr fun d hd => update_of_ne (fun h => ?_) ..⟩
      · rw [hpre'] at hpre1 ⊢
        refine segment_relink hpre1 (fun d hd => update_of_ne (fun h => ?_) ..)
          (by rw [update_self, hf1])
        have hnodup1 : (c :: pre).Nodup := (nodup_append.mp hprepost).1
        rw [hpre'] at hnodup1
        exact (nodup_append.mp hnodup1).2.2 d hd b (mem_singleton_self b) h
      · subst h
        rcases mem_append.mp hd with h | h
        · exact hdisj d h (mem_append_left _ hbmem)
        · exact (nodup_append.mp hprepost).2.2 d hbmem d h rfl
    · have hdb : d ≠ b := fun h => hd (by rw [h]; exact mem_append_left _ hbmem)
      rw [update_of_ne hdf, update_of_ne hdb]
      exact hother1 d (fun h => hd (mem_append_right _ h)) hdf

/-- `Tree::remove`: the children take the place of the node. -/
theorem removeNode_spec (hforest : Forest kids [M.tree] fams) (hnodup : fams.Nodup)
    (hmade : fams.length ≤ M.made) (hlinks : Links M kids fams) (hp : p ∈ fams) (hf : f ∈ kids p) :
    ∃ parent child sibling,
      M.removeNode f = some { M with parent := parent, child := child, sibling := sibling } ∧
      Links { M with parent := parent, child := child, sibling := sibling }
        (fun c => splice kids f (kids c))
        (fams.filter (· ≠ f)) := by
  obtain ⟨-, hkids, hroot, hunique⟩ := hforest.unique hnodup
  have hfm : f ∈ fams := hforest.kids_subset hp hf
  have hfp : f ≠ p := hforest.ne_of_mem_kids hnodup hp hf
  have hff : f ∉ kids f := fun h => hforest.ne_of_mem_kids hnodup hfm h rfl
  have hlen : ∀ g ∈ fams, (kids g).length ≤ M.made := fun g hg =>
    Nat.le_trans (subperm_of_subset (hkids g hg) (hforest.kids_subset hg)).length_le hmade
  obtain ⟨pre, post, hkp⟩ := append_of_mem hf
  have hkpn := hkids p hp
  have hpl := hlen p hp
  have hchildp := hlinks.child p hp
  have hsibp := hlinks.sibling p hp
  rw [hkp] at hkpn hpl hchildp hsibp
  have hdisj : ∀ d ∈ kids f, d ∉ kids p := fun d hd hd' => hfp (hunique f hfm p hp d hd hd')
  have houtside : ∀ d ∈ kids f, d ∉ pre ++ post := fun d hd hd' => hdisj d hd (by
    rw [hkp]
    simpa using Or.elim (mem_append.mp hd') .inl fun h => .inr (.inr h))
  obtain ⟨child, sibling, hrun, hchild, hchild', hsib, hsib'⟩ :=
    removeNode_links (hlinks.parent p hp f hf) hfp hchildp hsibp (hlinks.child f hfm)
      (hlinks.sibling f hfm) hkpn (hkids f hfm) hff houtside (hlen f hfm) (by simp at hpl; omega)
  have hfout : f ∉ pre ++ post := by
    rw [nodup_middle] at hkpn
    exact (nodup_cons.mp hkpn).1
  have hsplice : splice kids f (kids p) = pre ++ kids f ++ post := by
    rw [hkp, splice_append, splice_cons_self, splice_of_notMem fun h => hfout (mem_append_left _ h),
      splice_of_notMem fun h => hfout (mem_append_right _ h), append_assoc]
  have hother : ∀ g ∈ fams, g ≠ p → f ∉ kids g := fun g hg hgp h => hgp (hunique g hg p hp f h hf)
  have hmem : ∀ {g}, g ∈ fams.filter (· ≠ f) → g ∈ fams ∧ g ≠ f := fun h => by simpa using h
  refine ⟨_, child, sibling, hrun, ⟨fun g hg => ?_, fun g hg => ?_, fun g hg c hc => ?_, ?_⟩⟩
  · obtain ⟨hg, hgf⟩ := hmem hg
    by_cases hgp : g = p
    · subst hgp
      rw [hsplice]
      exact hchild
    · rw [splice_of_notMem (hother g hg hgp)]
      exact (hchild' g hgp hgf).trans (hlinks.child g hg)
  · obtain ⟨hg, hgf⟩ := hmem hg
    by_cases hgp : g = p
    · subst hgp
      rw [hsplice]
      exact hsib
    · rw [splice_of_notMem (hother g hg hgp)]
      refine (hlinks.sibling g hg).congr fun c hc => hsib' c (fun h => ?_) fun h =>
        hother g hg hgp (by rw [← h]; exact hc)
      rcases mem_append.mp h with h | h
      · exact hgp (hunique g hg p hp c hc (by rw [hkp]; exact mem_append_left _ h))
      · exact hgf (hunique g hg f hfm c hc h)
  · obtain ⟨hg, hgf⟩ := hmem hg
    by_cases hgp : g = p
    · subst hgp
      rw [hsplice] at hc
      have hcf : c ≠ f := fun h => by
        subst h
        simp only [mem_append] at hc hfout
        tauto
      change update (fun d => if d ∈ kids f then some g else M.parent d) f none c = _
      rw [update_of_ne hcf]
      split
      · rfl
      · rename_i hcout
        refine hlinks.parent g hg c ?_
        rw [hkp]
        simp only [mem_append] at hc
        simp only [mem_append]
        tauto
    · rw [splice_of_notMem (hother g hg hgp)] at hc
      have hcf : c ≠ f := fun h => hother g hg hgp (by rw [← h]; exact hc)
      have hcout : c ∉ kids f := fun h => hgf (hunique g hg f hfm c hc h)
      change update (fun d => if d ∈ kids f then some p else M.parent d) f none c = _
      rw [update_of_ne hcf, if_neg hcout]
      exact hlinks.parent g hg c hc
  · have htf : M.tree ≠ f := fun h => hroot p hp f hf (by rw [h]; exact mem_singleton_self f)
    have htout : M.tree ∉ kids f := fun h => hroot f hfm _ h (mem_singleton_self _)
    change update (fun d => if d ∈ kids f then some p else M.parent d) f none M.tree = _
    rw [update_of_ne htf, if_neg htout]
    exact hlinks.root

/-! ## A family goes -/

/-- What `unregister_subfamily` does to the state, but for the lists and the tree. -/
structure Unregistered (M : Monitor) (f p : Addr) (M' : Monitor) : Prop where
  registration : M'.registration = M.registration
  everybodyElse : M'.everybodyElse = M.everybodyElse
  tree : M'.tree = M.tree
  procInfo : M'.procInfo = M.procInfo
  stillAlive : M'.stillAlive = M.stillAlive
  made : M'.made = M.made
  memberTable : M'.memberTable = M.memberTable
  exited : M'.exited = update M.exited p (M.exited p + M.exited f)

theorem mem_eraseP_mappings {ms : List ((ℤ × ℤ) × Addr)} (hnodup : (ms.map Prod.snd).Nodup)
    {m : (ℤ × ℤ) × Addr} (hm : m ∈ ms.eraseP fun m => decide (m.2 = f)) : m ∈ ms ∧ m.2 ≠ f := by
  induction ms with
  | nil => cases hm
  | cons m' ms ih =>
    obtain ⟨hm', hms⟩ := nodup_cons.mp hnodup
    by_cases hf : m'.2 = f
    · rw [eraseP_cons_of_pos (by simpa using hf)] at hm
      exact ⟨mem_cons_of_mem _ hm, fun h => hm' (by rw [hf, ← h]; exact mem_map_of_mem hm)⟩
    · rw [eraseP_cons_of_neg (by simpa using hf)] at hm
      rcases mem_cons.mp hm with rfl | hm
      · exact ⟨mem_cons_self, hf⟩
      · exact ⟨mem_cons_of_mem _ (ih hms hm).1, (ih hms hm).2⟩

/-- The same processes are members when a family has been folded into another one. -/
theorem member_fold {others : Addr} (hf : f ∈ fams) (hp : p ∈ fams) (hfp : f ≠ p)
    (hfo : f ≠ others) :
    Member (others :: fams.filter (· ≠ f)) (update (update L p (L f ++ L p)) f []) a ↔
      Member (others :: fams) L a := by
  constructor
  · rintro ⟨g, hg, ha⟩
    have hg' : g ∈ others :: fams := by
      simp only [mem_cons, mem_filter] at hg ⊢
      exact hg.imp_right And.left
    have hgf : g ≠ f := by
      rintro rfl
      simp [hfo] at hg
    rw [update_of_ne hgf] at ha
    by_cases hgp : g = p
    · subst hgp
      rw [update_self] at ha
      exact (mem_append.mp ha).elim (fun ha => ⟨f, mem_cons_of_mem _ hf, ha⟩) fun ha => ⟨g, hg', ha⟩
    · rw [update_of_ne hgp] at ha
      exact ⟨g, hg', ha⟩
  · rintro ⟨g, hg, ha⟩
    have hp' : p ∈ others :: fams.filter (· ≠ f) := mem_cons_of_mem _ (by simp [hp, hfp.symm])
    have hLp : update (update L p (L f ++ L p)) f [] p = L f ++ L p := by
      rw [update_of_ne hfp.symm, update_self]
    by_cases hgf : g = f
    · subst hgf
      exact ⟨p, hp', by rw [hLp]; exact mem_append_left _ ha⟩
    · by_cases hgp : g = p
      · subst hgp
        exact ⟨g, hp', by rw [hLp]; exact mem_append_right _ ha⟩
      · refine ⟨g, ?_, by rw [update_of_ne hgf, update_of_ne hgp]; exact ha⟩
        simp only [mem_cons, mem_filter] at hg ⊢
        exact hg.imp_right fun hg => ⟨hg, by simpa using hgf⟩

/-- **A family goes.** Its members are in the parent, and its subfamilies in its place. -/
theorem unregister_spec (h : Inv M kids fams L) (hp : p ∈ fams) (hf : f ∈ kids p) :
    ∃ M', M.unregister f = some M' ∧
      Inv M' (fun c => splice kids f (kids c)) (fams.filter (· ≠ f))
      (update (update L p (L f ++ L p)) f []) ∧ Unregistered M f p M' := by
  have hforest := h.tree.forest
  have hnodup := h.tree.fams_nodup
  have hfm : f ∈ fams := hforest.kids_subset hp hf
  have hfp : f ≠ p := hforest.ne_of_mem_kids hnodup hp hf
  have hfo : f ≠ M.everybodyElse := h.tree.ne_everybodyElse hfm
  have htf : f ≠ M.tree := fun h' =>
    (hforest.unique hnodup).2.2.1 p hp f hf (by rw [h']; exact mem_singleton_self _)
  have hsub : fams.filter (· ≠ f) ⊆ fams := filter_subset_self _
  set M1 : Monitor := { M with
    pidMappings := M.pidMappings.eraseP fun m => decide (m.2 = f)
    familyTable := update M.familyTable (M.registration f).rootPid none } with hM1
  have hlists1 : Lists M1 (M.everybodyElse :: fams) L := h.lists.congr rfl rfl rfl rfl rfl
  obtain ⟨M2, hfold, hlists2, hfolded⟩ := foldIntoParent_spec hlists1 (mem_cons_of_mem _ hfm)
    (mem_cons_of_mem _ hp) hfp
  have hlinks2 : Links M2 kids fams :=
    h.tree.links.congr hfolded.child hfolded.sibling hfolded.parent hfolded.tree
  obtain ⟨parent, child, sibling, hremove, hlinks3⟩ := removeNode_spec
    (by rw [hfolded.tree]; exact hforest) hnodup (by rw [hfolded.made]; exact h.tree.length_le)
      hlinks2 hp hf
  have hentry : M.familyTable (M.registration f).rootPid = some f :=
    (h.tree.table _ f).mpr ⟨hfm, rfl⟩
  refine ⟨{ M2 with parent := parent, child := child, sibling := sibling }, ?_, ⟨?_, ?_, ?_⟩, ?_⟩
  · rw [unregister]
    simp only [hentry, bind_eq_bind, bind_some, h.tree.links.parent p hp f hf]
    rw [hfold, bind_some, hremove]
  · have hspliced := forest_splice hforest hnodup f
    rw [splice_of_notMem fun h' => htf (mem_singleton.mp h')] at hspliced
    have htree : TreeOf { M1 with parent := parent, child := child, sibling := sibling }
        (fun c => splice kids f (kids c)) (fams.filter (· ≠ f)) := by
      refine ⟨hspliced, h.tree.nodup.sublist (filter_sublist.cons_cons _),
        fun g hg => h.tree.old g (cons_subset_cons _ hsub hg),
        hlinks3.congr rfl rfl rfl hfolded.tree.symm, fun pid g => ?_, fun m hm => ?_,
        h.tree.mappings_nodup.sublist (eraseP_sublist.map _), h.tree.others, h.tree.unwatched⟩
      · change update M.familyTable (M.registration f).rootPid none pid = some g ↔ _ ∧
          (M.registration g).rootPid = pid
        by_cases hpid : pid = (M.registration f).rootPid
        · subst hpid
          rw [update_self]
          refine iff_of_false nofun fun ⟨hg, hgpid⟩ => ?_
          have hgf : some g = some f := by rw [← hentry, (h.tree.table _ g).mpr ⟨hsub hg, hgpid⟩]
          rw [some.inj hgf] at hg
          simp at hg
        · rw [update_of_ne hpid, h.tree.table pid g]
          refine and_congr_left fun hgpid => ⟨fun hg => ?_, fun hg => hsub hg⟩
          have hgf : g ≠ f := fun h' => hpid (by rw [← hgpid, h'])
          simpa [hgf] using hg
      · obtain ⟨hm, hmf⟩ := mem_eraseP_mappings h.tree.mappings_nodup hm
        simpa [hmf] using h.tree.mappings m hm
    exact htree.congr ⟨hfolded.registration, rfl, rfl, rfl, hfolded.everybodyElse, hfolded.tree,
      hfolded.familyTable, hfolded.pidMappings⟩ hfolded.made.ge
  · change Lists _ (M2.everybodyElse :: _) _
    rw [hfolded.everybodyElse]
    exact Lists.congr (fun g hg => hlists2 g (cons_subset_cons _ hsub hg)) rfl rfl rfl rfl rfl
  · change Table _ (M2.everybodyElse :: _) _
    rw [hfolded.everybodyElse]
    refine h.table.congr hfolded.memberTable (fun a _ => ?_) fun a => member_fold hfm hp hfp hfo
    rw [hfolded.procInfo]
  · exact ⟨hfolded.registration, hfolded.everybodyElse, hfolded.tree, hfolded.procInfo,
      hfolded.stillAlive, hfolded.made, hfolded.memberTable, hfolded.exited⟩

/-! ## A family comes -/

/-- What a registration does to the state, but for the lists and the tree. -/
structure Registered (M : Monitor) (r : Registration) (M' : Monitor) : Prop where
  registration : M'.registration = update M.registration M.made r
  everybodyElse : M'.everybodyElse = M.everybodyElse
  tree : M'.tree = M.tree
  procInfo : M'.procInfo = M.procInfo
  stillAlive : M'.stillAlive = M.stillAlive
  made : M'.made = M.made + 1
  memberTable : M'.memberTable = M.memberTable
  exited : M'.exited = update M.exited M.made 0

theorem addChild_links (h : TreeOf M kids fams) (hp : p ∈ fams) (hf : f ∉ fams) (hft : f ≠ M.tree) :
    Links (M.addChild p f) (update (update kids f []) p (f :: kids p)) (insertAfter p f fams) := by
  have hfp : f ≠ p := fun h' => hf (by rw [h']; exact hp)
  have hmem : ∀ g, g ∈ insertAfter p f fams ↔ g = f ∨ g ∈ fams := fun g => by
    rw [(perm_insertAfter hp).mem_iff, mem_cons]
  have hkids : ∀ g ∈ fams, ∀ c ∈ kids g, c ≠ f := fun g hg c hc h' =>
    hf (by rw [← h']; exact h.forest.kids_subset hg hc)
  have hkf : update (update kids f []) p (f :: kids p) f = [] := by
    rw [update_of_ne hfp, update_self]
  have hkp : update (update kids f []) p (f :: kids p) p = f :: kids p := update_self ..
  have hkg : ∀ g, g ≠ f → g ≠ p → update (update kids f []) p (f :: kids p) g = kids g :=
    fun g hgf hgp => by
    rw [update_of_ne hgp, update_of_ne hgf]
  have hsegment : ∀ g ∈ fams, Segment (M.addChild p f).sibling (kids g) none := fun g hg =>
    (h.links.sibling g hg).congr fun c hc => update_of_ne (hkids g hg c hc) ..
  have hparent : ∀ g ∈ fams, ∀ c ∈ kids g, (M.addChild p f).parent c = some g := fun g hg c hc =>
    (update_of_ne (hkids g hg c hc) ..).trans (h.links.parent g hg c hc)
  refine ⟨fun g hg => ?_, fun g hg => ?_, fun g hg c hc => ?_, ?_⟩
  · change update (update M.child f none) p (some f) g = _
    by_cases hgp : g = p
    · subst hgp
      rw [hkp, update_self]
      rfl
    · by_cases hgf : g = f
      · subst hgf
        rw [hkf, update_of_ne hgp, update_self]
        rfl
      · rw [hkg g hgf hgp, update_of_ne hgp, update_of_ne hgf]
        exact h.links.child g (((hmem g).mp hg).resolve_left hgf)
  · by_cases hgp : g = p
    · subst hgp
      rw [hkp]
      refine ⟨?_, hsegment g hp⟩
      change update M.sibling f (M.child g) f = _
      rw [update_self, h.links.child g hp, or_none]
    · by_cases hgf : g = f
      · subst hgf
        rw [hkf]
        trivial
      · rw [hkg g hgf hgp]
        exact hsegment g (((hmem g).mp hg).resolve_left hgf)
  · by_cases hgp : g = p
    · subst hgp
      rw [hkp] at hc
      rcases mem_cons.mp hc with rfl | hc
      · exact update_self ..
      · exact hparent g hp c hc
    · by_cases hgf : g = f
      · subst hgf
        rw [hkf] at hc
        cases hc
      · rw [hkg g hgf hgp] at hc
        exact hparent g (((hmem g).mp hg).resolve_left hgf) c hc
  · exact (update_of_ne hft.symm ..).trans h.links.root

/-- The same processes are members when one of them has been moved to a new family. -/
theorem member_move {dom' : List Addr} {b : Addr} (hp : p ∈ dom) (ha : a ∈ L p)
    (hf : ∀ g ∈ dom, g ≠ f) (hdom : ∀ g, g ∈ dom' ↔ g = f ∨ g ∈ dom) :
    Member dom' (update (update L p ((L p).erase a)) f [a]) b ↔ Member dom L b := by
  have hpf : p ≠ f := hf p hp
  have hLp : update (update L p ((L p).erase a)) f [a] p = (L p).erase a := by
    rw [update_of_ne hpf, update_self]
  constructor
  · rintro ⟨g, hg, hb⟩
    rcases (hdom g).mp hg with rfl | hg
    · rw [update_self] at hb
      rw [mem_singleton.mp hb]
      exact ⟨p, hp, ha⟩
    · by_cases hgp : g = p
      · subst hgp
        rw [hLp] at hb
        exact ⟨g, hg, mem_of_mem_erase hb⟩
      · rw [update_of_ne (hf g hg), update_of_ne hgp] at hb
        exact ⟨g, hg, hb⟩
  · rintro ⟨g, hg, hb⟩
    by_cases hgp : g = p
    · subst hgp
      by_cases hba : b = a
      · exact ⟨f, (hdom f).mpr (.inl rfl), by rw [update_self, hba]; exact mem_singleton_self a⟩
      · exact ⟨g, (hdom g).mpr (.inr hg), by rw [hLp]; exact (mem_erase_of_ne hba).mpr hb⟩
    · refine ⟨g, (hdom g).mpr (.inr hg), ?_⟩
      rw [update_of_ne (hf g hg), update_of_ne hgp]
      exact hb

/-- The table of the families with a new one. -/
theorem familyTable_insert {r : Registration} {pid : ℤ} {g : Addr} (h : TreeOf M kids fams)
    (hf : f ∉ fams) (hr : M.familyTable r.rootPid = none) :
    update M.familyTable r.rootPid (some f) pid = some g ↔
      (g = f ∨ g ∈ fams) ∧ (update M.registration f r g).rootPid = pid := by
  by_cases hgf : g = f
  · rw [hgf, update_self]
    by_cases hpid : pid = r.rootPid
    · simp [hpid]
    · rw [update_of_ne hpid, h.table pid f]
      exact iff_of_false (fun h' => hf h'.1) fun h' => hpid h'.2.symm
  · rw [update_of_ne hgf]
    by_cases hpid : pid = r.rootPid
    · subst hpid
      rw [update_self]
      refine iff_of_false (fun h' => hgf (some.inj h').symm) fun h' => ?_
      rw [(h.table _ g).mpr ⟨h'.1.resolve_left hgf, h'.2⟩] at hr
      cases hr
    · rw [update_of_ne hpid, h.table pid g]
      exact and_congr_left fun _ => ⟨.inr, fun h' => h'.resolve_left hgf⟩

/-- **A family comes**, below the family of its root process, which is its only member. -/
theorem newFamily_spec (h : Inv M kids fams L) (hp : p ∈ fams) (ha : a ∈ L p) {r : Registration}
    (hr : M.familyTable r.rootPid = none) : ∃ M', M.newFamily a r = some M' ∧
      Inv M' (update (update kids M.made []) p (M.made :: kids p)) (insertAfter p M.made fams)
        (update (update L p ((L p).erase a)) M.made [a]) ∧
      Registered M r M' := by
  set f := M.made with hf
  have hnew : ∀ g ∈ M.everybodyElse :: fams, g ≠ f := fun g hg h' => Nat.lt_irrefl _ (by
    rw [h'] at hg
    exact h.tree.old f hg)
  have hfout : f ∉ fams := fun h' => hnew f (mem_cons_of_mem _ h') rfl
  have hpf : p ≠ f := hnew p (mem_cons_of_mem _ hp)
  have hft : f ≠ M.tree := fun h' => hfout (by rw [h']; exact h.tree.tree_mem)
  have hmem : ∀ g, g ∈ insertAfter p f fams ↔ g = f ∨ g ∈ fams := fun g => by
    rw [(perm_insertAfter hp).mem_iff, mem_cons]
  have hmem' : ∀ g ∈ M.everybodyElse :: insertAfter p f fams, g ≠ f → g ∈ M.everybodyElse :: fams :=
    fun g hg hgf => by
    rcases mem_cons.mp hg with rfl | hg
    · exact mem_cons_self
    · exact mem_cons_of_mem _ (((hmem g).mp hg).resolve_left hgf)
  have hfamily : M.family a = p := (h.lists p (mem_cons_of_mem _ hp)).family a ha
  set M0 : Monitor := { M with
    made := M.made + 1
    registration := update M.registration f r
    exited := update M.exited f 0
    memberList := update M.memberList f none
    pidMappings := ((r.rootPid, r.rootBirthday), f) :: M.pidMappings }
  have hentry : M0.familyTable (M0.registration (M0.family a)).rootPid = some p := by
    change M.familyTable (update M.registration f r (M.family a)).rootPid = some p
    rw [hfamily, update_of_ne hpf]
    exact (h.tree.table _ p).mpr ⟨hp, rfl⟩
  have hlists1 : Lists (M0.addChild p f) (M.everybodyElse :: insertAfter p f fams)
      (update L f []) := by
    refine lists_update (fun g hg hgf => ?_) ⟨update_self .., trivial, trivial, nodup_nil,
      nofun, nofun⟩
    exact (h.lists g (hmem' g hg hgf)).congr (update_of_ne hgf ..) (fun _ _ => rfl) (fun _ _ => rfl)
      (fun _ _ => rfl) (Nat.le_succ _)
  obtain ⟨hlists2, hsame⟩ := moveToSubfamily_lists hlists1
    (mem_cons_of_mem _ ((hmem p).mpr (.inr hp))) (mem_cons_of_mem _ ((hmem f).mpr (.inl rfl)))
    (by rw [update_of_ne hpf]; exact ha) hpf
  have hL : update (update (update L f []) p ((update L f [] p).erase a)) f (a :: update L f [] f) =
      update (update L p ((L p).erase a)) f [a] := by
    rw [update_self, update_of_ne hpf, update_comm hpf.symm, update_idem]
  rw [hL] at hlists2
  set M2 := (M0.addChild p f).moveToSubfamily a f with hM2
  refine ⟨{ M2 with familyTable := update M2.familyTable r.rootPid (some f) }, ?_, ⟨?_, ?_, ?_⟩, ?_⟩
  · have hnone : M2.familyTable r.rootPid = none := by rw [hsame.familyTable]; exact hr
    rw [newFamily]
    simp only [← hf, bind_eq_bind]
    rw [hentry, bind_some, ← hM2, hnone]
  · have hkf : update (update kids f []) p (f :: kids p) f = [] := by
      rw [update_of_ne hpf.symm, update_self]
    have hforest := forest_insert h.tree.forest h.tree.fams_nodup hfout hkf (update_self ..)
      fun c hc hcp => by rw [update_of_ne hcp, update_of_ne (hnew c (mem_cons_of_mem _ hc))]
    have htree : TreeOf { M0.addChild p f with
        familyTable := update M.familyTable r.rootPid (some f) }
        (update (update kids f []) p (f :: kids p)) (insertAfter p f fams) := by
      refine ⟨hforest, ?_, fun g hg => ?_,
        (addChild_links h.tree hp hfout hft).congr rfl rfl rfl rfl,
        fun pid g => ?_, fun m hm => ?_, ?_, ?_, ?_⟩
      · refine ((perm_insertAfter hp).cons _).nodup_iff.mpr ?_
        refine nodup_cons.mpr ⟨fun h' => ?_, nodup_cons.mpr ⟨hfout, h.tree.fams_nodup⟩⟩
        rcases mem_cons.mp h' with h' | h'
        · exact hnew _ mem_cons_self h'
        · exact (nodup_cons.mp h.tree.nodup).1 h'
      · change g < M.made + 1
        by_cases hgf : g = f
        · rw [hgf]
          exact Nat.lt_succ_self _
        · exact Nat.lt_succ_of_lt (h.tree.old g (hmem' g hg hgf))
      · rw [hmem]
        exact familyTable_insert h.tree hfout hr
      · rw [hmem]
        rcases mem_cons.mp hm with rfl | hm
        · exact .inl rfl
        · exact .inr (h.tree.mappings m hm)
      · refine nodup_cons.mpr ⟨fun h' => ?_, h.tree.mappings_nodup⟩
        obtain ⟨m, hm, hmf⟩ := mem_map.mp h'
        exact hfout ((show m.2 = f from hmf) ▸ h.tree.mappings m hm)
      · exact (congrArg Registration.rootPid (update_of_ne (hnew _ mem_cons_self) ..)).trans
          h.tree.others
      · exact (congrArg Registration.watcherPid (update_of_ne hft.symm ..)).trans h.tree.unwatched
    exact htree.congr ⟨hsame.registration, hsame.parent, hsame.child, hsame.sibling,
      hsame.everybodyElse, hsame.tree,
      congrArg (update · r.rootPid (some f)) hsame.familyTable, hsame.pidMappings⟩ hsame.made.ge
  · change Lists _ (M2.everybodyElse :: _) _
    rw [hsame.everybodyElse]
    exact hlists2.congr rfl rfl rfl rfl rfl
  · change Table _ (M2.everybodyElse :: _) _
    rw [hsame.everybodyElse]
    refine h.table.congr hsame.memberTable (fun b _ => ?_) fun b => ?_
    · change (M2.procInfo b).pid = _
      rw [hsame.procInfo]
      rfl
    · refine member_move (mem_cons_of_mem _ hp) ha hnew fun g => ?_
      rw [mem_cons, mem_cons, hmem, or_left_comm]
      rfl
  · exact ⟨hsame.registration, hsame.everybodyElse, hsame.tree, hsame.procInfo, hsame.stillAlive,
      hsame.made, hsame.memberTable, hsame.exited⟩

end Condor.Procd
