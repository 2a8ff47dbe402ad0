import Condor.ClassAd.Chained
import Mathlib.Data.List.Perm.Subperm

/-!
# Equality of trees — the laws of `SameAs`

`SameAs` compares the number of an ad's own attributes, but looks for them in the other ad with its
chain, and it compares numbers up to a small difference. The trees on which it is an equivalence are
found here.

* `children`, `parts`, **`induct`**: the trees below a node, without and with those of its chain;
* **`sameAs_equivalence_iff`**.
-/

namespace Condor.ClassAd

open List Option Flat ExprTree Prod

variable {chain : List (List (Text × ExprTree))} {as bs : List (Text × ExprTree)} {t : ExprTree}

/-! ## The trees below a node -/

namespace ExprTree

def children : ExprTree → List ExprTree
  | literal _ => []
  | attrRef s _ _ => s.toList
  | op1 _ e => [e]
  | op2 _ l r => [l, r]
  | op3 c m r => c :: (m.toList ++ [r])
  | call _ args => args
  | list es => es
  | classAd attrs _ => attrs.map snd

def chained : ExprTree → List ExprTree
  | classAd _ chain => chain.flatten.map snd
  | _ => []

/-- The trees below a node, with those of its chain. -/
def parts (t : ExprTree) : List ExprTree := t.children ++ t.chained

theorem sizeOf_attr {attrs : List (Text × ExprTree)} {c : ExprTree} (hc : c ∈ attrs.map snd) :
    sizeOf c < sizeOf attrs := by
  obtain ⟨⟨n, e⟩, ha, rfl⟩ := mem_map.mp hc
  have := sizeOf_lt_of_mem ha
  simp only [mk.sizeOf_spec] at this
  dsimp only
  omega

theorem sizeOf_lt_of_mem_parts {t c : ExprTree} (hc : c ∈ t.parts) : sizeOf c < sizeOf t := by
  rcases mem_append.mp hc with hc | hc
  · cases t with
    | literal l => nomatch hc
    | attrRef s n a =>
      obtain rfl := mem_toList.mp hc
      simp
      omega
    | op1 o e =>
      obtain rfl := mem_singleton.mp hc
      simp
    | op2 o l r =>
      simp only [children, mem_cons, not_mem_nil, or_false] at hc
      rcases hc with rfl | rfl
      · simp
        omega
      · simp
    | op3 c' m r =>
      simp only [children, mem_cons, mem_append, mem_toList, not_mem_nil, or_false] at hc
      rcases hc with rfl | rfl | rfl <;> simp <;> omega
    | call f args =>
      have : sizeOf c < sizeOf args := sizeOf_lt_of_mem hc
      simp
      omega
    | list es =>
      have : sizeOf c < sizeOf es := sizeOf_lt_of_mem hc
      simp
      omega
    | classAd attrs chain =>
      have := sizeOf_attr hc
      simp
      omega
  · cases t with
    | classAd attrs chain =>
      obtain ⟨a, ha, rfl⟩ := mem_map.mp hc
      obtain ⟨l, hl, ha⟩ := mem_flatten.mp ha
      have h1 := sizeOf_attr (mem_map_of_mem ha)
      have h2 := sizeOf_lt_of_mem hl
      simp
      omega
    | _ => nomatch hc

/-- **Induction over the trees below a node.** -/
theorem induct {P : ExprTree → Prop} (h : ∀ t, (∀ c ∈ t.parts, P c) → P t) (t : ExprTree) : P t :=
  h t fun c _ => induct h c
termination_by sizeOf t
decreasing_by exact sizeOf_lt_of_mem_parts ‹_›

/-! ## What is compared at a node -/

/-- What `SameAs` compares at a node that is neither a literal nor an ad. -/
inductive Head where
  | attrRef (scope : Bool) (name : Text) (absolute : Bool)
  | op1 (op : OpKind)
  | op2 (op : OpKind)
  | op3 (middle : Bool)
  | call (name : Text)
  | list
deriving DecidableEq

def head : ExprTree → Option Head
  | attrRef s n a => some (.attrRef s.isSome n a)
  | op1 o _ => some (.op1 o)
  | op2 o _ _ => some (.op2 o)
  | op3 _ m _ => some (.op3 m.isSome)
  | call f _ => some (.call f)
  | list _ => some .list
  | literal _ | classAd _ _ => none

def Same (t u : ExprTree) : Prop := t.sameAs u = true

theorem sameList_iff {as bs : List ExprTree} : sameList as bs = true ↔ Forall₂ Same as bs := by
  induction as generalizing bs with
  | nil => cases bs <;> simp [sameList]
  | cons a as ih => cases bs <;> simp [sameList, ih, Same]

theorem sameAttrs_iff {look : Text → Option ExprTree} :
    sameAttrs as look = true ↔ ∀ a ∈ as, ∃ e ∈ look a.1, Same a.2 e := by
  induction as with
  | nil => simp [sameAttrs]
  | cons a as ih =>
    obtain ⟨n, e⟩ := a
    rw [sameAttrs, Bool.and_eq_true, ih, forall_mem_cons]
    cases h : look n with
    | none => simp [sameAttr, h]
    | some e' => simp [sameAttr, h, Same]

variable {h : Head} {u : ExprTree}

/-- **The nodes with a head** are the same if their heads are equal and their children the same. -/
theorem same_head_iff (ht : t.head = some h) :
    Same t u ↔ u.head = some h ∧ Forall₂ Same t.children u.children := by
  cases t with
  | literal l | classAd as chain => nomatch ht
  | attrRef s n a =>
    obtain rfl := some.inj ht
    cases u with
    | attrRef s' n' a' =>
      cases s <;> cases s' <;> simp [Same, sameAs, head, children, sameChild] <;> grind
    | _ => simp [Same, sameAs, head]
  | op1 o e =>
    obtain rfl := some.inj ht
    cases u with
    | op1 o' e' =>
      simp only [Same, sameAs, Bool.and_eq_true, beq_iff_eq, head, some.injEq,
        Head.op1.injEq, children, forall₂_cons, Forall₂.nil, and_true]
      exact and_congr_left fun _ => eq_comm
    | _ => simp [Same, sameAs, head]
  | op2 o l r =>
    obtain rfl := some.inj ht
    cases u with
    | op2 o' l' r' =>
      simp only [Same, sameAs, Bool.and_eq_true, beq_iff_eq, head, some.injEq,
        Head.op2.injEq, children, forall₂_cons, Forall₂.nil, and_true, and_assoc]
      exact and_congr_left fun _ => eq_comm
    | _ => simp [Same, sameAs, head]
  | op3 c m r =>
    obtain rfl := some.inj ht
    cases u with
    | op3 c' m' r' =>
      cases m <;> cases m' <;> simp [Same, sameAs, head, children, sameChild, and_assoc]
    | _ => simp [Same, sameAs, head]
  | call f args =>
    obtain rfl := some.inj ht
    cases u with
    | call f' args' =>
      rw [Same, sameAs, Bool.and_eq_true, beq_iff_eq, sameList_iff, head, some.injEq,
        Head.call.injEq]
      exact and_congr_left fun _ => eq_comm
    | _ => simp [Same, sameAs, head]
  | list es =>
    obtain rfl := some.inj ht
    cases u with
    | list es' =>
      rw [Same, sameAs, sameList_iff]
      exact (and_iff_right rfl).symm
    | _ => simp [Same, sameAs, head]

theorem same_literal_iff {l : Constant} {u : ExprTree} :
    Same (.literal l) u ↔ ∃ l', u = .literal l' ∧ l.sameAs l' = true := by
  unfold Same
  cases u <;> simp [sameAs]

theorem same_classAd_iff {u : ExprTree} :
    Same (.classAd as chain) u ↔ ∃ bs chain', u = .classAd bs chain' ∧ as.length = bs.length ∧
      ∀ a ∈ as, ∃ e ∈ lookup bs chain' a.1, Same a.2 e := by
  unfold Same
  cases u with
  | classAd bs chain' => simp [sameAs, sameAttrs_iff, Same]
  | _ => simp [sameAs]

theorem exists_of_head (ht : t.head = some h) {cs : List ExprTree}
    (hlen : cs.length = t.children.length) : ∃ u : ExprTree, u.head = some h ∧ u.children = cs := by
  cases t with
  | literal l | classAd as chain => nomatch ht
  | attrRef s n a =>
    obtain rfl := some.inj ht
    cases s with
    | none =>
      obtain rfl := eq_nil_of_length_eq_zero hlen
      exact ⟨.attrRef none n a, rfl, rfl⟩
    | some e =>
      obtain ⟨c, rfl⟩ := length_eq_one_iff.mp hlen
      exact ⟨.attrRef (some c) n a, rfl, rfl⟩
  | op1 o e =>
    obtain rfl := some.inj ht
    obtain ⟨c, rfl⟩ := length_eq_one_iff.mp hlen
    exact ⟨.op1 o c, rfl, rfl⟩
  | op2 o l r =>
    obtain rfl := some.inj ht
    obtain ⟨c, d, rfl⟩ := length_eq_two.mp hlen
    exact ⟨.op2 o c d, rfl, rfl⟩
  | op3 c m r =>
    obtain rfl := some.inj ht
    cases m with
    | none =>
      obtain ⟨c', d, rfl⟩ := length_eq_two.mp hlen
      exact ⟨.op3 c' none d, rfl, rfl⟩
    | some e =>
      obtain ⟨c', d, r', rfl⟩ := length_eq_three.mp hlen
      exact ⟨.op3 c' (some d) r', rfl, rfl⟩
  | call f args =>
    obtain rfl := some.inj ht
    exact ⟨.call f cs, rfl, rfl⟩
  | list es =>
    obtain rfl := some.inj ht
    exact ⟨.list cs, rfl, rfl⟩

end ExprTree

/-! ## Properties of all nodes -/

/-- A property of a tree and of all trees below it. -/
inductive Everywhere (below : ExprTree → List ExprTree) (p : ExprTree → Prop) : ExprTree → Prop
  | intro {t : ExprTree} (h : p t) (hbelow : ∀ c ∈ below t, Everywhere below p c) :
    Everywhere below p t

namespace Everywhere

variable {below : ExprTree → List ExprTree} {p q : ExprTree → Prop} {c : ExprTree}

theorem here (h : Everywhere below p t) : p t := by
  cases h with
  | intro h _ => exact h

theorem under (h : Everywhere below p t) : ∀ c ∈ below t, Everywhere below p c := by
  cases h with
  | intro _ h => exact h

end Everywhere

def Constant.number : Constant → Option Number
  | real x | relTime x => some x
  | _ => none

namespace ExprTree

/-- The attributes are in order, and the numbers are taken from a set. -/
def Over (D : Set Number) : ExprTree → Prop
  | literal l => ∀ x ∈ l.number, x ∈ D
  | classAd attrs chain => ∀ l ∈ attrs :: chain, Sorted nameRank l
  | _ => True

def Unchained : ExprTree → Prop
  | classAd _ chain => chain = []
  | _ => True

/-- An ad has no attributes of its own, or it has every attribute itself that its chain has. -/
def Covers : ExprTree → Prop
  | classAd attrs chain =>
    attrs = [] ∨ ∀ n, lookupChain n chain ≠ none → find nameRank n attrs ≠ none
  | _ => True

def TreeOver (D : Set Number) : ExprTree → Prop := Everywhere parts (Over D)

/-- A tree over a set of numbers without chained ads. -/
def Simple (D : Set Number) : ExprTree → Prop := Everywhere parts fun t => t.Over D ∧ t.Unchained

/-- No ad of the tree shows a value of its chain, unless it has no attributes of its own. -/
def Covered : ExprTree → Prop := Everywhere children Covers

variable {α β : Type}

theorem head_over {h : Head} (D : Set Number) (ht : t.head = some h) :
    t.Over D ∧ t.Unchained ∧ t.Covers ∧ t.chained = [] := by
  cases t with
  | literal l | classAd as chain => nomatch ht
  | _ => exact ⟨trivial, trivial, trivial, rfl⟩

variable {D : Set Number}

theorem exists_forall₂ {Q : α → β → Prop} {as : List α} (h : ∀ a ∈ as, ∃ b, Q a b) :
    ∃ bs, Forall₂ Q as bs := by
  induction as with
  | nil => exact ⟨[], .nil⟩
  | cons a as ih =>
    obtain ⟨⟨b, hb⟩, h⟩ := forall_mem_cons.mp h
    obtain ⟨bs, hbs⟩ := ih h
    exact ⟨b :: bs, .cons hb hbs⟩

theorem Simple.treeOver (h : t.Simple D) : t.TreeOver D := by
  induction h with
  | intro h _ ih => exact .intro h.1 ih

/-- A tree without chained ads that is the same as this one, and the other way round if it is
covered. -/
def Mirrors (D : Set Number) (t u : ExprTree) : Prop :=
  u.Simple D ∧ Same u t ∧ (Same t u ↔ t.Covered)

section

variable {R : α → β → Prop} {xs : List α} {ys : List β} (h : Forall₂ R xs ys)
include h

theorem forall_of_forall₂ {P : β → Prop} (hP : ∀ a b, R a b → P b) : ∀ b ∈ ys, P b := by
  induction h with
  | nil => nofun
  | cons hab _ ih => exact forall_mem_cons.mpr ⟨hP _ _ hab, ih⟩

theorem forall₂_flip {R' : β → α → Prop} (hR : ∀ a ∈ xs, ∀ b ∈ ys, R a b → R' b a) :
    Forall₂ R' ys xs := by
  induction h with
  | nil => exact .nil
  | cons hab _ ih =>
    exact .cons (hR _ mem_cons_self _ mem_cons_self hab) (ih fun a ha b hb =>
      hR a (mem_cons_of_mem _ ha) b (mem_cons_of_mem _ hb))

end

theorem forall₂_trans {α : Type} {R : α → α → Prop} {as bs cs : List α} (h : Forall₂ R as bs)
    (h' : Forall₂ R bs cs) (hR : ∀ a ∈ as, ∀ b ∈ bs, ∀ c ∈ cs, R a b → R b c → R a c) :
    Forall₂ R as cs := by
  induction h generalizing cs with
  | nil => exact h'
  | cons hab _ ih =>
    cases h' with
    | cons hbc h' =>
      exact .cons (hR _ mem_cons_self _ mem_cons_self _ mem_cons_self hab hbc)
        (ih h' fun a ha b hb c hc => hR a (mem_cons_of_mem _ ha) b (mem_cons_of_mem _ hb) c
          (mem_cons_of_mem _ hc))

theorem covered_iff : t.Covered ↔ t.Covers ∧ ∀ c ∈ t.children, c.Covered :=
  ⟨fun h => ⟨h.here, h.under⟩, fun h => .intro h.1 h.2⟩

theorem exists_mirror_head {h : Head} (ht : t.head = some h)
    (ih : ∀ c ∈ t.children, ∃ u, Mirrors D c u) : ∃ u, Mirrors D t u := by
  obtain ⟨us, hus⟩ := exists_forall₂ ih
  obtain ⟨u, hu, rfl⟩ := exists_of_head ht hus.length_eq.symm
  obtain ⟨hover, hunchained, -, hchained⟩ := head_over D hu
  refine ⟨u, .intro ⟨hover, hunchained⟩ ?_, ?_, ?_⟩
  · rw [parts, hchained, append_nil]
    exact forall_of_forall₂ hus fun _ _ h => h.1
  · exact (same_head_iff hu).mpr ⟨ht, (hus.imp fun _ _ h => h.2.1).flip⟩
  · rw [same_head_iff ht, covered_iff, and_iff_right hu, and_iff_right (head_over D ht).2.2.1]
    revert hus
    generalize t.children = ts
    generalize u.children = us
    intro hus
    induction hus with
    | nil => simp
    | cons hab _ ih => rw [forall₂_cons, forall_mem_cons, hab.2.2, ih]

/-! ## Ads -/

/-- The attributes of two ads have the same names, and their values are related. -/
def Fields (Q : ExprTree → ExprTree → Prop) (as bs : List (Text × ExprTree)) : Prop :=
  Forall₂ (fun a b => a.1 = b.1 ∧ Q a.2 b.2) as bs

section Fields

variable {Q : ExprTree → ExprTree → Prop}

theorem exists_fields (h : ∀ c ∈ as.map snd, ∃ u, Q c u) : ∃ bs, Fields Q as bs :=
  exists_forall₂ fun a ha =>
    let ⟨u, hu⟩ := h a.2 (mem_map_of_mem ha)
    ⟨(a.1, u), rfl, hu⟩

theorem Fields.names (h : Fields Q as bs) : as.map fst = bs.map fst := by
  induction h with
  | nil => rfl
  | cons hab _ ih => rw [map_cons, map_cons, hab.1, ih]

theorem sorted_iff_names :
    Sorted nameRank as ↔ (as.map fst).Pairwise fun m n => nameRank m < nameRank n := by
  rw [Sorted, pairwise_map]

theorem Fields.sorted (h : Fields Q as bs) (hs : Sorted nameRank as) : Sorted nameRank bs :=
  sorted_iff_names.mpr (h.names ▸ sorted_iff_names.mp hs)

theorem Fields.exists_left (h : Fields Q as bs) : ∀ b ∈ bs, ∃ a ∈ as, a.1 = b.1 ∧ Q a.2 b.2 := by
  induction h with
  | nil => nofun
  | cons hab _ ih =>
    refine forall_mem_cons.mpr ⟨⟨_, mem_cons_self, hab⟩, fun b hb => ?_⟩
    obtain ⟨a, ha, h⟩ := ih b hb
    exact ⟨a, mem_cons_of_mem _ ha, h⟩

theorem Fields.exists_right (h : Fields Q as bs) : ∀ a ∈ as, ∃ b ∈ bs, a.1 = b.1 ∧ Q a.2 b.2 := by
  induction h with
  | nil => nofun
  | cons hab _ ih =>
    refine forall_mem_cons.mpr ⟨⟨_, mem_cons_self, hab⟩, fun a ha => ?_⟩
    obtain ⟨b, hb, h⟩ := ih a ha
    exact ⟨b, mem_cons_of_mem _ hb, h⟩

end Fields

theorem lookup_own (hs : Sorted nameRank as)
    (chain : List (List (Text × ExprTree))) {a : Text × ExprTree} (ha : a ∈ as) :
    lookup as chain a.1 = some a.2 := by
  have hfind : find nameRank a.1 as = some a.2 := (find_eq_some_iff hs).mpr ⟨a.1, rfl, ha⟩
  rw [lookup, lookupChain, hfind]

theorem parts_unchained : (classAd bs []).parts = bs.map snd :=
  append_nil _

theorem exists_mirror_covering (hs : Sorted nameRank as) (hcovers : (classAd as chain).Covers)
    (ih : ∀ c ∈ as.map snd, ∃ u, Mirrors D c u) : ∃ u, Mirrors D (classAd as chain) u := by
  obtain ⟨bs, hbs⟩ := exists_fields ih
  have hsb := hbs.sorted hs
  refine ⟨.classAd bs [], .intro ⟨?_, rfl⟩ ?_, ?_, ?_⟩
  · exact fun l hl => mem_singleton.mp hl ▸ hsb
  · rw [parts_unchained]
    intro c hc
    obtain ⟨b, hb, rfl⟩ := mem_map.mp hc
    obtain ⟨a, -, -, h⟩ := hbs.exists_left b hb
    exact h.1
  · refine same_classAd_iff.mpr ⟨as, chain, rfl, hbs.length_eq.symm, fun b hb => ?_⟩
    obtain ⟨a, ha, hname, h⟩ := hbs.exists_left b hb
    exact ⟨a.2, hname ▸ lookup_own hs chain ha, h.2.1⟩
  · rw [same_classAd_iff, covered_iff, and_iff_right hcovers]
    constructor
    · rintro ⟨bs', chain', hu, -, h⟩ c hc
      obtain ⟨rfl, rfl⟩ := classAd.inj hu
      obtain ⟨a, ha, rfl⟩ := mem_map.mp hc
      obtain ⟨b, hb, hname, hm⟩ := hbs.exists_right a ha
      obtain ⟨e, he, hsame⟩ := h a ha
      rw [hname, lookup_own hsb [] hb] at he
      obtain rfl := some.inj he
      exact hm.2.2.mp hsame
    · intro h
      refine ⟨bs, [], rfl, hbs.length_eq, fun a ha => ?_⟩
      obtain ⟨b, hb, hname, hm⟩ := hbs.exists_right a ha
      exact ⟨b.2, hname ▸ lookup_own hsb [] hb, hm.2.2.mpr (h a.2 (mem_map_of_mem ha))⟩

/-- An ad that shows a value of its chain: one of its attributes makes way for that value. -/
theorem exists_mirror_showing {a0 : Text × ExprTree}
    (hs : Sorted nameRank (a0 :: as)) {n : Text} {e : ExprTree}
    (hshown : lookupChain n chain = some e) (hown : find nameRank n (a0 :: as) = none)
    (ih : ∀ c ∈ (a0 :: as).map snd, ∃ u, Mirrors D c u) (ihe : ∃ u, Mirrors D e u) :
    ∃ u, Mirrors D (classAd (a0 :: as) chain) u := by
  obtain ⟨v, hv⟩ := ihe
  obtain ⟨bs, hbs⟩ := exists_fields ih
  have hsb := hbs.sorted hs
  obtain ⟨b0, bs, rfl⟩ : ∃ b0 bs', bs = b0 :: bs' := by
    cases hbs with
    | cons _ _ => exact ⟨_, _, rfl⟩
  obtain ⟨hfirst, hsbs⟩ := pairwise_cons.mp hsb
  have hname0 : a0.1 = b0.1 := (forall₂_cons.mp hbs).1.1
  have hnew : ∀ a ∈ a0 :: as, nameRank a.1 ≠ nameRank n := fun a ha hr => by
    rw [(find_eq_some_iff hs).mpr ⟨a.1, hr, ha⟩] at hown
    cases hown
  have hnewb : find nameRank n bs = none := by
    refine eq_none_iff_forall_ne_some.mpr fun x hx => ?_
    obtain ⟨k, hk, hmem⟩ := (find_eq_some_iff hsbs).mp hx
    obtain ⟨a, ha, hname, -⟩ := hbs.exists_left (k, x) (mem_cons_of_mem _ hmem)
    exact hnew a ha (hname ▸ hk)
  obtain ⟨l1, l2, hcut, hput⟩ := put_of_find_eq_none hnewb
  have hmem : ∀ b ∈ put nameRank n v bs, b = (n, v) ∨ b ∈ b0 :: bs := fun b hb => by
    rw [hput, mem_append, mem_cons] at hb
    rw [mem_cons, hcut, mem_append]
    tauto
  refine ⟨.classAd (put nameRank n v bs) [], .intro ⟨?_, rfl⟩ ?_, ?_, iff_of_false ?_ ?_⟩
  · exact fun l hl => mem_singleton.mp hl ▸ sorted_put hsbs
  · rw [parts_unchained]
    intro c hc
    obtain ⟨b, hb, rfl⟩ := mem_map.mp hc
    rcases hmem b hb with rfl | hb
    · exact hv.1
    · obtain ⟨a, -, -, h⟩ := hbs.exists_left b hb
      exact h.1
  · refine same_classAd_iff.mpr ⟨a0 :: as, chain, rfl, ?_, fun b hb => ?_⟩
    · have hlen := hbs.length_eq
      have := congrArg length hcut
      simp only [hput, length_append, length_cons] at hlen this ⊢
      omega
    · rcases hmem b hb with rfl | hb
      · refine ⟨e, ?_, hv.2.1⟩
        rw [lookup, lookupChain, hown]
        exact hshown
      · obtain ⟨a, ha, hname, h⟩ := hbs.exists_left b hb
        exact ⟨a.2, hname ▸ lookup_own hs chain ha, h.2.1⟩
  · intro h
    obtain ⟨bs', chain', hu, -, h⟩ := same_classAd_iff.mp h
    obtain ⟨rfl, rfl⟩ := classAd.inj hu
    obtain ⟨x, hx, -⟩ := h a0 mem_cons_self
    have hgone : find nameRank a0.1 (put nameRank n v bs) = none := by
      rw [find_put, if_neg (hnew a0 mem_cons_self), hname0]
      exact find_eq_none_of_lt hfirst
    rw [lookup, lookupChain, hgone] at hx
    cases hx
  · intro h
    rcases h.here with h | h
    · cases h
    · exact h n (by rw [hshown]; exact some_ne_none _) hown

theorem mem_of_lookupChain (hs : ∀ l ∈ chain, Sorted nameRank l)
    {n : Text} {e : ExprTree} (h : lookupChain n chain = some e) : e ∈ chain.flatten.map snd := by
  induction chain with
  | nil => nomatch h
  | cons l chain ih =>
    obtain ⟨hl, hs⟩ := forall_mem_cons.mp hs
    rw [flatten_cons, map_append, mem_append]
    rw [lookupChain] at h
    cases hf : find nameRank n l with
    | none =>
      rw [hf] at h
      exact .inr (ih hs h)
    | some x =>
      rw [hf] at h
      obtain rfl := some.inj h
      obtain ⟨k, -, hk⟩ := (find_eq_some_iff hl).mp hf
      exact .inl (mem_map_of_mem hk)

end ExprTree

/-! ## Literals -/

theorem Number.close_comm (x y : Number) : x.close y = y.close x := by
  cases x <;> cases y <;> simp [close, abs_sub_comm]

theorem Constant.sameAs_comm (k l : Constant) : k.sameAs l = l.sameAs k := by
  cases k <;> cases l <;> simp [sameAs, Number.close_comm, Bool.beq_comm]

theorem Constant.sameAs_self {l : Constant} (h : ∀ x ∈ l.number, x.close x = true) :
    l.sameAs l = true := by
  cases l <;> simp_all [sameAs, number]

theorem Constant.sameAs_trans {k l m : Constant}
    (h : ∀ x ∈ k.number, ∀ y ∈ l.number, ∀ z ∈ m.number, x.close y = true → y.close z = true →
      x.close z = true)
    (h1 : k.sameAs l = true) (h2 : l.sameAs m = true) : k.sameAs m = true := by
  cases k <;> cases l <;> cases m <;> simp_all [sameAs, number]

namespace ExprTree

variable {D : Set Number} {u : ExprTree}

/-- **Every tree has its mirror**, if every number is close to itself. -/
theorem exists_mirror (hD : ∀ x ∈ D, x.close x = true) (ht : t.TreeOver D) :
    ∃ u, Mirrors D t u := by
  induction t using induct with
  | h t ih =>
    have ih' : ∀ c ∈ t.parts, ∃ u, Mirrors D c u := fun c hc => ih c hc (ht.under c hc)
    have ihc : ∀ c ∈ t.children, ∃ u, Mirrors D c u := fun c hc => ih' c (mem_append_left _ hc)
    cases hh : t.head with
    | some h => exact exists_mirror_head hh ihc
    | none =>
      cases t with
      | literal l =>
        have hself : Same (.literal l) (.literal l) :=
          same_literal_iff.mpr ⟨l, rfl, Constant.sameAs_self fun x hx => hD x (ht.here x hx)⟩
        exact ⟨.literal l, .intro ⟨ht.here, trivial⟩ nofun, hself,
          iff_of_true hself (.intro trivial nofun)⟩
      | classAd as chain =>
        obtain ⟨hs, hchain⟩ := forall_mem_cons.mp ht.here
        by_cases hcovers : (classAd as chain).Covers
        · exact exists_mirror_covering hs hcovers ihc
        · simp only [Covers, not_or, not_forall, not_not] at hcovers
          obtain ⟨hne, n, hshown, hown⟩ := hcovers
          obtain ⟨e, he⟩ := ne_none_iff_exists'.mp hshown
          obtain ⟨a0, as, rfl⟩ := exists_cons_of_ne_nil hne
          exact exists_mirror_showing hs he hown ihc
            (ih' e (mem_append_right _ (mem_of_lookupChain hchain he)))
      | attrRef | op1 | op2 | op3 | call | list => nomatch hh

/-! ## Covered trees -/

theorem lookup_of_covers (hcovers : (classAd as chain).Covers) (hne : as ≠ []) (n : Text) :
    lookup as chain n = find nameRank n as := by
  rw [lookup, lookupChain]
  cases hf : find nameRank n as with
  | some e => rfl
  | none =>
    refine eq_none_iff_forall_ne_some.mpr fun e (he : lookupChain n chain = some e) => ?_
    exact (hcovers.resolve_left hne) n (by rw [he]; exact some_ne_none _) hf

theorem same_classAd_of_covers {chain chain' : List (List (Text × ExprTree))}
    (hcovers : (classAd bs chain').Covers) : Same (.classAd as chain) (.classAd bs chain') ↔
      as.length = bs.length ∧ ∀ a ∈ as, ∃ e ∈ find nameRank a.1 bs, Same a.2 e := by
  rw [same_classAd_iff]
  constructor
  · rintro ⟨_, _, hu, hlen, h⟩
    obtain ⟨rfl, rfl⟩ := classAd.inj hu
    refine ⟨hlen, fun a ha => ?_⟩
    have hne : bs ≠ [] := by
      rintro rfl
      rw [eq_nil_of_length_eq_zero hlen] at ha
      nomatch ha
    rw [← lookup_of_covers hcovers hne]
    exact h a ha
  · rintro ⟨hlen, h⟩
    refine ⟨bs, chain', rfl, hlen, fun a ha => ?_⟩
    obtain ⟨e, he, hsame⟩ := h a ha
    refine ⟨e, ?_, hsame⟩
    rw [lookup, lookupChain, mem_def.mp he]
    rfl

theorem exists_of_length_eq (ha : Sorted nameRank as)
    (hlen : as.length = bs.length) (h : ∀ a ∈ as, ∃ b ∈ bs, nameRank b.1 = nameRank a.1) :
    ∀ b ∈ bs, ∃ a ∈ as, nameRank b.1 = nameRank a.1 := by
  have hnodup : (as.map fun a => nameRank a.1).Nodup := by
    rw [Nodup, pairwise_map]
    exact ha.imp fun h => ne_of_lt h
  have hsub : as.map (fun a => nameRank a.1) ⊆ bs.map fun b => nameRank b.1 := by
    intro r hr
    obtain ⟨a, ha, rfl⟩ := mem_map.mp hr
    obtain ⟨b, hb, hr⟩ := h a ha
    exact mem_map.mpr ⟨b, hb, hr⟩
  have hperm := (subperm_of_subset hnodup hsub).perm_of_length_le (by simp [hlen])
  intro b hb
  obtain ⟨a, ha, hr⟩ := mem_map.mp (hperm.symm.subset (mem_map_of_mem hb))
  exact ⟨a, ha, hr.symm⟩

/-- **`SameAs` is symmetric on covered trees.** -/
theorem same_symm (ht : t.TreeOver D) (hu : u.TreeOver D) (hct : t.Covered) (hcu : u.Covered)
    (h : Same t u) : Same u t := by
  induction t using induct generalizing u with
  | h t ih =>
    have ih' : ∀ c ∈ t.children, ∀ d ∈ u.children, Same c d → Same d c := fun c hc d hd =>
      ih c (mem_append_left _ hc) (ht.under c (mem_append_left _ hc))
        (hu.under d (mem_append_left _ hd)) (hct.under c hc) (hcu.under d hd)
    cases hh : t.head with
    | some k =>
      obtain ⟨huk, hforall⟩ := (same_head_iff hh).mp h
      exact (same_head_iff huk).mpr ⟨hh, forall₂_flip hforall ih'⟩
    | none =>
      cases t with
      | literal l =>
        obtain ⟨l', rfl, -⟩ := same_literal_iff.mp h
        exact same_literal_iff.mpr ⟨l, rfl, by rwa [Constant.sameAs_comm]⟩
      | classAd as chain =>
        obtain ⟨bs, chain', rfl, -⟩ := same_classAd_iff.mp h
        obtain ⟨hlen, hall⟩ := (same_classAd_of_covers hcu.here).mp h
        refine (same_classAd_of_covers hct.here).mpr ⟨hlen.symm, fun b hb => ?_⟩
        have hsa := ht.here as mem_cons_self
        have hsb := hu.here bs mem_cons_self
        obtain ⟨a, ha, hr⟩ := exists_of_length_eq hsa hlen (fun a ha => by
          obtain ⟨e, he, -⟩ := hall a ha
          obtain ⟨k, hk, hmem⟩ := (find_eq_some_iff hsb).mp he
          exact ⟨(k, e), hmem, hk⟩) b hb
        obtain ⟨e, he, hsame⟩ := hall a ha
        have hbe : find nameRank a.1 bs = some b.2 := (find_eq_some_iff hsb).mpr ⟨b.1, hr, hb⟩
        obtain rfl := some.inj (hbe.symm.trans he)
        exact ⟨a.2, (find_eq_some_iff hsa).mpr ⟨a.1, hr.symm, ha⟩,
          ih' a.2 (mem_map_of_mem ha) b.2 (mem_map_of_mem hb) hsame⟩
      | attrRef | op1 | op2 | op3 | call | list => nomatch hh

/-- **`SameAs` is transitive on covered trees**, if it is transitive on their numbers. -/
theorem same_trans (hD : ∀ x ∈ D, ∀ y ∈ D, ∀ z ∈ D, x.close y = true → y.close z = true →
    x.close z = true)
    {t u v : ExprTree} (ht : t.TreeOver D) (hu : u.TreeOver D) (hv : v.TreeOver D) (hcu : u.Covered)
    (hcv : v.Covered) (h1 : Same t u) (h2 : Same u v) : Same t v := by
  induction t using induct generalizing u v with
  | h t ih =>
    have ih' : ∀ c ∈ t.children, ∀ d ∈ u.children, ∀ e ∈ v.children, Same c d → Same d e →
        Same c e :=
      fun c hc d hd e he => ih c (mem_append_left _ hc) (ht.under c (mem_append_left _ hc))
        (hu.under d (mem_append_left _ hd)) (hv.under e (mem_append_left _ he)) (hcu.under d hd)
        (hcv.under e he)
    cases hh : t.head with
    | some k =>
      obtain ⟨huk, hforall⟩ := (same_head_iff hh).mp h1
      obtain ⟨hvk, hforall'⟩ := (same_head_iff huk).mp h2
      exact (same_head_iff hh).mpr ⟨hvk, forall₂_trans hforall hforall' ih'⟩
    | none =>
      cases t with
      | literal l =>
        obtain ⟨l', rfl, hl⟩ := same_literal_iff.mp h1
        obtain ⟨l'', rfl, hl'⟩ := same_literal_iff.mp h2
        refine same_literal_iff.mpr ⟨l'', rfl,
          Constant.sameAs_trans (fun x hx y hy z hz => ?_) hl hl'⟩
        exact hD x (ht.here x hx) y (hu.here y hy) z (hv.here z hz)
      | classAd as chain =>
        obtain ⟨bs, chain', rfl, -⟩ := same_classAd_iff.mp h1
        obtain ⟨cs, chain'', rfl, -⟩ := same_classAd_iff.mp h2
        obtain ⟨hlen, hall⟩ := (same_classAd_of_covers hcu.here).mp h1
        obtain ⟨hlen', hall'⟩ := (same_classAd_of_covers hcv.here).mp h2
        have hsb := hu.here bs mem_cons_self
        have hsc := hv.here cs mem_cons_self
        refine (same_classAd_of_covers hcv.here).mpr ⟨hlen.trans hlen', fun a ha => ?_⟩
        obtain ⟨e, he, hsame⟩ := hall a ha
        obtain ⟨k, hk, hmem⟩ := (find_eq_some_iff hsb).mp he
        obtain ⟨e', he', hsame'⟩ := hall' (k, e) hmem
        obtain ⟨k', hk', hmem'⟩ := (find_eq_some_iff hsc).mp he'
        exact ⟨e', (find_eq_some_iff hsc).mpr ⟨k', hk'.trans hk, hmem'⟩,
          ih' a.2 (mem_map_of_mem ha) e (mem_map_of_mem hmem) e' (mem_map_of_mem hmem')
          hsame hsame'⟩
      | attrRef | op1 | op2 | op3 | call | list => nomatch hh

end ExprTree

/-! ## When `SameAs` is an equivalence -/

/-- Each tree is the same as itself, and different objects with equal trees are treated alike. -/
structure SameAsEquivalence (S : Set ExprTree) : Prop where
  refl : ∀ t ∈ S, t.sameAsSelf = true
  symm : ∀ t ∈ S, ∀ u ∈ S, t.sameAs u = true → u.sameAs t = true
  trans : ∀ t ∈ S, ∀ u ∈ S, ∀ v ∈ S, t.sameAs u = true → u.sameAs v = true → t.sameAs v = true

/-- The numbers are finite, and those that are close to the same number are close to each other. -/
structure Clustered (D : Set Number) : Prop where
  finite : ∀ x ∈ D, ∃ q, x = .finite q
  trans : ∀ x ∈ D, ∀ y ∈ D, ∀ z ∈ D, x.close y = true → y.close z = true → x.close z = true

theorem Number.close_self_iff {x : Number} : x.close x = true ↔ ∃ q, x = .finite q := by
  cases x with
  | finite q => norm_num [close, epsilon]
  | infinite s => simp [close]

/-- **When `SameAs` is an equivalence**: if and only if the numbers are finite and closeness is
transitive on them, and every ad with attributes has all those of its chain. -/
theorem sameAs_equivalence_iff {D : Set Number} {S : Set ExprTree} (hover : ∀ t ∈ S, t.TreeOver D)
    (hsimple : ∀ t, t.Simple D → t ∈ S) :
    SameAsEquivalence S ↔ Clustered D ∧ ∀ t ∈ S, t.Covered := by
  constructor
  · intro h
    have hmem : ∀ x ∈ D, literal (.real x) ∈ S := fun x hx =>
      hsimple _ (.intro ⟨fun y hy => some.inj hy ▸ hx, trivial⟩ nofun)
    have hfinite : ∀ x ∈ D, x.close x = true := fun x hx => h.refl _ (hmem x hx)
    refine ⟨⟨fun x hx => Number.close_self_iff.mp (hfinite x hx), fun x hx y hy z hz => ?_⟩,
      fun t ht => ?_⟩
    · exact h.trans _ (hmem x hx) _ (hmem y hy) _ (hmem z hz)
    · obtain ⟨u, hu, hut, hiff⟩ := exists_mirror hfinite (hover t ht)
      exact hiff.mp (h.symm u (hsimple u hu) t ht hut)
  · rintro ⟨hD, hcov⟩
    refine ⟨fun t ht => ?_, fun t ht u hu => ?_, fun t ht u hu v hv => ?_⟩
    · cases t with
      | literal l =>
        exact Constant.sameAs_self fun x hx =>
          Number.close_self_iff.mpr (hD.finite x ((hover _ ht).here x hx))
      | _ => rfl
    · exact same_symm (hover t ht) (hover u hu) (hcov t ht) (hcov u hu)
    · exact same_trans hD.trans (hover t ht) (hover u hu) (hover v hv) (hcov u hu) (hcov v hv)

theorem ExprTree.Simple.covered {D : Set Number} (h : t.Simple D) : t.Covered := by
  induction h with
  | @intro t h _ ih =>
    refine .intro ?_ fun c hc => ih c (mem_append_left _ hc)
    cases t with
    | classAd as chain =>
      obtain rfl : chain = [] := h.2
      exact .inr fun n hn => absurd rfl hn
    | _ => trivial

/-- An ad over a parent with another value of the same attribute, and an ad without a parent. -/
theorem sameAs_equivalence_hidden :
    let t : ExprTree := .classAd [(['a'], .literal (.integer 1))] [[(['A'], .literal (.integer 2))]]
    let u : ExprTree := .classAd [(['A'], .literal (.integer 1))] []
    u.sameAs t = true := by
  intro t u
  have hover : t.TreeOver ∅ ∧ u.TreeOver ∅ := by
    constructor
    all_goals
      refine .intro (by simp [t, u, Over, Sorted]) fun c hc => ?_
      simp only [t, u, parts, children, chained, map_cons, map_nil, flatten_cons, flatten_nil,
        singleton_append, mem_cons, not_mem_nil, or_false] at hc
      rcases hc with rfl | rfl <;>
        exact .intro (by simp [Over, Constant.number]) (fun _ h => by cases h)
  have hcov : t.Covered ∧ u.Covered := by
    refine ⟨.intro (.inr fun n => ?_) fun c hc => ?_,
      .intro (.inr fun n hn => absurd rfl hn) fun c hc => ?_⟩
    · have hrank : nameRank ['A'] = nameRank ['a'] := by decide
      simp only [lookupChain, find, hrank]
      split_ifs <;> simp
    all_goals
      obtain rfl := mem_singleton.mp hc
      exact .intro trivial fun _ h => by cases h
  have h := (sameAs_equivalence_iff (S := {t | t.TreeOver ∅ ∧ t.Covered}) (fun _ h => h.1)
    fun _ h => ⟨h.treeOver, h.covered⟩).mpr ⟨⟨(fun _ h => by cases h), (fun _ h => by cases h)⟩,
      fun _ h => h.2⟩
  exact h.symm t ⟨hover.1, hcov.1⟩ u ⟨hover.2, hcov.2⟩ rfl

/-- An ad `[a = 1]` is the same as `[b = 2]` over `[a = 1]`, but not the other way round; and two
numbers. -/
theorem sameAs_not_equivalence :
    let t : ExprTree := .classAd [(['a'], .literal (.integer 1))] []
    let u : ExprTree := .classAd [(['b'], .literal (.integer 2))] [[(['a'], .literal (.integer 1))]]
    let x (k : ℚ) : ExprTree := .literal (.real (.finite (k / 2 ^ 52)))
    (t.sameAs u = true ∧ u.sameAs t = false) ∧
      (literal (.real (.infinite false))).sameAsSelf = false ∧
      ((x 0).sameAs (x 1) = true ∧ (x 1).sameAs (x 2) = true ∧ (x 0).sameAs (x 2) = false) := by
  refine ⟨⟨rfl, rfl⟩, rfl, ?_⟩
  norm_num [sameAs, Constant.sameAs, Number.close, epsilon]

end Condor.ClassAd
