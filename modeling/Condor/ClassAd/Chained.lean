import Condor.ClassAd.Syntax

/-!
# Chained ads — an ad over a parent ad

An ad can be chained to a parent ad, which can have a parent of its own. A lookup that fails in an
ad goes on in its parent; an attribute of the parent is deleted by hiding it behind an undefined
value.

* **`overlays_iff`**.
-/

namespace Condor.ClassAd

open Option FlatMap

/-! ## Trees -/

/-- A `double` that is a number. -/
inductive Number where
  | finite (q : ℚ)
  | infinite (negative : Bool)
deriving DecidableEq

/-- `std::numeric_limits<double>::epsilon()`. -/
def epsilon : ℚ := 1 / 2 ^ 52

/-- `fabs(b - a) <= epsilon`, with the difference rounded. -/
def Number.close : Number → Number → Bool
  | finite a, finite b => decide (|b - a| ≤ epsilon + 1 / 2 ^ 105)
  | _, _ => false

/-- `Literal`, with the value that it holds. -/
inductive Constant where
  | undefined
  | error
  | boolean (b : Bool)
  | integer (i : ℤ)
  | real (x : Number)
  | string (s : Text)
  | absTime (secs offset : ℤ)
  | relTime (x : Number)
deriving DecidableEq

/-- `SameAs` of the literals. -/
def Constant.sameAs : Constant → Constant → Bool
  | undefined, undefined => true
  | error, error => true
  | boolean a, boolean b => a == b
  | integer a, integer b => a == b
  | real a, real b => a.close b
  | string a, string b => a == b
  | absTime secs offset, absTime secs' offset' => secs == secs' && offset == offset'
  | relTime a, relTime b => a.close b
  | _, _ => false

/-- `ExprTree`. An ad has its attributes and those of the ads that it is chained to, the nearest
first. -/
inductive ExprTree where
  | literal (l : Constant)
  | attrRef (scope : Option ExprTree) (name : Text) (absolute : Bool)
  | op1 (op : OpKind) (e : ExprTree)
  | op2 (op : OpKind) (l r : ExprTree)
  | op3 (c : ExprTree) (m : Option ExprTree) (r : ExprTree)
  | call (name : Text) (args : List ExprTree)
  | list (es : List ExprTree)
  | classAd (attrs : List (Text × ExprTree)) (chain : List (List (Text × ExprTree)))

/-- `ClassAd::Lookup` of a chained parent, and so on. -/
def lookupChain {V : Type} (name : Text) : List (List (Text × V)) → Option V
  | [] => none
  | attrs :: chain =>
    match Flat.find nameRank name attrs with
    | some e => some e
    | none => lookupChain name chain

def lookup {V : Type} (attrs : List (Text × V)) (chain : List (List (Text × V))) (name : Text) :
    Option V :=
  lookupChain name (attrs :: chain)

mutual

/-- `ExprTree::SameAs` of two different objects. -/
def ExprTree.sameAs : ExprTree → ExprTree → Bool
  | .literal a, .literal b => a.sameAs b
  | .attrRef s n a, .attrRef s' n' a' => a == a' && n == n' && ExprTree.sameChild s s'
  | .op1 o e, .op1 o' e' => o == o' && e.sameAs e'
  | .op2 o l r, .op2 o' l' r' => o == o' && l.sameAs l' && r.sameAs r'
  | .op3 c m r, .op3 c' m' r' => c.sameAs c' && ExprTree.sameChild m m' && r.sameAs r'
  | .call f as, .call f' as' => f == f' && ExprTree.sameList as as'
  | .list as, .list bs => ExprTree.sameList as bs
  | .classAd as _, .classAd bs chain =>
    as.length == bs.length && ExprTree.sameAttrs as (lookup bs chain)
  | _, _ => false
termination_by structural e => e

def ExprTree.sameChild : Option ExprTree → Option ExprTree → Bool
  | none, none => true
  | some a, some b => a.sameAs b
  | _, _ => false
termination_by structural e => e

def ExprTree.sameList : List ExprTree → List ExprTree → Bool
  | [], [] => true
  | a :: as, b :: bs => a.sameAs b && ExprTree.sameList as bs
  | _, _ => false
termination_by structural e => e

/-- Every attribute is found by the lookup in the other ad, with the same expression. -/
def ExprTree.sameAttrs : List (Text × ExprTree) → (Text → Option ExprTree) → Bool
  | [], _ => true
  | a :: as, look => ExprTree.sameAttr a look && ExprTree.sameAttrs as look
termination_by structural e => e

def ExprTree.sameAttr : Text × ExprTree → (Text → Option ExprTree) → Bool
  | (n, e), look =>
    match look n with
    | some e' => e.sameAs e'
    | none => false
termination_by structural e => e

end

/-- `ExprTree::SameAs` of an object with itself, which only literals do not look at. -/
def ExprTree.sameAsSelf : ExprTree → Bool
  | .literal a => a.sameAs a
  | _ => true

/-! ## Calls on an ad with a chain -/

/-- An ad, its parent, and the ads that the parent is chained to. -/
structure ChainedAd where
  attrs : FlatMap nameRank ExprTree
  parent : FlatMap nameRank ExprTree
  ancestors : List (FlatMap nameRank ExprTree)

namespace ChainedAd

variable (ad : ChainedAd) (name : Text)

/-- `chained_parent_ad->Lookup`. -/
def parentLookup : Option ExprTree :=
  lookup ad.parent.entries (ad.ancestors.map entries) name

def lookup (name : Text) : Option ExprTree :=
  ClassAd.lookup ad.attrs.entries (ad.parent.entries :: ad.ancestors.map entries) name

/-- `ClassAd::Insert`: an attribute has to have a name. -/
def insert (tree : ExprTree) : ChainedAd × Bool :=
  if name.isEmpty then (ad, false) else ({ ad with attrs := ad.attrs.put name tree }, true)

/-- `ClassAd::InsertAttr` of a value without a factor; the name is not looked at. -/
def insertAttr (value : Constant) : ChainedAd :=
  { ad with attrs := ad.attrs.put name (.literal value) }

def delete : ChainedAd × Bool :=
  let found := (ad.attrs.find name).isSome
  let ad' : ChainedAd := { ad with attrs := ad.attrs.erase name }
  if (ad'.parentLookup name).isSome then ((ad'.insert name (.literal .undefined)).1, true)
    else (ad', found)

/-- `ClassAd::Remove`: the ad and the tree that it had, or a copy of the tree of its parent. -/
def remove : ChainedAd × Option ExprTree :=
  let tree := ad.attrs.find name
  let ad' : ChainedAd := { ad with attrs := ad.attrs.erase name }
  match ad'.parentLookup name with
  | some parentExpr => ((ad'.insert name (.literal .undefined)).1, some (tree.getD parentExpr))
  | none => (ad', tree)

/-- The parent has an attribute that is the same as this one. -/
def parentMatches (a : Text × ExprTree) : Bool := (ad.parentLookup a.1).any (·.sameAs a.2)

def pruneChildAttr (ifChildMatches : Bool) : ChainedAd × Bool :=
  match ad.attrs.find name with
  | none => (ad, false)
  | some e =>
    if !ifChildMatches || ad.parentMatches (name, e) then
      ({ ad with attrs := ad.attrs.erase name }, true)
    else (ad, false)

/-- `ClassAd::PruneChildAd`: the attributes are collected first. -/
def pruneChildAd : ChainedAd × ℕ :=
  let victims := (ad.attrs.entries.filter ad.parentMatches).map Prod.fst
  ({ ad with attrs := victims.foldl erase ad.attrs }, victims.length)

end ChainedAd

/-- A call. The forms of `InsertAttr` with a factor or a whole string go through `Insert`. -/
inductive ChainCall where
  | insert (name : Text) (tree : ExprTree)
  | insertAttrChecked (name : Text) (value : Constant)
  | insertAttr (name : Text) (value : Constant)
  | delete (name : Text)
  | remove (name : Text)
  | pruneChildAttr (name : Text)
  | pruneChildAd

def ChainedAd.step (ad : ChainedAd) : ChainCall → ChainedAd
  | .insert name tree => (ad.insert name tree).1
  | .insertAttrChecked name value => (ad.insert name (.literal value)).1
  | .insertAttr name value => ad.insertAttr name value
  | .delete name => (ad.delete name).1
  | .remove name => (ad.remove name).1
  | .pruneChildAttr name => (ad.pruneChildAttr name true).1
  | .pruneChildAd => ad.pruneChildAd.1

/-! ## The overlay -/

def ChainCall.name : ChainCall → Option Text
  | insert n _ | insertAttrChecked n _ | insertAttr n _ | delete n | remove n | pruneChildAttr n =>
    some n
  | pruneChildAd => none

def ChainCall.inserted : ChainCall → Option ExprTree
  | insert _ t => some t
  | insertAttrChecked _ v | insertAttr _ v => some (.literal v)
  | delete _ | remove _ | pruneChildAttr _ | pruneChildAd => none

def ChainCall.deletes : ChainCall → Bool
  | delete _ | remove _ => true
  | _ => false

def ChainCall.prunes : ChainCall → Bool
  | pruneChildAttr _ | pruneChildAd => true
  | _ => false

def Hidden (t : Option ExprTree) : Prop := t = none ∨ t = some (.literal .undefined)

/-- The two results of a lookup are the same, or the new tree is the same as the old one. -/
def SameFound (new old : Option ExprTree) : Prop :=
  new = old ∨ ∃ t ∈ new, ∃ u ∈ old, t.sameAs u = true

/-- **What a call does to an overlay**: the name has what is inserted, or no defined value if it is
taken away; nothing else changes. -/
structure Overlay (ad : ChainedAd) (c : ChainCall) (ad' : ChainedAd) : Prop where
  parent : ad'.parent = ad.parent ∧ ad'.ancestors = ad.ancestors
  inserted : ∀ n ∈ c.name, ∀ t ∈ c.inserted, ad'.lookup n = some t
  deleted : c.deletes = true → ∀ n ∈ c.name, Hidden (ad'.lookup n)
  pruned : c.prunes = true → ∀ m, SameFound (ad'.lookup m) (ad.lookup m)
  others : ∀ n ∈ c.name, ∀ m, caseEq m n = false → ad'.lookup m = ad.lookup m

/-- The call has a name where it needs one: `Insert` refuses to insert without. -/
def ChainCall.Named (ad : ChainedAd) : ChainCall → Prop
  | insert n t => n ≠ [] ∨ ad.lookup [] = some t
  | insertAttrChecked n v => n ≠ [] ∨ ad.lookup [] = some (.literal v)
  | delete n | remove n => n ≠ [] ∨ Hidden (ad.parentLookup [])
  | insertAttr _ _ | pruneChildAttr _ | pruneChildAd => True

/-! ## What the calls do to a lookup -/

namespace ChainedAd

variable {ad : ChainedAd} {n m : Text} {t : ExprTree}

theorem lookup_eq : ad.lookup m = (ad.attrs.find m).or (ad.parentLookup m) := by
  unfold lookup parentLookup ClassAd.lookup
  rw [lookupChain, find]
  cases Flat.find nameRank m ad.attrs.entries <;> rfl

theorem parentLookup_congr (h : nameRank m = nameRank n) :
    ad.parentLookup m = ad.parentLookup n := by
  have hchain : ∀ l : List (FlatMap nameRank ExprTree),
      lookupChain m (l.map entries) = lookupChain n (l.map entries) := by
    intro l
    induction l with
    | nil => rfl
    | cons p l ih =>
      have hp : Flat.find nameRank m p.entries = Flat.find nameRank n p.entries := p.find_congr h
      rw [List.map_cons, lookupChain, lookupChain, hp, ih]
  exact hchain (ad.parent :: ad.ancestors)

theorem lookup_put :
    lookup { ad with attrs := ad.attrs.put n t } m = if nameRank m = nameRank n then some t
      else ad.lookup m := by
  rw [lookup_eq, lookup_eq, find_put]
  split_ifs <;> rfl

theorem lookup_erase : lookup { ad with attrs := ad.attrs.erase n } m =
      if nameRank m = nameRank n then ad.parentLookup m else ad.lookup m := by
  rw [lookup_eq, lookup_eq, find_erase]
  split_ifs <;> rfl

theorem insert_of_ne (h : n ≠ []) : (ad.insert n t).1 = { ad with attrs := ad.attrs.put n t } := by
  rw [insert, if_neg (by simpa using h)]

theorem insert_nil : (ad.insert [] t).1 = ad := rfl

theorem remove_eq_delete : (ad.remove n).1 = (ad.delete n).1 := by
  unfold remove delete
  dsimp only
  cases parentLookup { ad with attrs := ad.attrs.erase n } n <;> rfl

/-- A deleted name has the undefined value in front of the parent's, if it is a name. -/
theorem lookup_delete (n m : Text) : (ad.delete n).1.lookup m = if nameRank m = nameRank n then
        if n = [] then ad.parentLookup n else (ad.parentLookup n).map fun _ => .literal .undefined
      else ad.lookup m := by
  have hparent : parentLookup { ad with attrs := ad.attrs.erase n } n = ad.parentLookup n := rfl
  unfold delete
  simp only [hparent]
  cases hp : ad.parentLookup n with
  | none =>
    simp only [isSome_none, Bool.false_eq_true, if_false, map_none, ite_self]
    rw [lookup_erase]
    split_ifs with h
    · rw [parentLookup_congr h, hp]
    · rfl
  | some e =>
    simp only [isSome_some, if_true]
    by_cases hn : n = []
    · subst hn
      rw [insert_nil, lookup_erase, if_pos rfl]
      split_ifs with h
      · rw [parentLookup_congr h, hp]
      · rfl
    · rw [insert_of_ne hn, lookup_put, lookup_erase]
      split_ifs <;> rfl

theorem find_foldl_erase (attrs : FlatMap nameRank ExprTree) (ns : List Text) :
    (ns.foldl erase attrs).find m =
      if ∃ n ∈ ns, nameRank m = nameRank n then none else attrs.find m := by
  induction ns generalizing attrs with
  | nil => simp
  | cons n ns ih =>
    rw [List.foldl_cons, ih]
    by_cases hn : nameRank m = nameRank n
    · simp [hn]
    · simp [hn]

theorem sameFound_pruned {a : Text × ExprTree} (ha : a ∈ ad.attrs.entries)
    (hm : nameRank m = nameRank a.1) (hmatch : ad.parentMatches a = true) :
    SameFound (ad.parentLookup m) (ad.lookup m) := by
  have hfind : ad.attrs.find m = some a.2 := find_eq_some_iff.mpr ⟨a.1, hm.symm, ha⟩
  rw [parentMatches, ← parentLookup_congr hm] at hmatch
  rw [lookup_eq, hfind]
  cases hp : ad.parentLookup m with
  | none => rw [hp] at hmatch; cases hmatch
  | some t => exact .inr ⟨t, rfl, a.2, rfl, by simpa [hp] using hmatch⟩

variable (ad)

theorem lookup_pruneChildAttr : (ad.pruneChildAttr n true).1.lookup m = ad.lookup m ∨
      nameRank m = nameRank n ∧ (ad.pruneChildAttr n true).1.lookup m = ad.parentLookup m ∧
        ∃ a ∈ ad.attrs.entries, nameRank m = nameRank a.1 ∧ ad.parentMatches a = true := by
  unfold pruneChildAttr
  cases hf : ad.attrs.find n with
  | none => exact .inl rfl
  | some e =>
    by_cases hmatch : ad.parentMatches (n, e) = true
    · simp only [hmatch, Bool.or_true, if_true]
      rw [lookup_erase]
      by_cases hm : nameRank m = nameRank n
      · obtain ⟨k, hk, hmem⟩ := find_eq_some_iff.mp hf
        refine .inr ⟨hm, if_pos hm, (k, e), hmem, hm.trans hk.symm, ?_⟩
        rwa [parentMatches, parentLookup_congr hk]
      · exact .inl (if_neg hm)
    · simp [hmatch]

theorem lookup_pruneChildAd : ad.pruneChildAd.1.lookup m = ad.lookup m ∨
      ad.pruneChildAd.1.lookup m = ad.parentLookup m ∧
        ∃ a ∈ ad.attrs.entries, nameRank m = nameRank a.1 ∧ ad.parentMatches a = true := by
  have hlook : ad.pruneChildAd.1.lookup m =
      ((((ad.attrs.entries.filter ad.parentMatches).map Prod.fst).foldl erase ad.attrs).find m).or
        (ad.parentLookup m) := lookup_eq
  rw [hlook, find_foldl_erase]
  split_ifs with h
  · obtain ⟨n, hn, hm⟩ := h
    obtain ⟨a, ha, rfl⟩ := List.mem_map.mp hn
    obtain ⟨hmem, hmatch⟩ := List.mem_filter.mp ha
    exact .inr ⟨rfl, a, hmem, hm, hmatch⟩
  · exact .inl (lookup_eq).symm

def SameParent (ad' ad : ChainedAd) : Prop := ad'.parent = ad.parent ∧ ad'.ancestors = ad.ancestors

theorem sameParent_insert : SameParent (ad.insert n t).1 ad := by
  unfold insert
  split_ifs <;> exact ⟨rfl, rfl⟩

theorem sameParent_delete : SameParent (ad.delete n).1 ad := by
  unfold delete
  dsimp only
  split_ifs
  · exact sameParent_insert { ad with attrs := ad.attrs.erase n }
  · exact ⟨rfl, rfl⟩

theorem sameParent_pruneChildAttr : SameParent (ad.pruneChildAttr n true).1 ad := by
  unfold pruneChildAttr
  cases ad.attrs.find n with
  | none => exact ⟨rfl, rfl⟩
  | some e => dsimp only; split_ifs <;> exact ⟨rfl, rfl⟩

/-- **No call changes the parent.** -/
theorem sameParent_step (c : ChainCall) : SameParent (ad.step c) ad := by
  cases c with
  | insert n t => exact ad.sameParent_insert
  | insertAttrChecked n v => exact ad.sameParent_insert
  | insertAttr n v | pruneChildAd => exact ⟨rfl, rfl⟩
  | delete n => exact ad.sameParent_delete
  | remove n =>
    rw [step, ad.remove_eq_delete]
    exact ad.sameParent_delete
  | pruneChildAttr n => exact ad.sameParent_pruneChildAttr

end ChainedAd

/-! ## Runs -/

theorem nameRank_ne {m n : Text} (h : caseEq m n = false) : nameRank m ≠ nameRank n := fun he => by
  rw [nameRank_eq_iff.mp he] at h
  cases h

variable {ad : ChainedAd} {c : ChainCall} {n : Text}

section

variable {t : ExprTree} (hname : c.name = some n) (hins : c.inserted = some t)
  (hdel : c.deletes = false) (hprune : c.prunes = false)
include hname hins hdel hprune

theorem overlay_put : Overlay ad c { ad with attrs := ad.attrs.put n t } where
  parent := ⟨rfl, rfl⟩
  inserted k hk u hu := by
    obtain rfl := some.inj (hname.symm.trans hk)
    obtain rfl := some.inj (hins.symm.trans hu)
    rw [ChainedAd.lookup_put, if_pos rfl]
  deleted h := by rw [hdel] at h; cases h
  pruned h := by rw [hprune] at h; cases h
  others k hk m hm := by
    obtain rfl := some.inj (hname.symm.trans hk)
    rw [ChainedAd.lookup_put, if_neg (nameRank_ne hm)]

theorem overlay_insert_iff : Overlay ad c (ad.insert n t).1 ↔ n ≠ [] ∨ ad.lookup [] = some t := by
  by_cases hn : n = []
  · subst hn
    refine ⟨fun h => .inr (h.inserted [] hname t hins), fun h => ?_⟩
    have hl := h.resolve_left (by simp)
    refine ⟨⟨rfl, rfl⟩, fun k hk u hu => ?_, fun h => ?_, fun h => ?_, fun _ _ _ _ => rfl⟩
    · obtain rfl := some.inj (hname.symm.trans hk)
      obtain rfl := some.inj (hins.symm.trans hu)
      exact hl
    · rw [hdel] at h; cases h
    · rw [hprune] at h; cases h
  · rw [ChainedAd.insert_of_ne hn]
    exact ⟨fun _ => .inl hn, fun _ => overlay_put hname hins hdel hprune⟩

end

theorem overlay_delete_iff (hname : c.name = some n)
    (hins : c.inserted = none) (hdel : c.deletes = true) (hprune : c.prunes = false) :
    Overlay ad c (ad.delete n).1 ↔ n ≠ [] ∨ Hidden (ad.parentLookup []) := by
  have hlook := ad.lookup_delete n n
  rw [if_pos rfl] at hlook
  constructor
  · intro h
    by_cases hn : n = []
    · subst hn
      rw [if_pos rfl] at hlook
      exact .inr (hlook ▸ h.deleted hdel [] hname)
    · exact .inl hn
  · intro h
    refine ⟨ad.sameParent_delete, fun k _ u hu => ?_, fun _ k hk => ?_, fun hp => ?_,
      fun k hk m hm => ?_⟩
    · rw [hins] at hu
      nomatch hu
    · obtain rfl := some.inj (hname.symm.trans hk)
      rw [hlook]
      split_ifs with hn
      · subst hn
        exact h.resolve_left (by simp)
      · cases ad.parentLookup n with
        | none => exact .inl rfl
        | some e => exact .inr rfl
    · rw [hprune] at hp; cases hp
    · obtain rfl := some.inj (hname.symm.trans hk)
      rw [ad.lookup_delete, if_neg (nameRank_ne hm)]

theorem overlay_pruneChildAttr : Overlay ad (.pruneChildAttr n) (ad.pruneChildAttr n true).1 where
  parent := ad.sameParent_pruneChildAttr
  inserted _ _ _ ht := nomatch ht
  deleted h := nomatch h
  pruned _ m := by
    rcases ad.lookup_pruneChildAttr with h | ⟨-, h, a, ha, hm, hmatch⟩
    · exact .inl h
    · rw [h]
      exact ChainedAd.sameFound_pruned ha hm hmatch
  others k hk m hm := by
    obtain rfl := some.inj hk
    exact (ad.lookup_pruneChildAttr).resolve_right fun h => nameRank_ne hm h.1

theorem overlay_pruneChildAd : Overlay ad .pruneChildAd ad.pruneChildAd.1 where
  parent := ⟨rfl, rfl⟩
  inserted _ hn := nomatch hn
  deleted h := nomatch h
  pruned _ m := by
    rcases ad.lookup_pruneChildAd with h | ⟨h, a, ha, hm, hmatch⟩
    · exact .inl h
    · rw [h]
      exact ChainedAd.sameFound_pruned ha hm hmatch
  others _ hn := nomatch hn

/-- **One call** acts as on an overlay exactly when it has a name where it needs one. -/
theorem overlay_iff : Overlay ad c (ad.step c) ↔ c.Named ad := by
  cases c with
  | insert n t | insertAttrChecked n v => exact overlay_insert_iff rfl rfl rfl rfl
  | insertAttr n v => exact iff_of_true (overlay_put rfl rfl rfl rfl) trivial
  | delete n => exact overlay_delete_iff rfl rfl rfl rfl
  | remove n =>
    rw [ChainedAd.step, ad.remove_eq_delete]
    exact overlay_delete_iff rfl rfl rfl rfl
  | pruneChildAttr n => exact iff_of_true overlay_pruneChildAttr trivial
  | pruneChildAd => exact iff_of_true overlay_pruneChildAd trivial

def Along (p : ChainedAd → ChainCall → Prop) : ChainedAd → List ChainCall → Prop
  | _, [] => True
  | ad, c :: cs => p ad c ∧ Along p (ad.step c) cs

def ChainedAd.run (ad : ChainedAd) (cs : List ChainCall) : ChainedAd := cs.foldl ChainedAd.step ad

theorem ChainedAd.sameParent_run (ad : ChainedAd) (cs : List ChainCall) :
    SameParent (ad.run cs) ad := by
  induction cs generalizing ad with
  | nil => exact ⟨rfl, rfl⟩
  | cons c cs ih =>
    obtain ⟨h1, h2⟩ := ih (ad.step c)
    obtain ⟨h3, h4⟩ := ad.sameParent_step c
    exact ⟨h1.trans h3, h2.trans h4⟩

/-- **A chained ad is an overlay** in every run exactly if each call has a name where it needs one.
-/
theorem overlays_iff (ad : ChainedAd) (cs : List ChainCall) :
    ((ad.run cs).SameParent ad ∧ Along (fun ad c => Overlay ad c (ad.step c)) ad cs) ↔
      Along (fun ad c => c.Named ad) ad cs := by
  rw [and_iff_right (ad.sameParent_run cs)]
  induction cs generalizing ad with
  | nil => exact Iff.rfl
  | cons c cs ih => exact and_congr overlay_iff (ih (ad.step c))

/-- A parent with an attribute without a name, as `InsertAttr` makes it. -/
def namelessParent : ChainedAd where
  attrs := .empty
  parent := (ChainedAd.insertAttr ⟨.empty, .empty, []⟩ [] (.integer 1)).attrs
  ancestors := []

/-- `Delete` without a name reports success, and the value of the parent is still found. -/
theorem delete_nameless :
    (namelessParent.delete []).2 = true ∧ (namelessParent.delete []).1.lookup [] =
      some (.literal (.integer 1)) ∧
      ¬ Overlay namelessParent (.delete []) (namelessParent.step (.delete [])) := by
  have hlook : (namelessParent.delete []).1.lookup [] = some (.literal (.integer 1)) := rfl
  refine ⟨rfl, hlook, fun h => ?_⟩
  rcases h.deleted rfl [] rfl with h | h <;> exact nomatch hlook.symm.trans h

end Condor.ClassAd
