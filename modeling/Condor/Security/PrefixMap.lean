import Condor.Lib.CText
import Mathlib.Data.List.MinMax
import Mathlib.Data.List.Lex

/-!
# Prefix maps

The rows of a method go into a `std::map` that is ordered by `longest_first`; a principal is mapped
by the first key in that order that it starts with. The keys are C strings.

`std::map` asks for a strict ordering, and `longest_first` is none. A search ends behind the keys
that are equal to the one that is searched, which is not found then and is put into the map again.
Where it gets is up to the library (`StdMap`): the usual one puts it in front of the equal key,
where the later row wins.

- **`prefixMap_iff`**: `longest_first` orders no key, and finds none. If the prefixes of the rows
  are different, each is stored once, and the longest one is found.
-/

namespace Condor.Mapping

open List

/-! ## The map -/

/-- `YourString::operator<`. -/
def less (lhs rhs : Text) : Bool := lhs.map Char.toNat < rhs.map Char.toNat

def longestFirst (lhs rhs : Text) : Bool := !less lhs rhs

/-- `PREFIX_MAP`, in the order of its iterators. -/
abbrev PrefixMap := List (Text × Text)

namespace PrefixMap

/-- Each key comes before the smaller ones. -/
def Sorted (m : PrefixMap) : Prop := m.Pairwise fun a b => longestFirst a.1 b.1 = true

/-- The elements before `lower_bound`. -/
def before (m : PrefixMap) (key : Text) : PrefixMap := m.takeWhile fun e => longestFirst e.1 key

/-- The elements from `lower_bound` on. -/
def lowerBound (m : PrefixMap) (key : Text) : PrefixMap := m.dropWhile fun e => longestFirst e.1 key

/-- Whether `find` finds the key: it is not before the element at its lower bound. -/
def contains (m : PrefixMap) (key : Text) : Bool :=
  match lowerBound m key with
  | [] => false
  | e :: _ => !longestFirst key e.1

end PrefixMap

open PrefixMap

/-- **The library**: where a new element gets. For a key that the map has already, anything may
happen. -/
structure StdMap where
  emplace : PrefixMap → Text × Text → PrefixMap
  emplace_of_notMem : ∀ {m row}, Sorted m → row.1 ∉ m.map Prod.fst →
    emplace m row = before m row.1 ++ row :: PrefixMap.lowerBound m row.1

namespace PrefixMap

/-- `m[key] = value`. -/
def assign (T : StdMap) (m : PrefixMap) (key value : Text) : PrefixMap :=
  match lowerBound m key with
  | [] => T.emplace m (key, value)
  | e :: l =>
    if longestFirst key e.1 then T.emplace m (key, value) else before m key ++ (e.1, value) :: l

/-- `CanonicalMapPrefixEntry::add`. -/
def add (T : StdMap) (m : PrefixMap) (row : Text × Text) : PrefixMap :=
  if contains m row.1 then m else assign T m row.1 row.2

/-- The map after the rows. -/
def ofRows (T : StdMap) (rows : List (Text × Text)) : PrefixMap := rows.foldl (add T) []

def startsWith (str pre : Text) : Bool := pre ≠ [] && pre.isPrefixOf str

/-- `CanonicalMapPrefixEntry::matches`: the key and the canonicalization. -/
def matchesKey (m : PrefixMap) (principal : Text) : Option (Text × Text) :=
  m.find? fun e => startsWith principal e.1

end PrefixMap

/-! ## What is meant -/

/-- The keys are ordered as `std::map` requires. -/
structure StrictWeakOn (lt : Text → Text → Bool) (keys : List Text) : Prop where
  irrefl : ∀ a ∈ keys, lt a a = false
  trans : ∀ a ∈ keys, ∀ b ∈ keys, ∀ c ∈ keys, lt a b = true → lt b c = true → lt a c = true
  incomparable : ∀ a ∈ keys, ∀ b ∈ keys, ∀ c ∈ keys, lt a b = false → lt b a = false →
    lt b c = false → lt c b = false → lt a c = false ∧ lt c a = false

/-- The row with the longest prefix, the earliest of them. -/
def longest (rows : List (Text × Text)) (principal : Text) : Option (Text × Text) :=
  (rows.filter fun r => PrefixMap.startsWith principal r.1).argmax fun r => r.1.length

/-! ## The order of the keys -/

namespace PrefixMap

variable {T : StdMap} {m : PrefixMap} {key : Text} {row : Text × Text}

theorem less_iff (a b : Text) : less a b = true ↔ a.map Char.toNat < b.map Char.toNat :=
  decide_eq_true_iff

theorem longestFirst_iff (a b : Text) :
    longestFirst a b = true ↔ b.map Char.toNat ≤ a.map Char.toNat := by
  rw [longestFirst, Bool.not_eq_true', ← Bool.not_eq_true, less_iff, not_lt]

theorem longestFirst_self (a : Text) : longestFirst a a = true := (longestFirst_iff a a).mpr le_rfl

theorem longestFirst_trans {a b c : Text} (hab : longestFirst a b = true)
    (hbc : longestFirst b c = true) : longestFirst a c = true := by
  rw [longestFirst_iff] at *
  exact hbc.trans hab

theorem longestFirst_of_not {a b : Text} (h : longestFirst a b = false) :
    longestFirst b a = true := by
  rw [← Bool.not_eq_true, longestFirst_iff, not_le] at h
  exact (longestFirst_iff ..).mpr h.le

theorem longestFirst_of_mem_before {e : Text × Text} (he : e ∈ before m key) :
    longestFirst e.1 key = true :=
  mem_takeWhile_imp (p := fun e : Text × Text => longestFirst e.1 key) he

theorem longestFirst_of_mem_lowerBound (hm : Sorted m) {e : Text × Text}
    (he : e ∈ lowerBound m key) : longestFirst e.1 key = false := by
  induction m with
  | nil => cases he
  | cons a m ih =>
    obtain ⟨ha, hm⟩ := pairwise_cons.mp hm
    rw [lowerBound, dropWhile_cons] at he
    split at he
    case isTrue => exact ih hm he
    case isFalse h =>
      rw [← Bool.not_eq_true]
      intro hkey
      rcases mem_cons.mp he with rfl | he
      · exact h hkey
      · exact h (longestFirst_trans (ha e he) hkey)

theorem longestFirst_lowerBound (hm : Sorted m) {e : Text × Text} (he : e ∈ lowerBound m key) :
    longestFirst key e.1 = true :=
  longestFirst_of_not (longestFirst_of_mem_lowerBound hm he)

/-- **No key is found**, since the elements at its lower bound are smaller. -/
theorem contains_eq_false (hm : Sorted m) (key : Text) : contains m key = false := by
  rw [contains]
  split
  · rfl
  · next hl => rw [longestFirst_lowerBound hm (hl ▸ mem_cons_self), Bool.not_true]

/-- And so each row is put into the map. -/
theorem add_eq_emplace (hm : Sorted m) : add T m row = T.emplace m row := by
  rw [add, contains_eq_false hm, assign]
  cases hl : lowerBound m row.1 with
  | nil => rfl
  | cons e l => simp [longestFirst_lowerBound hm (hl ▸ mem_cons_self)]

section

variable (hm : Sorted m) (hrow : row.1 ∉ m.map Prod.fst)
include hm hrow

theorem add_eq : add T m row = before m row.1 ++ row :: lowerBound m row.1 := by
  rw [add_eq_emplace hm, T.emplace_of_notMem hm hrow]

theorem Sorted.add : Sorted (add T m row) := by
  rw [add_eq hm hrow]
  refine pairwise_append.mpr ⟨hm.sublist (takeWhile_sublist _), pairwise_cons.mpr
    ⟨fun e => longestFirst_lowerBound hm, hm.sublist (dropWhile_sublist _)⟩, fun a ha b hb => ?_⟩
  have hkey := longestFirst_of_mem_before ha
  rcases mem_cons.mp hb with rfl | hb
  · exact hkey
  · exact longestFirst_trans hkey (longestFirst_lowerBound hm hb)

theorem add_perm : (add T m row).Perm (row :: m) := by
  rw [add_eq hm hrow]
  exact perm_middle.trans (.cons row (.of_eq takeWhile_append_dropWhile))

end

/-- The prefixes of a text are ordered by their length. -/
theorem longestFirst_iff_length {principal a b : Text} (ha : startsWith principal a = true)
    (hb : startsWith principal b = true) : longestFirst a b = true ↔ b.length ≤ a.length := by
  simp only [startsWith, Bool.and_eq_true, isPrefixOf_iff_prefix] at ha hb
  rw [longestFirst_iff]
  constructor
  · intro h
    by_contra hlt
    have hpre := (prefix_of_prefix_length_le ha.2 hb.2 (by omega)).map Char.toNat
    have := congrArg length (le_antisymm h (not_lt.mp hpre.le))
    simp only [length_map] at this
    omega
  · exact fun h => not_lt.mp ((prefix_of_prefix_length_le hb.2 ha.2 h).map Char.toNat).le

theorem matchesKey_add (hm : Sorted m) (hrow : row.1 ∉ m.map Prod.fst) (principal : Text) :
    matchesKey (add T m row) principal = if startsWith principal row.1 then
      (matchesKey m principal).elim (some row) fun e =>
        if e.1.length < row.1.length then some row else some e
    else matchesKey m principal := by
  have hsplit : matchesKey m principal = (matchesKey (before m row.1) principal).or
      (matchesKey (lowerBound m row.1) principal) := by
    rw [matchesKey, matchesKey, matchesKey, ← find?_append, before, lowerBound,
      takeWhile_append_dropWhile]
  have hadd : matchesKey (add T m row) principal = (matchesKey (before m row.1) principal).or
      (matchesKey (row :: lowerBound m row.1) principal) := by
    rw [add_eq hm hrow, matchesKey, find?_append]
    rfl
  have hfound {l : PrefixMap} {e : Text × Text} (h : matchesKey l principal = some e) :
      startsWith principal e.1 = true ∧ e ∈ l :=
    ⟨find?_some (p := fun e : Text × Text => startsWith principal e.1) h, mem_of_find?_eq_some h⟩
  rw [hadd, hsplit, matchesKey.eq_def (row :: _), find?_cons]
  cases hrow : startsWith principal row.1 with
  | false => rfl
  | true =>
    cases hb : matchesKey (before m row.1) principal with
    | some e =>
      have hlen := (longestFirst_iff_length (hfound hb).1 hrow).mp
        (longestFirst_of_mem_before (hfound hb).2)
      simp [hlen]
    | none =>
      cases hl : matchesKey (lowerBound m row.1) principal with
      | none => rfl
      | some e =>
        have hlen := (longestFirst_iff_length (hfound hl).1 hrow).not.mp
          (by simp [longestFirst_of_mem_lowerBound hm (hfound hl).2])
        simp [not_le.mp hlen]

/-! ## All rows -/

theorem ofRows_concat (rows : List (Text × Text)) :
    ofRows T (rows ++ [row]) = add T (ofRows T rows) row := by
  rw [ofRows, foldl_append, foldl_cons, foldl_nil, ofRows]

/-- What the rows come to: a sorted map of them, in which the longest prefix is found. -/
theorem ofRows_spec {rows : List (Text × Text)} (hrows : (rows.map Prod.fst).Nodup) :
    Sorted (ofRows T rows) ∧ (ofRows T rows).Perm rows ∧
      ∀ principal, matchesKey (ofRows T rows) principal = longest rows principal := by
  induction rows using reverseRecOn with
  | nil => exact ⟨.nil, .nil, fun _ => rfl⟩
  | append_singleton rows row ih =>
    rw [map_append, nodup_append] at hrows
    obtain ⟨hrows, -, hdisj⟩ := hrows
    obtain ⟨hsorted, hperm, hlongest⟩ := ih hrows
    have hrow : row.1 ∉ (ofRows T rows).map Prod.fst := fun h =>
      hdisj row.1 ((hperm.map _).mem_iff.mp h) row.1 mem_cons_self rfl
    rw [ofRows_concat]
    refine ⟨hsorted.add hrow, (add_perm hsorted hrow).trans
      ((hperm.cons row).trans (perm_append_singleton row rows).symm), fun principal => ?_⟩
    rw [matchesKey_add hsorted hrow, hlongest, longest, longest, filter_append, filter_cons]
    split
    · rw [filter_nil, argmax_concat]
      cases argmax (fun r => r.1.length) (rows.filter fun r => startsWith principal r.1) <;> rfl
    · rw [filter_nil, append_nil]

end PrefixMap

/-- **Prefix maps**: the order of the keys is a strict one only if there are none, and no key is
found. If the prefixes of the rows are different, each is stored once, and the longest prefix of a
principal is found. -/
theorem prefixMap_iff (T : StdMap) (rows : List (Text × Text)) :
    (StrictWeakOn longestFirst (rows.map Prod.fst) ↔ rows = []) ∧
      (∀ m key, Sorted m → PrefixMap.contains m key = false) ∧
      ((rows.map Prod.fst).Nodup → ((ofRows T rows).map Prod.fst).Nodup ∧
        ∀ principal, matchesKey (ofRows T rows) principal = longest rows principal) := by
  refine ⟨⟨fun h => ?_, ?_⟩, fun m key hm => contains_eq_false hm key, fun hrows => ?_⟩
  · cases rows with
    | nil => rfl
    | cons row rows =>
      have hself := longestFirst_self row.1
      rw [h.irrefl row.1 (by simp)] at hself
      cases hself
  · rintro rfl
    constructor <;> simp
  · obtain ⟨-, hperm, hlongest⟩ := ofRows_spec (T := T) hrows
    exact ⟨(hperm.map _).nodup_iff.mpr hrows, hlongest⟩

theorem place_congr {p q : Text × Text → Bool} {m : PrefixMap} (h : ∀ e ∈ m, p e = q e) :
    m.takeWhile p = m.takeWhile q ∧ m.dropWhile p = m.dropWhile q := by
  induction m with
  | nil => exact ⟨rfl, rfl⟩
  | cons e m ih =>
    obtain ⟨he, hm⟩ := forall_mem_cons.mp h
    simp only [takeWhile_cons, dropWhile_cons, he, ih hm, and_self]

/-- A library that puts an element in front of an equal key. -/
def inFront : StdMap where
  emplace m row := m.takeWhile (fun e => less row.1 e.1) ++ row :: m.dropWhile fun e =>
    less row.1 e.1
  emplace_of_notMem {m row} _ hrow := by
    have hless : ∀ e ∈ m, less row.1 e.1 = longestFirst e.1 row.1 := by
      intro e he
      have hne : e.1.map Char.toNat ≠ row.1.map Char.toNat := fun h =>
        hrow (mem_map.mpr ⟨e, he, map_injective_iff.mpr (fun _ _ => Char.toNat_inj.mp) h⟩)
      rw [Bool.eq_iff_iff, less_iff, longestFirst_iff, lt_iff_le_and_ne]
      exact and_iff_left hne.symm
    obtain ⟨hbefore, hbehind⟩ := place_congr hless
    rw [hbefore, hbehind, before, PrefixMap.lowerBound]

theorem prefixMap_iff_two :
    matchesKey (ofRows inFront [("/a".toList, "x".toList), ("/a/b".toList, "y".toList)])
      "/a/b/c".toList = some ("/a/b".toList, "y".toList) :=
  ((prefixMap_iff inFront _).2.2 (by decide)).2 _

/-- **Two rows with one prefix**: `longest_first` does not order the key, the map does not find it,
and stores it twice; the later row wins. -/
theorem prefixMap_twice :
    let rows := [("/a".toList, "x".toList), ("/a".toList, "y".toList)]
    ¬ StrictWeakOn longestFirst ["/a".toList] ∧
      PrefixMap.contains [("/a".toList, "x".toList)] "/a".toList = false ∧
      ¬ ((ofRows inFront rows).map Prod.fst).Nodup ∧
      matchesKey (ofRows inFront rows) "/a/b".toList = some ("/a".toList, "y".toList) ∧
      longest rows "/a/b".toList = some ("/a".toList, "x".toList) :=
  ⟨fun h => absurd (h.irrefl "/a".toList (by simp)) (by decide), by decide, by decide, by decide,
    by decide⟩

end Condor.Mapping
