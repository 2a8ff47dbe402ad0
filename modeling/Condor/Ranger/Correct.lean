import Condor.Ranger.Model
import Mathlib.Tactic.Order
import Mathlib.Data.Set.Lattice

/-!
# Range sets — the operations are union and difference

A separated forest splits at the ends of an argument `r` into the ranges before `r`, those that
meet `r` and those after it (`span_span`); each operation replaces the middle part.

* `separated_insert`, **`elems_insert`**, `separated_erase`, **`elems_erase`**;
* **`run_sets`**.
-/

namespace Condor.Ranger

open List Separated

variable {α : Type*} [LinearOrder α] {e : Range α} {β : Type*} {R : β → β → Prop} {l : List β}

/-! ## Splitting a separated forest -/

theorem not_of_mem_dropWhile {p : β → Prop} [DecidablePred p]
    (hR : ∀ a b, R a b → p b → p a) (hl : l.Pairwise R) : ∀ e ∈ l.dropWhile (p ·), ¬ p e := by
  induction l with
  | nil => simp
  | cons a l ih =>
    obtain ⟨ha, hl⟩ := pairwise_cons.mp hl
    by_cases hp : p a
    · rw [dropWhile_cons_of_pos (by simpa using hp)]
      exact ih hl
    · rw [dropWhile_cons_of_neg (by simpa using hp)]
      intro e he
      rcases mem_cons.mp he with rfl | he
      · exact hp
      · exact fun h => hp (hR a e (ha e he) h)

/-- **Two searches in a row** cut a sorted list into three parts. -/
theorem span_span {p q : β → Prop} [DecidablePred p] [DecidablePred q]
    (hp : ∀ a b, R a b → p b → p a) (hq : ∀ a b, R a b → q b → q a) (hl : l.Pairwise R) :
    ∃ pre mid post, l = pre ++ mid ++ post ∧ l.span (p ·) = (pre, mid ++ post) ∧
      (mid ++ post).span (q ·) = (mid, post) ∧ (∀ e ∈ pre, p e) ∧
      (∀ e ∈ mid, ¬ p e ∧ q e) ∧ ∀ e ∈ post, ¬ p e ∧ ¬ q e := by
  have hmid := not_of_mem_dropWhile hp hl
  have hpost := not_of_mem_dropWhile hq (hl.sublist (dropWhile_sublist (p ·)))
  refine ⟨l.takeWhile (p ·), (l.dropWhile (p ·)).takeWhile (q ·),
    (l.dropWhile (p ·)).dropWhile (q ·), ?_, ?_, ?_, ?_, ?_, ?_⟩
  · rw [append_assoc, takeWhile_append_dropWhile, takeWhile_append_dropWhile]
  · rw [takeWhile_append_dropWhile, span_eq_takeWhile_dropWhile]
  · rw [takeWhile_append_dropWhile, span_eq_takeWhile_dropWhile]
  · exact fun e he => by simpa using mem_takeWhile_imp he
  · exact fun e he =>
      ⟨hmid e ((takeWhile_sublist _).subset he), by simpa using mem_takeWhile_imp he⟩
  · exact fun e he => ⟨hmid e ((dropWhile_sublist _).subset he), hpost e he⟩

theorem Separated.append_iff {f g : List (Range α)} : Separated (f ++ g) ↔
    Separated f ∧ Separated g ∧ ∀ a ∈ f, ∀ b ∈ g, a.stop < b.start := by
  constructor
  · rintro ⟨hn, hg⟩
    obtain ⟨h1, h2, h3⟩ := pairwise_append.mp hg
    exact ⟨⟨fun e he => hn e (by simp [he]), h1⟩, ⟨fun e he => hn e (by simp [he]), h2⟩, h3⟩
  · rintro ⟨⟨n1, g1⟩, ⟨n2, g2⟩, h⟩
    refine ⟨fun e he => ?_, pairwise_append.mpr ⟨g1, g2, h⟩⟩
    rcases mem_append.mp he with he | he
    · exact n1 e he
    · exact n2 e he

variable {f : List (Range α)} {r : Range α}

theorem Separated.cons_iff : Separated (e :: f) ↔
    e.start < e.stop ∧ Separated f ∧ ∀ b ∈ f, e.stop < b.start := by
  constructor
  · rintro ⟨hn, hg⟩
    obtain ⟨h1, h2⟩ := pairwise_cons.mp hg
    exact ⟨hn e (by simp), ⟨fun x hx => hn x (by simp [hx]), h2⟩, h1⟩
  · rintro ⟨h, ⟨hn, hg⟩, h1⟩
    refine ⟨fun x hx => ?_, pairwise_cons.mpr ⟨h1, hg⟩⟩
    rcases mem_cons.mp hx with rfl | hx
    · exact h
    · exact hn x hx

@[simp] theorem separated_nil : Separated ([] : List (Range α)) := ⟨by simp, by simp⟩

theorem elems_append (g : List (Range α)) : elems (f ++ g) = elems f ∪ elems g := by
  ext x
  simp [elems, or_and_right, exists_or]

@[simp] theorem elems_nil : elems ([] : List (Range α)) = ∅ := by simp [elems]

theorem elems_cons : elems (e :: f) = e.toSet ∪ elems f := by
  ext x
  simp [elems]

@[simp] theorem mem_toSet {x : α} : x ∈ r.toSet ↔ r.start ≤ x ∧ x < r.stop := Iff.rfl

theorem Separated.pairwise_lt (hf : Separated f) :
    f.Pairwise fun a b => a.start < b.start ∧ a.stop < b.stop := by
  refine hf.gaps.imp_of_mem fun {a b} ha hb hab => ?_
  have h1 := hf.nonempty a ha
  have h2 := hf.nonempty b hb
  exact ⟨h1.trans hab, hab.trans h2⟩

theorem setInsert_append {pre post : List (Range α)}
    (hpre : ∀ e ∈ pre, e.stop < r.stop) (hpost : ∀ e ∈ post, r.stop < e.stop) :
    setInsert r (pre ++ post) = pre ++ r :: post := by
  induction pre with
  | nil =>
    cases post with
    | nil => rfl
    | cons e post =>
      have h := hpost e (by simp)
      simp [setInsert, h, h.le.not_gt]
  | cons e pre ih =>
    have h := hpre e (by simp)
    simp only [cons_append, setInsert, h, if_true]
    rw [ih fun x hx => hpre x (by simp [hx])]

theorem Separated.mem_bounds (hf : Separated f) {front back : Range α}
    (hfront : f.head? = some front) (hback : f.getLast? = some back) (he : e ∈ f) :
    front.start ≤ e.start ∧ e.stop ≤ back.stop := by
  have hlt := hf.pairwise_lt
  constructor
  · obtain ⟨tl, rfl⟩ := head?_eq_some_iff.mp hfront
    rcases mem_cons.mp he with rfl | he
    · exact le_rfl
    · exact ((pairwise_cons.mp hlt).1 e he).1.le
  · obtain ⟨ini, rfl⟩ := getLast?_eq_some_iff.mp hback
    rcases mem_append.mp he with he | he
    · exact ((pairwise_append.mp hlt).2.2 e he back (by simp)).2.le
    · rw [mem_singleton.mp he]

/-! ## Insertion -/

section

variable (hf : Separated f) (hr : r.start < r.stop)
include hf hr

/-- `insert` replaces the ranges that touch `r` by their hull with `r`. -/
theorem insert_eq : ∃ pre mid post r', f = pre ++ mid ++ post ∧ (insert f r).1 = pre ++ r' :: post ∧
      (insert f r).2 = pre.length ∧ (∀ e ∈ pre, e.stop < r'.start) ∧
      (∀ e ∈ post, r'.stop < e.start) ∧ r'.start < r'.stop ∧ r'.toSet = elems mid ∪ r.toSet := by
  obtain ⟨pre, mid, post, rfl, h1, h2, hpre, hmid, hpost⟩ :=
    span_span (p := fun e => e.stop < r.start) (q := fun e => e.start ≤ r.stop)
      (fun a b hab hb => hab.2.trans hb) (fun a b hab hb => hab.1.le.trans hb) hf.pairwise_lt
  simp only [not_lt, not_le] at hmid hpost
  obtain ⟨hpm, hsp, hgap⟩ := append_iff.mp hf
  obtain ⟨-, hsm, hgap'⟩ := append_iff.mp hpm
  simp only [insert, lowerBound, h1, h2]
  cases hfront : mid.head? with
  | none =>
    obtain rfl := head?_eq_none_iff.mp hfront
    refine ⟨pre, [], post, r, rfl, ?_, rfl, hpre, fun e he => (hpost e he).2, hr, by simp⟩
    simp only [append_nil]
    exact setInsert_append (fun e he => (hpre e he).trans hr)
      fun e he => (hpost e he).2.trans (hsp.nonempty e he)
  | some front =>
    cases hback : mid.getLast? with
    | none => simp [getLast?_eq_none_iff.mp hback] at hfront
    | some back =>
      have hfm : front ∈ mid := mem_of_head? hfront
      have hbm : back ∈ mid := mem_of_getLast? hback
      have hff := hmid front hfm
      have hbb := hmid back hbm
      have hfb := hsm.mem_bounds hfront hback hbm
      have hstart : (if min front.start r.start < back.start then min front.start r.start
          else back.start) = min front.start r.start := by
        split_ifs with h
        · rfl
        · exact le_antisymm (not_lt.mp h) ((min_le_left _ _).trans hfb.1)
      have hstop : (if back.stop < r.stop then r.stop else back.stop) = max back.stop r.stop := by
        split_ifs with h
        · exact (max_eq_right h.le).symm
        · exact (max_eq_left (not_lt.mp h)).symm
      refine ⟨pre, mid, post, ⟨min front.start r.start, max back.stop r.stop⟩, rfl, ?_, rfl,
        ?_, ?_, ?_, ?_⟩
      · simp only [hstart, hstop]
      · exact fun e he => lt_min (hgap' e he front hfm) (hpre e he)
      · exact fun e he => max_lt (hgap back (by simp [hbm]) e he) (hpost e he).2
      · exact (min_le_right _ _).trans_lt (hr.trans_le (le_max_right _ _))
      · ext x
        simp only [mem_toSet, min_le_iff, lt_max_iff]
        constructor
        · rintro ⟨hx, hx'⟩
          rcases lt_or_ge x r.start with h | h
          · exact .inl ⟨front, hfm, hx.resolve_right h.not_ge, h.trans_le hff.1⟩
          · rcases lt_or_ge x r.stop with h' | h'
            · exact .inr ⟨h, h'⟩
            · exact .inl ⟨back, hbm, hbb.2.trans h', hx'.resolve_right h'.not_gt⟩
        · rintro (⟨e, he, hx, hx'⟩ | ⟨hx, hx'⟩)
          · have hb := hsm.mem_bounds hfront hback he
            exact ⟨.inl (by order), .inl (by order)⟩
          · exact ⟨.inr hx, .inr hx'⟩

/-- **`insert` keeps the forest separated.** -/
theorem separated_insert : Separated (insert f r).1 := by
  obtain ⟨pre, mid, post, r', rfl, h, -, hpre, hpost, hr', -⟩ := insert_eq hf hr
  obtain ⟨hpm, hsp, hgap⟩ := append_iff.mp hf
  obtain ⟨hs, -, -⟩ := append_iff.mp hpm
  rw [h, append_iff, cons_iff]
  refine ⟨hs, ⟨hr', hsp, hpost⟩, fun a ha b hb => ?_⟩
  rcases mem_cons.mp hb with rfl | hb
  · exact hpre a ha
  · exact hgap a (by simp [ha]) b hb

/-- **`insert` adds the elements of its argument.** -/
theorem elems_insert : elems (insert f r).1 = elems f ∪ r.toSet := by
  obtain ⟨pre, mid, post, r', rfl, h, -, -, -, -, hset⟩ := insert_eq hf hr
  rw [h, elems_append, elems_cons, hset, elems_append, elems_append]
  ac_rfl

end

/-! ## Removal -/

/-- What `erase` leaves of the affected ranges from `front` to `back`. -/
def sides (front back r : Range α) : List (Range α) :=
  (if front.start < r.start then [⟨front.start, r.start⟩] else []) ++
    (if r.stop < back.stop then [⟨r.stop, back.stop⟩] else [])

theorem mem_sides {front back r e : Range α} : e ∈ sides front back r ↔
    (front.start < r.start ∧ e = ⟨front.start, r.start⟩) ∨
      (r.stop < back.stop ∧ e = ⟨r.stop, back.stop⟩) := by
  simp only [sides]
  split_ifs <;> simp [*]

theorem separated_sides (front back : Range α) (hr : r.start < r.stop) :
    Separated (sides front back r) := by
  rw [sides, append_iff]
  refine ⟨?_, ?_, ?_⟩ <;> split_ifs <;> simp [cons_iff, *]

theorem elems_sides {mid : List (Range α)} (hmid : Separated mid) {front back r : Range α}
    (hfront : mid.head? = some front) (hback : mid.getLast? = some back)
    (hmeet : ∀ e ∈ mid, r.start < e.stop ∧ e.start < r.stop) :
    elems (sides front back r) = elems mid \ r.toSet := by
  have hfm : front ∈ mid := mem_of_head? hfront
  have hbm : back ∈ mid := mem_of_getLast? hback
  have hff := hmeet front hfm
  have hbb := hmeet back hbm
  ext x
  simp only [elems, Set.mem_sdiff, mem_sides, mem_toSet, not_and, not_lt]
  constructor
  · rintro ⟨e, ⟨h, rfl⟩ | ⟨h, rfl⟩, hx, hx'⟩ <;> dsimp only at hx
    · exact ⟨⟨front, hfm, hx, hx'.trans hff.1⟩, fun hge => absurd hx' hge.not_gt⟩
    · exact ⟨⟨back, hbm, (hbb.2.trans_le hx).le, hx'⟩, fun _ => hx⟩
  · rintro ⟨⟨e, he, hx, hx'⟩, hout⟩
    have hb := hmid.mem_bounds hfront hback he
    rcases lt_or_ge x r.start with h | h
    · exact ⟨_, .inl ⟨(hb.1.trans hx).trans_lt h, rfl⟩, hb.1.trans hx, h⟩
    · exact ⟨_, .inr ⟨(hout h).trans_lt (hx'.trans_le hb.2), rfl⟩, hout h, hx'.trans_le hb.2⟩

section

variable (hf : Separated f) (hr : r.start < r.stop)
include hf hr

/-- `erase` replaces the ranges that meet `r` by what lies on either side of it. -/
theorem erase_eq : ∃ pre mid post mid', f = pre ++ mid ++ post ∧
    (erase f r).1 = pre ++ mid' ++ post ∧
      Separated mid' ∧ (∀ e' ∈ mid', ∃ a ∈ mid, ∃ b ∈ mid, a.start ≤ e'.start ∧ e'.stop ≤ b.stop) ∧
      (∀ e ∈ pre, e.stop ≤ r.start) ∧ (∀ e ∈ post, r.stop ≤ e.start) ∧
      elems mid' = elems mid \ r.toSet := by
  obtain ⟨pre, mid, post, rfl, h1, h2, hpre, hmid, hpost⟩ :=
    span_span (p := fun e => e.stop ≤ r.start) (q := fun e => e.start < r.stop)
      (fun a b hab hb => hab.2.le.trans hb) (fun a b hab hb => hab.1.trans hb) hf.pairwise_lt
  simp only [not_lt, not_le] at hmid hpost
  obtain ⟨hpm, hsp, hgap⟩ := append_iff.mp hf
  obtain ⟨-, hsm, -⟩ := append_iff.mp hpm
  simp only [erase, upperBound, h1, h2]
  cases hfront : mid.head? with
  | none =>
    obtain rfl := head?_eq_none_iff.mp hfront
    exact ⟨pre, [], post, [], rfl, by simp, by simp, by simp, hpre,
      fun e he => (hpost e he).2, by simp⟩
  | some front =>
    cases hback : mid.getLast? with
    | none => simp [getLast?_eq_none_iff.mp hback] at hfront
    | some back =>
      have hfm : front ∈ mid := mem_of_head? hfront
      have hbm : back ∈ mid := mem_of_getLast? hback
      refine ⟨pre, mid, post, sides front back r, rfl, ?_, separated_sides front back hr, ?_, hpre,
        fun e he => (hpost e he).2, elems_sides hsm hfront hback hmid⟩
      · dsimp only
        by_cases hsplit : front.start < r.start ∧ r.stop < front.stop
        · obtain ⟨tl, rfl⟩ := head?_eq_some_iff.mp hfront
          -- a second range would have to start inside the first one
          obtain rfl : tl = [] := by
            refine eq_nil_iff_forall_not_mem.mpr fun e he => ?_
            have h1 := (cons_iff.mp hsm).2.2 e he
            have h2 := (hmid e (by simp [he])).2
            order
          obtain rfl : front = back := by simpa using hback
          rw [sides, if_pos hsplit.1, if_pos hsplit.2]
          rw [append_cons, setInsert_append]
          · simp
          · intro e he
            rcases mem_append.mp he with he | he
            · have := hpre e he; dsimp only; order
            · rw [mem_singleton.mp he]; dsimp only; order
          · intro e he
            have := hsp.nonempty e he
            have := hgap front (by simp) e he
            dsimp only; order
        · rw [if_neg hsplit]
          simp [sides]
      · intro e' he'
        rcases mem_sides.mp he' with ⟨-, rfl⟩ | ⟨-, rfl⟩
        · exact ⟨front, hfm, front, hfm, le_rfl, (hmid front hfm).1.le⟩
        · exact ⟨back, hbm, back, hbm, (hmid back hbm).2.le, le_rfl⟩

/-- **`erase` keeps the forest separated.** -/
theorem separated_erase : Separated (erase f r).1 := by
  obtain ⟨pre, mid, post, mid', rfl, h, hsm', hwithin, -, -, -⟩ := erase_eq hf hr
  obtain ⟨hpm, hsp, hgap⟩ := append_iff.mp hf
  obtain ⟨hs, -, hgap'⟩ := append_iff.mp hpm
  rw [h, append_iff, append_iff]
  refine ⟨⟨hs, hsm', fun a ha e' he' => ?_⟩, hsp, fun a ha b hb => ?_⟩
  · obtain ⟨e, he, -, -, hle, -⟩ := hwithin e' he'
    exact (hgap' a ha e he).trans_le hle
  · rcases mem_append.mp ha with ha | ha
    · exact hgap a (by simp [ha]) b hb
    · obtain ⟨-, -, e, he, -, hle⟩ := hwithin a ha
      exact hle.trans_lt (hgap e (by simp [he]) b hb)

/-- **`erase` removes the elements of its argument.** -/
theorem elems_erase : elems (erase f r).1 = elems f \ r.toSet := by
  obtain ⟨pre, mid, post, mid', rfl, h, -, -, hpre, hpost, hset⟩ := erase_eq hf hr
  have hdpre : Disjoint (elems pre) r.toSet := by
    rw [Set.disjoint_left]
    rintro x ⟨e, he, hx⟩ hxr
    exact absurd (hx.2.trans_le (hpre e he)) hxr.1.not_gt
  have hdpost : Disjoint (elems post) r.toSet := by
    rw [Set.disjoint_left]
    rintro x ⟨e, he, hx⟩ hxr
    exact absurd (hxr.2.trans_le (hpost e he)) hx.1.not_gt
  rw [h]
  simp [elems_append, hset, Set.union_sdiff_distrib, hdpre.sdiff_eq_left, hdpost.sdiff_eq_left]

end

/-! ## Search -/

theorem contains_cons (x : α) :
    contains (e :: f) x = if e.stop ≤ x then contains f x else decide (e.start ≤ x) := by
  simp only [contains, find, upperBound, span_eq_takeWhile_dropWhile]
  split_ifs with h
  · rw [dropWhile_cons_of_pos (by simpa using h)]
    split <;> rfl
  · rw [dropWhile_cons_of_neg (by simpa using h)]

/-- **`contains` finds exactly the elements.** -/
theorem contains_iff (hf : Separated f) (x : α) : contains f x = true ↔ x ∈ elems f := by
  induction f with
  | nil => simp [contains, find, upperBound]
  | cons e f ih =>
    obtain ⟨-, hsf, hgap⟩ := cons_iff.mp hf
    rw [contains_cons, elems_cons]
    split_ifs with hx
    · rw [ih hsf]
      exact (or_iff_right fun h => absurd h.2 hx.not_gt).symm
    · have hout : x ∉ elems f := by
        rintro ⟨b, hb, hxb, -⟩
        have := hgap b hb
        order
      simp [hout, not_le.mp hx]

/-! ## Sequences of operations on a `ranger<int>` -/

/-- One call on a `ranger<int>`. -/
inductive Op where
  | insert (r : Range ℤ)
  | erase (r : Range ℤ)
  | insertElem (e : ℤ)
  | eraseElem (e : ℤ)
deriving DecidableEq, Repr

/-- The arguments of the call: a range that is not empty, an `int` that has a successor. -/
def Op.Valid : Op → Prop
  | .insert r | .erase r => r.start < r.stop
  | .insertElem e | .eraseElem e => intMin ≤ e ∧ e < intMax

instance : DecidablePred Op.Valid
  | .insert r | .erase r => inferInstanceAs (Decidable (r.start < r.stop))
  | .insertElem e | .eraseElem e => inferInstanceAs (Decidable (intMin ≤ e ∧ e < intMax))

def Op.apply (f : List (Range ℤ)) : Op → List (Range ℤ)
  | .insert r => (Ranger.insert f r).1
  | .erase r => (Ranger.erase f r).1
  | .insertElem e => (Ranger.insertElem f e).1
  | .eraseElem e => (Ranger.eraseElem f e).1

def Op.onSet (s : Set ℤ) : Op → Set ℤ
  | .insert r => s ∪ r.toSet
  | .erase r => s \ r.toSet
  | .insertElem e => s ∪ {e}
  | .eraseElem e => s \ {e}

/-- The forest after a sequence of calls on a fresh `ranger<int>`. -/
def run (ops : List Op) : List (Range ℤ) := ops.foldl Op.apply []

theorem intSucc_eq {e : ℤ} (h1 : intMin ≤ e) (h2 : e < intMax) : intSucc e = e + 1 := by
  simp only [intSucc, intMin, intMax] at *
  omega

theorem toSet_intSucc {e : ℤ} (h1 : intMin ≤ e) (h2 : e < intMax) :
    (⟨e, intSucc e⟩ : Range ℤ).toSet = {e} := by
  ext x
  simp only [mem_toSet, intSucc_eq h1 h2, Set.mem_singleton_iff]
  omega

theorem apply_spec {f : List (Range ℤ)} (hf : Separated f) {op : Op} (hop : op.Valid) :
    Separated (op.apply f) ∧ elems (op.apply f) = op.onSet (elems f) := by
  cases op with
  | insert r => exact ⟨separated_insert hf hop, elems_insert hf hop⟩
  | erase r => exact ⟨separated_erase hf hop, elems_erase hf hop⟩
  | insertElem e =>
    have he : e < intSucc e := by rw [intSucc_eq hop.1 hop.2]; omega
    exact ⟨separated_insert hf he, by
      rw [Op.onSet, ← toSet_intSucc hop.1 hop.2]; exact elems_insert hf he⟩
  | eraseElem e =>
    have he : e < intSucc e := by rw [intSucc_eq hop.1 hop.2]; omega
    exact ⟨separated_erase hf he, by
      rw [Op.onSet, ← toSet_intSucc hop.1 hop.2]; exact elems_erase hf he⟩

theorem foldl_spec {f : List (Range ℤ)} (hf : Separated f) (ops : List Op)
    (hops : ∀ op ∈ ops, op.Valid) : Separated (ops.foldl Op.apply f) ∧
      elems (ops.foldl Op.apply f) = ops.foldl Op.onSet (elems f) := by
  induction ops generalizing f with
  | nil => exact ⟨hf, rfl⟩
  | cons op ops ih =>
    obtain ⟨hs, he⟩ := apply_spec hf (hops op (by simp))
    rw [foldl_cons, foldl_cons, ← he]
    exact ih hs fun o ho => hops o (by simp [ho])

/-- **Range sets are sets.** After every sequence of valid calls the forest is separated, and
`contains` holds of the members of the set. -/
theorem run_sets (ops : List Op) (hops : ∀ op ∈ ops, op.Valid) :
    Separated (run ops) ∧ ∀ x, contains (run ops) x = true ↔ x ∈ ops.foldl Op.onSet ∅ := by
  obtain ⟨hs, he⟩ := foldl_spec separated_nil ops hops
  refine ⟨hs, fun x => ?_⟩
  rw [run, contains_iff hs, he, elems_nil]

/-- A run that joins two ranges at a single element and splits them again. -/
theorem run_sets_split :
    run [.insert ⟨1, 4⟩, .insert ⟨5, 9⟩, .insertElem 4, .erase ⟨2, 7⟩] = [⟨1, 2⟩, ⟨7, 9⟩] ∧
      Separated (run [.insert ⟨1, 4⟩, .insert ⟨5, 9⟩, .insertElem 4, .erase ⟨2, 7⟩]) :=
  ⟨by decide, (run_sets _ (by decide)).1⟩

end Condor.Ranger
