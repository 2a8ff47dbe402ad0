import Mathlib.Data.List.Basic
import Mathlib.Tactic.Order

/-!
# Flat maps — finite maps as sorted vectors

A flat map keeps its entries in a vector that is sorted by the rank of the keys; two keys are the
same key of the map when their ranks are equal. The operations search for the first entry that is
not below the key.
-/

namespace Condor

open List

namespace Flat

variable {K V R : Type} [LinearOrder R] (rank : K → R)

def find (k : K) : List (K × V) → Option V
  | [] => none
  | (a, x) :: l =>
    if rank a < rank k then find k l else if rank a = rank k then some x else none

/-- Sets the value under a key; a key that is present keeps its spelling. -/
def put (k : K) (v : V) : List (K × V) → List (K × V)
  | [] => [(k, v)]
  | (a, x) :: l =>
    if rank a < rank k then (a, x) :: put k v l
    else if rank a = rank k then (a, v) :: l
    else (k, v) :: (a, x) :: l

def erase (k : K) : List (K × V) → List (K × V)
  | [] => []
  | (a, x) :: l =>
    if rank a < rank k then (a, x) :: erase k l
    else if rank a = rank k then l
    else (a, x) :: l

def Sorted (l : List (K × V)) : Prop := l.Pairwise fun a b => rank a.1 < rank b.1

instance (l : List (K × V)) : Decidable (Sorted rank l) :=
  inferInstanceAs (Decidable (l.Pairwise _))

variable {rank}

theorem find_put (k k' : K) (v : V) (l : List (K × V)) :
    find rank k' (put rank k v l) = if rank k' = rank k then some v else find rank k' l := by
  induction l with
  | nil =>
    simp only [put, find]
    split_ifs <;> first | rfl | order
  | cons e l ih =>
    simp only [put]
    split_ifs with h1 h2 h3 <;> simp only [find, ih] <;> split_ifs <;> first | rfl | order

variable {l : List (K × V)} {k : K} {v : V}

theorem mem_put {e : K × V} (h : e ∈ put rank k v l) : rank e.1 = rank k ∨ e ∈ l := by
  induction l with
  | nil =>
    obtain rfl : e = (k, v) := by simpa [put] using h
    exact .inl rfl
  | cons d l ih =>
    simp only [put] at h
    split_ifs at h with h1 h2
    · rcases mem_cons.mp h with rfl | h
      · exact .inr (by simp)
      · exact (ih h).imp_right (mem_cons_of_mem _)
    · rcases mem_cons.mp h with rfl | h
      · exact .inl h2
      · exact .inr (mem_cons_of_mem _ h)
    · rcases mem_cons.mp h with rfl | h
      · exact .inl rfl
      · exact .inr h

theorem put_of_lt (h : ∀ e ∈ l, rank e.1 < rank k) : put rank k v l = l ++ [(k, v)] := by
  induction l with
  | nil => rfl
  | cons d l ih =>
    rw [forall_mem_cons] at h
    simp [put, if_pos h.1, ih h.2]

theorem sorted_put (hl : Sorted rank l) : Sorted rank (put rank k v l) := by
  induction l with
  | nil => simp [Sorted, put]
  | cons d l ih =>
    obtain ⟨a, x⟩ := d
    obtain ⟨ha, hl⟩ := pairwise_cons.mp hl
    simp only [put]
    split_ifs with h1 h2
    · refine pairwise_cons.mpr ⟨fun e he => ?_, ih hl⟩
      rcases mem_put he with he | he
      · rw [he]; exact h1
      · exact ha e he
    · exact pairwise_cons.mpr ⟨ha, hl⟩
    · have hk : rank k < rank a := by order
      refine pairwise_cons.mpr ⟨fun e he => ?_, pairwise_cons.mpr ⟨ha, hl⟩⟩
      rcases mem_cons.mp he with rfl | he
      · exact hk
      · exact hk.trans (ha e he)

theorem erase_sublist : (erase rank k l).Sublist l := by
  induction l with
  | nil => exact Sublist.refl _
  | cons d l ih =>
    simp only [erase]
    split_ifs
    · exact ih.cons_cons _
    · exact sublist_cons_self _ _
    · exact Sublist.refl _

theorem sorted_erase (hl : Sorted rank l) : Sorted rank (erase rank k l) :=
  Pairwise.sublist erase_sublist hl

theorem find_eq_none_of_lt (h : ∀ e ∈ l, rank k < rank e.1) : find rank k l = none := by
  cases l with
  | nil => rfl
  | cons d l =>
    have := h d (by simp)
    simp only [find]
    split_ifs <;> first | rfl | order

theorem find_erase (hl : Sorted rank l) (k k' : K) :
    find rank k' (erase rank k l) = if rank k' = rank k then none else find rank k' l := by
  induction l with
  | nil => simp [erase, find]
  | cons d l ih =>
    obtain ⟨ha, hl⟩ := pairwise_cons.mp hl
    simp only [erase]
    split_ifs with h1 h2 h3 h3
    · simp [find, ih hl, h2, h1]
    · simp [find, ih hl, h2]
    · exact find_eq_none_of_lt fun e he => by have := ha e he; order
    · simp only [find]
      split_ifs
      · rfl
      · order
      · exact find_eq_none_of_lt fun e he => by have := ha e he; order
    · simp only [find]
      split_ifs <;> first | rfl | order
    · rfl

theorem find_eq_some_iff (hl : Sorted rank l) :
    find rank k l = some v ↔ ∃ a, rank a = rank k ∧ (a, v) ∈ l := by
  induction l with
  | nil => simp [find]
  | cons d l ih =>
    obtain ⟨a, x⟩ := d
    obtain ⟨ha, hl⟩ := pairwise_cons.mp hl
    simp only [find, mem_cons, Prod.mk.injEq]
    split_ifs with h1 h2
    · rw [ih hl]
      constructor
      · rintro ⟨b, hb, hm⟩
        exact ⟨b, hb, .inr hm⟩
      · rintro ⟨b, hb, ⟨rfl, -⟩ | hm⟩
        · order
        · exact ⟨b, hb, hm⟩
    · constructor
      · rintro ⟨⟩
        exact ⟨a, h2, .inl ⟨rfl, rfl⟩⟩
      · rintro ⟨b, hb, ⟨-, rfl⟩ | hm⟩
        · rfl
        · have := ha _ hm
          order
    · simp only [false_iff, not_exists, not_and, not_or]
      refine fun b hb => ⟨?_, fun hm => ?_⟩
      · rintro rfl; exact absurd hb h2
      · have := ha _ hm
        order

theorem put_of_find_eq_none (h : find rank k l = none) :
    ∃ l1 l2, l = l1 ++ l2 ∧ put rank k v l = l1 ++ (k, v) :: l2 := by
  induction l with
  | nil => exact ⟨[], [], rfl, rfl⟩
  | cons d l ih =>
    obtain ⟨a, x⟩ := d
    simp only [find] at h
    simp only [put]
    split_ifs at h ⊢
    · obtain ⟨l1, l2, rfl, hput⟩ := ih h
      exact ⟨(a, x) :: l1, l2, rfl, by rw [hput, cons_append]⟩
    · exact ⟨[], (a, x) :: l, rfl, rfl⟩

end Flat

/-- A finite map as a sorted vector of entries. -/
@[ext] structure FlatMap {K R : Type} [LinearOrder R] (rank : K → R) (V : Type) where
  entries : List (K × V)
  sorted : Flat.Sorted rank entries
deriving DecidableEq

namespace FlatMap

variable {K V R : Type} [LinearOrder R] {rank : K → R}

def empty : FlatMap rank V := ⟨[], Pairwise.nil⟩

variable (m : FlatMap rank V)

def find (m : FlatMap rank V) (k : K) : Option V := Flat.find rank k m.entries

def put (m : FlatMap rank V) (k : K) (v : V) : FlatMap rank V :=
  ⟨Flat.put rank k v m.entries, Flat.sorted_put m.sorted⟩

def erase (m : FlatMap rank V) (k : K) : FlatMap rank V :=
  ⟨Flat.erase rank k m.entries, Flat.sorted_erase m.sorted⟩

@[simp] theorem find_empty (k : K) : (empty : FlatMap rank V).find k = none := rfl

@[simp] theorem find_put (k k' : K) (v : V) :
    (m.put k v).find k' = if rank k' = rank k then some v else m.find k' :=
  Flat.find_put k k' v m.entries

@[simp] theorem find_erase (k k' : K) :
    (m.erase k).find k' = if rank k' = rank k then none else m.find k' :=
  Flat.find_erase m.sorted k k'

theorem find_eq_some_iff {m : FlatMap rank V} {k : K} {v : V} :
    m.find k = some v ↔ ∃ a, rank a = rank k ∧ (a, v) ∈ m.entries :=
  Flat.find_eq_some_iff m.sorted

theorem find_congr {k k' : K} (h : rank k = rank k') : m.find k = m.find k' := by
  have key : ∀ l : List (K × V), Flat.find rank k l = Flat.find rank k' l := by
    intro l
    induction l with
    | nil => rfl
    | cons d l ih => simp [Flat.find, h, ih]
  exact key m.entries

end FlatMap

end Condor
