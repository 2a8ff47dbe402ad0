import Mathlib.Order.Lattice
import Mathlib.Order.Defs.Unbundled
import Mathlib.Data.List.Basic

/-!
# Heaps in a vector

`std::push_heap` and `std::pop_heap` keep the elements of a vector a heap. How they move the
elements is left to the library: a `StdHeap` is any pair of algorithms that do what they promise.

* **`IsHeap.not_less`**: no element is greater than the root.
-/

namespace Condor

open List

variable {α : Type} {less less' : α → α → Bool} {v : List α} {a b c : α}

/-- The comparison is one that the algorithms may be given. -/
abbrev StrictWeak (less : α → α → Bool) : Prop := IsStrictWeakOrder α fun a b => less a b = true

/-- No element is greater than the one above it. -/
def IsHeap (less : α → α → Bool) (v : List α) : Prop :=
  ∀ i a b, v[i / 2]? = some a → v[i + 1]? = some b → less a b = false

theorem StrictWeak.of_key {κ : Type} [LinearOrder κ] (key : α → κ)
    (h : ∀ a b, less a b = true ↔ key a < key b) : StrictWeak less where
  irrefl a ha := lt_irrefl _ ((h a a).mp ha)
  trans a b c hab hbc := (h a c).mpr (((h a b).mp hab).trans ((h b c).mp hbc))
  incomp_trans a b c := by
    simp only [h, not_lt]
    rintro ⟨hab, hba⟩ ⟨hbc, hcb⟩
    exact ⟨hbc.trans hab, hba.trans hcb⟩

theorem StrictWeak.not_less_trans (h : StrictWeak less) (hab : less a b = false)
    (hbc : less b c = false) : less a c = false := by
  rw [← Bool.not_eq_true] at *
  intro hac
  have hba : ¬ less b a = true := fun hba => hbc (h.trans b a c hba hac)
  have hcb : ¬ less c b = true := fun hcb => hab (h.trans a c b hac hcb)
  exact (h.incomp_trans a b c ⟨hab, hba⟩ ⟨hbc, hcb⟩).1 hac

/-! ## Heaps -/

/-- **The root is a greatest element.** -/
theorem IsHeap.not_less (hless : StrictWeak less) (h : IsHeap less (a :: v)) (hb : b ∈ a :: v) :
    less a b = false := by
  obtain ⟨i, hi⟩ := mem_iff_getElem?.mp hb
  -- along the elements above it
  induction i using Nat.strongRecOn generalizing b with
  | ind i ih =>
    cases i with
    | zero =>
      cases hi
      exact Bool.eq_false_iff.mpr (hless.irrefl a)
    | succ i =>
      have hlen : i / 2 < (a :: v).length := by
        have := (List.getElem?_eq_some_iff.mp hi).1
        omega
      have hparent := getElem?_eq_getElem hlen
      exact hless.not_less_trans (ih _ (by omega) (getElem_mem hlen) hparent) (h i _ _ hparent hi)

theorem IsHeap.congr (h : IsHeap less v) (hv : ∀ a ∈ v, ∀ b ∈ v, less' a b = less a b) :
    IsHeap less' v := fun i a b ha hb => by
  rw [hv a (mem_of_getElem? ha) b (mem_of_getElem? hb)]
  exact h i a b ha hb

theorem IsHeap.of_pairwise (h : v.Pairwise fun a b => less a b = false) : IsHeap less v := by
  intro i a b ha hb
  obtain ⟨hi, rfl⟩ := List.getElem?_eq_some_iff.mp ha
  obtain ⟨hi', rfl⟩ := List.getElem?_eq_some_iff.mp hb
  exact pairwise_iff_getElem.mp h _ _ hi hi' (by omega)

/-- The children of the root are not compared with each other. -/
theorem IsHeap.of_root (hlen : v.length ≤ 2) (h : ∀ b ∈ v, less a b = false) :
    IsHeap less (a :: v) := by
  intro i c b hc hb
  have hi : i < v.length := Nat.lt_of_succ_lt_succ (List.getElem?_eq_some_iff.mp hb).1
  have hroot : i / 2 = 0 := by omega
  rw [hroot] at hc
  cases hc
  exact h b (mem_of_getElem? hb)

/-! ## The algorithms -/

/-- `std::push_heap`, which gets a heap and one more element at its end, and `std::pop_heap`, which
moves the root to the end. -/
structure StdHeap (α : Type) where
  pushHeap : (α → α → Bool) → List α → List α
  popHeap : (α → α → Bool) → List α → List α
  perm_pushHeap : ∀ {less v} (a : α), StrictWeak less → IsHeap less v →
    (pushHeap less (v ++ [a])).Perm (v ++ [a])
  isHeap_pushHeap : ∀ {less v} (a : α), StrictWeak less → IsHeap less v →
    IsHeap less (pushHeap less (v ++ [a]))
  popHeap_cons : ∀ {less v} {a : α}, StrictWeak less → IsHeap less (a :: v) →
    ∃ v', popHeap less (a :: v) = v' ++ [a] ∧ v'.Perm v ∧ IsHeap less v'

theorem isHeap_mergeSort (hless : StrictWeak less) (v : List α) :
    IsHeap less (v.mergeSort fun a b => !less a b) := by
  refine .of_pairwise ((pairwise_mergeSort (fun a b c hab hbc => ?_) (fun a b => ?_) v).imp ?_)
  · simp only [Bool.not_eq_true'] at *
    exact hless.not_less_trans hab hbc
  · cases hab : less a b with
    | false => rfl
    | true =>
      have hba : ¬ less b a = true := fun hba => hless.irrefl a (hless.trans a b a hab hba)
      simp [hba]
  · simp

/-- Algorithms that sort the vector. -/
def StdHeap.sorting : StdHeap α where
  pushHeap less v := v.mergeSort fun a b => !less a b
  popHeap less
    | [] => []
    | a :: v => (v.mergeSort fun a b => !less a b) ++ [a]
  perm_pushHeap _ _ _ := mergeSort_perm _ _
  isHeap_pushHeap _ hless _ := isHeap_mergeSort hless _
  popHeap_cons hless _ := ⟨_, rfl, mergeSort_perm _ _, isHeap_mergeSort hless _⟩

end Condor
