import Mathlib.Data.List.Basic
import Mathlib.Data.List.TakeWhile

/-!
# The lower bound of a value in a sorted list

`std::lower_bound` halves the range that is left until it is empty. If the elements before the value
come first, then it finds the first element that is not before the value.

* `lowerBound`: the search, **`lowerBound_append`**.
-/

namespace Condor

open List

variable {E : Type} {before : E → Bool} {l l1 l2 : List E} {lo len n : ℕ}

/-- The loop of `std::lower_bound`: `len` elements are left, from the position `lo` on. -/
def lowerBoundFrom (before : E → Bool) (l : List E) : ℕ → ℕ → ℕ → ℕ
  | 0, lo, _ => lo
  | n + 1, lo, len =>
    if len = 0 then lo
    else
      let half := len / 2
      if (l[lo + half]?).any before then lowerBoundFrom before l n (lo + half + 1) (len - half - 1)
      else lowerBoundFrom before l n lo half

/-- `std::lower_bound`: the position of the first element that is not before the value. -/
def lowerBound (before : E → Bool) (l : List E) : ℕ := lowerBoundFrom before l l.length 0 l.length

/-- The elements that are before the value come first. -/
def Partitioned (before : E → Bool) (l : List E) : Prop :=
  l.Pairwise fun a b => before b = true → before a = true

theorem lowerBoundFrom_eq {k : ℕ} (hbelow : ∀ i < k, (l[i]?).any before = true)
    (habove : ∀ i, k ≤ i → (l[i]?).any before = false) (hlo : lo ≤ k) (hhi : k ≤ lo + len)
    (hn : len ≤ n) :
    lowerBoundFrom before l n lo len = k := by
  induction n generalizing lo len with
  | zero => rw [lowerBoundFrom]; omega
  | succ n ih =>
    rw [lowerBoundFrom]
    split
    · omega
    · dsimp only
      by_cases hmid : lo + len / 2 < k
      · rw [if_pos (hbelow _ hmid)]
        exact ih (by omega) (by omega) (by omega)
      · rw [if_neg (by rw [habove _ (by omega)]; decide)]
        exact ih hlo (by omega) (by omega)

/-- **The lower bound** is between the elements before the value and the others. -/
theorem lowerBound_append (h1 : ∀ e ∈ l1, before e = true) (h2 : ∀ e ∈ l2, before e = false) :
    lowerBound before (l1 ++ l2) = l1.length := by
  refine lowerBoundFrom_eq (fun i hi => ?_) (fun i hi => ?_) (Nat.zero_le _) (by simp)
    (Nat.le_refl _)
  · rw [getElem?_append_left hi, getElem?_eq_getElem hi]
    exact h1 _ (getElem_mem hi)
  · rw [getElem?_append_right hi]
    cases h : l2[i - l1.length]? with
    | none => rfl
    | some e => exact h2 e (mem_of_getElem? h)

theorem Partitioned.split (h : Partitioned before l) :
    ∃ l1 l2, l = l1 ++ l2 ∧ (∀ e ∈ l1, before e = true) ∧ ∀ e ∈ l2, before e = false := by
  induction l with
  | nil => exact ⟨[], [], rfl, nofun, nofun⟩
  | cons a l ih =>
    obtain ⟨ha, hl⟩ := pairwise_cons.mp h
    cases hb : before a with
    | true =>
      obtain ⟨l1, l2, rfl, h1, h2⟩ := ih hl
      exact ⟨a :: l1, l2, rfl, forall_mem_cons.mpr ⟨hb, h1⟩, h2⟩
    | false =>
      refine ⟨[], a :: l, rfl, nofun, forall_mem_cons.mpr ⟨hb, fun e he => ?_⟩⟩
      rw [← Bool.not_eq_true]
      exact fun h' => absurd (ha e he h') (by rw [hb]; decide)

/-! ## Changes at a cut -/

theorem insertIdx_append_length (a : E) :
    (l1 ++ l2).insertIdx l1.length a = l1 ++ a :: l2 := by
  induction l1 with
  | nil => simp
  | cons b l1 ih => simp [ih]

theorem modify_append_length (l1 : List E) (a : E) (f : E → E) :
    (l1 ++ a :: l2).modify l1.length f = l1 ++ f a :: l2 := by
  induction l1 with
  | nil => simp
  | cons b l1 ih => simp [ih]

theorem eraseIdx_append_length (a : E) :
    (l1 ++ a :: l2).eraseIdx l1.length = l1 ++ l2 := by
  induction l1 with
  | nil => simp
  | cons b l1 ih => simp [ih]

theorem exists_append_of_getElem? {i : ℕ} {a : E} (h : l[i]? = some a) :
    ∃ l1 l2, l = l1 ++ a :: l2 ∧ l1.length = i := by
  obtain ⟨hi, rfl⟩ := List.getElem?_eq_some_iff.mp h
  refine ⟨l.take i, l.drop (i + 1), ?_, List.length_take_of_le (Nat.le_of_lt hi)⟩
  rw [← List.drop_eq_getElem_cons hi, List.take_append_drop]

end Condor
