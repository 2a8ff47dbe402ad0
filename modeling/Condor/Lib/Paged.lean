import Mathlib.Algebra.GroupWithZero.Nat
import Mathlib.Data.List.Basic

/-!
# Pages of entries

Entries in pages of a fixed size, one page after the other. An entry that has no page yet is blank.
-/

namespace Condor.Paged

open List Nat

variable {α : Type*} {n : ℕ} [NeZero n] {pages : List (Fin n → α)} {blank : α}

def lookup (blank : α) (pages : List (Fin n → α)) (i : ℕ) : α :=
  match pages[i / n]? with
  | some page => page (Fin.ofNat n i)
  | none => blank

def write (pages : List (Fin n → α)) (j : ℕ) (k : Fin n) (a : α) : List (Fin n → α) :=
  pages.modify j fun page => Function.update page k a

theorem index_div (j : ℕ) (k : Fin n) : (n * j + k) / n = j := by
  rw [mul_add_div (pos_of_neZero n), div_eq_of_lt k.isLt, add_zero]

theorem index_mod (j : ℕ) (k : Fin n) : Fin.ofNat n (n * j + k) = k := by
  apply Fin.ext
  rw [Fin.val_ofNat, mul_add_mod, mod_eq_of_lt k.isLt]

theorem lookup_index {j : ℕ} (hj : j < pages.length) (k : Fin n) :
    lookup blank pages (n * j + k) = pages[j] k := by
  rw [lookup, index_div, getElem?_eq_getElem hj, index_mod]

/-- Only the entry itself is written. -/
theorem lookup_write {j : ℕ} (hj : j < pages.length) (k : Fin n) (a : α) (i : ℕ) :
    lookup blank (write pages j k a) i = if i = n * j + k then a else lookup blank pages i := by
  by_cases hi : i = n * j + k
  · rw [if_pos hi, hi, lookup_index (by simpa [write] using hj)]
    refine (congrFun (getElem_modify _ j pages j _) k).trans ?_
    rw [if_pos rfl, Function.update_self]
  · rw [if_neg hi, lookup, lookup, write, getElem?_modify]
    cases pages[i / n]? with
    | none => rfl
    | some page =>
      change (if j = i / n then Function.update page k a else page) (Fin.ofNat n i) = _
      by_cases hpage : j = i / n
      · have hk : Fin.ofNat n i ≠ k := by
          intro hk
          apply hi
          rw [← hk, hpage, Fin.val_ofNat, div_add_mod]
        rw [if_pos hpage]
        exact Function.update_of_ne hk a page
      · rw [if_neg hpage]

theorem lookup_append_blank (i : ℕ) :
    lookup blank (pages ++ [fun _ => blank]) i = lookup blank pages i := by
  rw [lookup, lookup]
  rcases Nat.lt_trichotomy (i / n) pages.length with hi | hi | hi
  · rw [getElem?_append_left hi]
  · rw [hi, getElem?_concat_length, getElem?_eq_none (Nat.le_refl _)]
  · rw [getElem?_eq_none (by simpa [Nat.succ_le_iff] using hi), getElem?_eq_none (Nat.le_of_lt hi)]

theorem lookup_cons (page : Fin n → α) (i : ℕ) :
    lookup blank (page :: pages) (n + i) = lookup blank pages i := by
  rw [lookup, lookup, add_div_left i (pos_of_neZero n), getElem?_cons_succ]
  have hmod : Fin.ofNat n (n + i) = Fin.ofNat n i := by
    apply Fin.ext
    rw [Fin.val_ofNat, Fin.val_ofNat, add_mod_left]
  rw [hmod]

end Condor.Paged
