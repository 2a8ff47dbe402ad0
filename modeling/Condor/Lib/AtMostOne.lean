import Mathlib.Data.List.Perm.Basic

/-!
# Lists in which at most one element meets a test

In such a list the first element that meets the test is the only one, and so finding, replacing and
erasing it do not depend on the order of the list.
-/

namespace Condor

open List

variable {α : Type} {l l' : List α} {p : α → Bool}

def AtMostOne (p : α → Bool) (l : List α) : Prop := l.Pairwise fun a b => p a = true → p b = false

section

variable (h : AtMostOne p l)
include h

theorem AtMostOne.perm (hl : l.Perm l') : AtMostOne p l' := by
  refine (hl.pairwise_iff fun {a b} hab hb => ?_).mp h
  by_contra ha
  rw [Bool.not_eq_false] at ha
  rw [hab ha] at hb
  cases hb

theorem AtMostOne.find?_eq_some_iff {a : α} : l.find? p = some a ↔ a ∈ l ∧ p a = true := by
  refine ⟨fun hf => ⟨mem_of_find?_eq_some hf, find?_some hf⟩, fun ⟨hmem, hp⟩ => ?_⟩
  induction l with
  | nil => cases hmem
  | cons b l ih =>
    obtain ⟨hb, hl⟩ := pairwise_cons.mp h
    rcases mem_cons.mp hmem with rfl | hmem
    · exact find?_cons_of_pos hp
    · have hpb : p b = false := by
        by_contra hpb
        rw [Bool.not_eq_false] at hpb
        rw [hb a hmem hpb] at hp
        cases hp
      rw [find?_cons_of_neg (by simp [hpb])]
      exact ih hl ⟨hmem, hp⟩ hmem

theorem AtMostOne.find?_perm (hl : l.Perm l') : l.find? p = l'.find? p := by
  ext a
  rw [h.find?_eq_some_iff, (h.perm hl).find?_eq_some_iff, hl.mem_iff]

theorem AtMostOne.replaceF (g : α → α) :
    (l.replaceF fun a => if p a then some (g a) else none) = l.map fun a => if p a then g a
      else a := by
  induction l with
  | nil => rfl
  | cons a l ih =>
    obtain ⟨ha, hl⟩ := pairwise_cons.mp h
    by_cases hp : p a = true
    · have hrest : (l.map fun b => if p b then g b else b) = l := by
        refine (map_congr_left fun b hb => ?_).trans (map_id l)
        simp [ha b hb hp]
      simp [hp, hrest]
    · simp [hp, ih hl]

theorem AtMostOne.eraseP : l.eraseP p = l.filter fun a => !p a := by
  induction l with
  | nil => rfl
  | cons a l ih =>
    obtain ⟨ha, hl⟩ := pairwise_cons.mp h
    by_cases hp : p a = true
    · have hrest : (l.filter fun b => !p b) = l := by
        refine filter_eq_self.mpr fun b hb => ?_
        simp [ha b hb hp]
      simp [hp, hrest]
    · simp [hp, ih hl]

end

end Condor
