import Mathlib.Data.List.Nodup

/-!
# Segments of links

Every cell has a link to another cell or to none. A segment is a list of cells, each of which links
to the next one; the last cell links to a given end. A list that is linked in both directions is a
segment of the one kind of links, and its reverse is a segment of the other.
-/

namespace Condor

open List

variable {A : Type}

/-- The cells of the list are linked one to the next, and the last one to `q`. -/
def Segment (next : A → Option A) : List A → Option A → Prop
  | [], _ => True
  | a :: l, q => next a = l.head?.or q ∧ Segment next l q

variable {next next' : A → Option A} {l l1 l2 : List A} {a : A} {q q' : Option A}

@[simp] theorem segment_nil : Segment next [] q := trivial

theorem segment_cons : Segment next (a :: l) q ↔ next a = l.head?.or q ∧ Segment next l q := Iff.rfl

theorem head?_or_append : (l1 ++ l2).head?.or q = l1.head?.or (l2.head?.or q) := by
  cases l1 <;> simp

theorem segment_append : Segment next (l1 ++ l2) q ↔ Segment next l1 (l2.head?.or q) ∧
    Segment next l2 q := by
  induction l1 with
  | nil => simp
  | cons a l1 ih => rw [cons_append, segment_cons, segment_cons, ih, head?_or_append, and_assoc]

/-- **Frame rule.** A segment depends on the links of its own cells only. -/
theorem Segment.congr (h : Segment next l q) (heq : ∀ a ∈ l, next' a = next a) :
    Segment next' l q := by
  induction l with
  | nil => trivial
  | cons a l ih =>
    exact ⟨(heq a mem_cons_self).trans h.1, ih h.2 fun b hb => heq b (mem_cons_of_mem _ hb)⟩

theorem segment_relink (h : Segment next (l ++ [a]) q) (hnext : ∀ b ∈ l, next' b = next b)
    (ha : next' a = q') : Segment next' (l ++ [a]) q' := by
  rw [segment_append] at h ⊢
  refine ⟨?_, by rw [ha]; simp, trivial⟩
  simpa using h.1.congr hnext

/-- A cell is taken out of a segment: the cell before it, if there is one, gets its link. -/
theorem segment_unlink (h : Segment next (l1 ++ a :: l2) q)
    (hlast : ∀ b, l1.getLast? = some b → next' b = next a)
    (hnext : ∀ b ∈ l1 ++ l2, l1.getLast? ≠ some b → next' b = next b)
    (hnodup : (l1 ++ l2).Nodup) : Segment next' (l1 ++ l2) q := by
  obtain ⟨h1, ha, h2⟩ := segment_append.mp h
  have h2' : Segment next' l2 q := h2.congr fun b hb => hnext b (mem_append_right _ hb) fun hlast =>
    (nodup_append.mp hnodup).2.2 b (mem_of_getLast? hlast) b hb rfl
  rw [segment_append]
  refine ⟨?_, h2'⟩
  rcases eq_nil_or_concat l1 with rfl | ⟨l, b, rfl⟩
  · trivial
  · rw [concat_eq_append] at *
    refine segment_relink h1 (fun c hc => hnext c ?_ fun hc' => ?_) ?_
    · exact mem_append_left _ (mem_append_left _ hc)
    · rw [getLast?_concat, Option.some.injEq] at hc'
      subst hc'
      exact (nodup_append.mp (nodup_append.mp hnodup).1).2.2 b hc b (mem_singleton_self b) rfl
    · rw [hlast b (by simp), ha]

end Condor
