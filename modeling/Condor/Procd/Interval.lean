import Mathlib.Data.Int.Order.Basic

/-!
# Snapshot intervals

`get_snapshot_interval` looks for the smallest interval in the tree of the families. As −1 stands
for an infinite one, a child that returns it hides what has been found before.

* **`smallest_iff`**.
-/

namespace Condor.Procd

open List

/-- An interval in seconds; −1 is infinite. -/
abbrev Interval := { i : ℤ // -1 ≤ i }

/-- A pointer to a `Tree<ProcFamily*>`. -/
inductive FamilyTree where
  | null
  | node (interval : Interval) (child sibling : FamilyTree)

namespace FamilyTree

/-- The loop of `get_snapshot_interval` over the children, from `ret_value` on. -/
def snapshotInterval (ret : Interval) : FamilyTree → Interval
  | null => ret
  | node i child sibling =>
    let value := child.snapshotInterval i
    sibling.snapshotInterval (if ret.1 = -1 then value else if value.1 < ret.1 then value else ret)

def intervals : FamilyTree → List Interval
  | null => []
  | node i child sibling => i :: (child.intervals ++ sibling.intervals)

/-- The interval of the family that is reached by always going to the last child. -/
def last (i : Interval) : FamilyTree → Interval
  | null => i
  | node i child sibling => sibling.last (child.last i)

/-- The intervals that are heard. A child whose last family has no limit hides what stands before
it. -/
def heard (l : List Interval) : FamilyTree → List Interval
  | null => l
  | node i child sibling =>
    sibling.heard ((if (child.last i).1 = -1 then [] else l) ++ child.heard [i])

def NotLonger (i j : Interval) : Prop := j.1 = -1 ∨ i.1 ≠ -1 ∧ i.1 ≤ j.1

def Smallest (l : List Interval) (i : Interval) : Prop := i ∈ l ∧ ∀ j ∈ l, NotLonger i j

variable {ret i : Interval} {l l' : List Interval} {t : FamilyTree}

theorem heard_subset : t.heard l ⊆ l ++ t.intervals := by
  induction t generalizing l with
  | null => simp [heard]
  | node i child sibling ihc ihs =>
    refine Subset.trans ihs (append_subset.mpr ⟨append_subset.mpr ⟨?_, Subset.trans ihc ?_⟩, ?_⟩)
    · split_ifs <;> simp
    · exact subset_append_of_subset_right l (cons_subset_cons i (subset_append_left ..))
    · exact subset_append_of_subset_right l (subset_cons_of_subset i (subset_append_right ..))

theorem snapshotInterval_eq_neg_iff (h : ret.1 = -1 ↔ i.1 = -1) :
    (t.snapshotInterval ret).1 = -1 ↔ (t.last i).1 = -1 := by
  induction t generalizing ret i with
  | null => exact h
  | node j child sibling ihc ihs =>
    have hvalue := @ihc j j Iff.rfl
    refine ihs ?_
    split_ifs <;> omega

theorem Smallest.append {value : Interval} (h : Smallest l ret) (h' : Smallest l' value) :
    Smallest ((if value.1 = -1 then [] else l) ++ l')
      (if ret.1 = -1 then value else if value.1 < ret.1 then value else ret) := by
  obtain ⟨hmem, hle⟩ := h
  obtain ⟨hmem', hle'⟩ := h'
  have := ret.2
  by_cases hvalue : value.1 = -1
  · rw [if_pos hvalue]
    split_ifs
    · exact ⟨hmem', hle'⟩
    · exact ⟨hmem', hle'⟩
    · omega
  · rw [if_neg hvalue]
    refine ⟨by split_ifs <;> simp [hmem, hmem'],
      forall_mem_append.mpr ⟨fun j hj => ?_, fun j hj => ?_⟩⟩
    · have := hle j hj
      unfold NotLonger at *
      split_ifs <;> omega
    · have := hle' j hj
      unfold NotLonger at *
      split_ifs <;> omega

theorem smallest_heard (h : Smallest l ret) : Smallest (t.heard l) (t.snapshotInterval ret) := by
  induction t generalizing ret l with
  | null => exact h
  | node i child sibling ihc ihs =>
    have hvalue := @ihc i [i] ⟨by simp, by simp [NotLonger]; omega⟩
    have hlast := @snapshotInterval_eq_neg_iff i i child Iff.rfl
    refine ihs ?_
    simp only [← hlast]
    exact h.append hvalue

/-- **The result is the smallest interval** exactly if each family has one that is heard and has no
longer interval. -/
theorem smallest_iff (i : Interval) (child : FamilyTree) :
    Smallest (i :: child.intervals) (child.snapshotInterval i) ↔
      ∀ j ∈ i :: child.intervals, ∃ k ∈ child.heard [i], NotLonger k j := by
  obtain ⟨hmem, hle⟩ := @smallest_heard i [i] child ⟨by simp, by simp [NotLonger]; omega⟩
  refine ⟨fun h j hj => ⟨_, hmem, h.2 j hj⟩, fun h => ⟨heard_subset hmem, fun j hj => ?_⟩⟩
  obtain ⟨k, hk, hkj⟩ := h j hj
  have hrk := hle k hk
  unfold NotLonger at *
  omega

/-- A child without a limit hides the limit of its parent. -/
theorem not_smallest_child : let five : Interval := ⟨5, by decide⟩
    let child := node ⟨-1, by decide⟩ null null
    (child.snapshotInterval five).1 = -1 ∧
      ¬ Smallest (five :: child.intervals) (child.snapshotInterval five) :=
  ⟨by decide, fun h => absurd (h.2 _ mem_cons_self) (by simp [NotLonger, snapshotInterval])⟩

end FamilyTree

end Condor.Procd
