import Mathlib.Algebra.GroupWithZero.Nat
import Mathlib.Data.List.AList
import Mathlib.Algebra.Order.BigOperators.Group.List
import Mathlib.Algebra.Order.Group.Nat

/-!
# Tallies — the total of a measure over a finite map

* `tally`: the total of a measure over the entries of an association list;
* `filterVals`, `tally_filterVals`, `lookup_filterVals`: entries are dropped;
* `tally_insert_of_notMem`, `tally_erase`, `tally_insert`: how the operations change it.
-/

namespace Condor

open List

variable {α β : Type} {s : AList fun _ : α => β}

def tally (f : β → ℕ) (s : AList fun _ : α => β) : ℕ := (s.entries.map fun e => f e.2).sum

@[simp] theorem tally_empty (f : β → ℕ) : tally f (∅ : AList fun _ : α => β) = 0 := rfl

theorem tally_mono {f g : β → ℕ} (h : ∀ b, f b ≤ g b) : tally f s ≤ tally g s :=
  sum_le_sum fun e _ => h e.2

def filterVals (p : β → Bool) (s : AList fun _ : α => β) : AList fun _ : α => β :=
  ⟨s.entries.filter fun e => p e.2, s.nodupKeys.sublist filter_sublist⟩

theorem tally_filterVals_le (f : β → ℕ) (p : β → Bool) :
    tally f (filterVals p s) ≤ tally f s :=
  (filter_sublist.map _).sum_le_sum fun _ _ => Nat.zero_le _

theorem tally_filterVals (f : β → ℕ) (p : β → Bool)
    (h : ∀ e ∈ s.entries, p e.2 = false → f e.2 = 0) : tally f (filterVals p s) = tally f s := by
  change ((s.entries.filter fun e => p e.2).map fun e => f e.2).sum = _
  unfold tally
  generalize s.entries = l at h
  induction l with
  | nil => rfl
  | cons e l ih =>
    have ih := ih fun e he => h e (mem_cons_of_mem _ he)
    cases hp : p e.2 with
    | true => simpa [hp] using ih
    | false =>
      have h0 := h e mem_cons_self hp
      simpa [hp, h0] using ih

variable [DecidableEq α] {a : α} {b : β}

theorem lookup_filterVals (p : β → Bool) :
    (filterVals p s).lookup a = (s.lookup a).filter p := by
  ext b
  have h1 : b ∈ (filterVals p s).lookup a ↔ ⟨a, b⟩ ∈ s.entries.filter fun e => p e.2 :=
    mem_dlookup_iff (filterVals p s).nodupKeys
  have h2 : b ∈ s.lookup a ↔ ⟨a, b⟩ ∈ s.entries := mem_dlookup_iff s.nodupKeys
  rw [← Option.mem_def, h1, mem_filter, ← h2]
  simp

section

variable (f : β → ℕ)
include f

theorem tally_insert_of_notMem (h : a ∉ s) (b : β) : tally f (s.insert a b) = f b + tally f s := by
  rw [tally, AList.entries_insert_of_notMem h]
  rfl

theorem tally_erase (h : s.lookup a = some b) : tally f (s.erase a) + f b = tally f s := by
  have hmem : a ∈ s.entries.keys := AList.lookup_isSome.mp (by rw [h]; rfl)
  obtain ⟨c, l1, l2, -, hl, hk⟩ := exists_of_kerase hmem
  have hc : c = b := by
    have hin : (⟨a, c⟩ : Sigma fun _ => β) ∈ s.entries := by rw [hl]; simp
    have hlook : s.lookup a = some c := (mem_dlookup_iff s.nodupKeys).mpr hin
    exact Option.some.inj (hlook.symm.trans h)
  subst hc
  have herase : (s.erase a).entries = l1 ++ l2 := hk
  simp only [tally, herase, hl, map_append, map_cons, sum_append, sum_cons]
  omega

theorem tally_erase_le : tally f (s.erase a) ≤ tally f s :=
  ((kerase_sublist a s.entries).map _).sum_le_sum fun _ _ => Nat.zero_le _

theorem tally_insert (h : s.lookup a = some b) (b' : β) :
    tally f (s.insert a b') + f b = f b' + tally f s := by
  have h1 := tally_erase f h
  have h2 : tally f (s.insert a b') = f b' + tally f (s.erase a) := by
    simp [tally]; rfl
  omega

theorem le_tally (h : s.lookup a = some b) : f b ≤ tally f s := by
  have := tally_erase f h
  omega

end

end Condor
