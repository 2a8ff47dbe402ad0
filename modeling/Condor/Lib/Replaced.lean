import Mathlib.Data.List.Perm.Basic

/-!
# Lists in which one element is replaced

What the choice of the elements that meet a test comes to when one element takes the place of
another.
-/

namespace Condor

variable {α β : Type} {l l' : List α} {a b : α}

/-- `b` has taken the place of `a`. -/
def Replaced (l : List α) (a b : α) (l' : List α) : Prop :=
  ∃ l₁ l₂, l = l₁ ++ a :: l₂ ∧ l' = l₁ ++ b :: l₂

theorem replaced_set {k : ℕ} (h : l[k]? = some a) : Replaced l a b (l.set k b) := by
  obtain ⟨hk, rfl⟩ := List.getElem?_eq_some_iff.mp h
  obtain ⟨l1, l2, hl, -, hset⟩ := @List.exists_of_set _ k b l hk
  exact ⟨l1, l2, hl, hset⟩

theorem Replaced.cons (h : Replaced l a b l') (c : α) : Replaced (c :: l) a b (c :: l') := by
  obtain ⟨l1, l2, rfl, rfl⟩ := h
  exact ⟨c :: l1, l2, rfl, rfl⟩

theorem Replaced.map_eq (h : Replaced l a b l') {f : α → β} (hf : f b = f a) :
    l'.map f = l.map f := by
  obtain ⟨l1, l2, rfl, rfl⟩ := h
  simp [hf]

variable {p : α → Bool} {f : α → β}

def chosen (p : α → Bool) (f : α → β) (l : List α) : List β := (l.filter p).map f

theorem chosen_append : chosen p f (l ++ l') = chosen p f l ++ chosen p f l' := by
  simp [chosen]

theorem chosen_cons_of_pos (h : p a = true) : chosen p f (a :: l) = f a :: chosen p f l := by
  simp [chosen, h]

theorem chosen_cons_of_neg (h : p a = false) : chosen p f (a :: l) = chosen p f l := by
  simp [chosen, h]

theorem chosen_eq_nil_iff : chosen p f l = [] ↔ ∀ a ∈ l, p a = false := by
  simp [chosen]

theorem Replaced.chosen_eq (h : Replaced l a b l') (hp : p b = p a) (hf : f b = f a) :
    chosen p f l' = chosen p f l := by
  obtain ⟨l1, l2, rfl, rfl⟩ := h
  rw [chosen_append, chosen_append]
  cases ha : p a with
  | false => rw [chosen_cons_of_neg ha, chosen_cons_of_neg (hp.trans ha)]
  | true => rw [chosen_cons_of_pos ha, chosen_cons_of_pos (hp.trans ha), hf]

theorem Replaced.chosen_new (h : Replaced l a b l') (ha : p a = false) (hb : p b = true) :
    (chosen p f l').Perm (f b :: chosen p f l) := by
  obtain ⟨l1, l2, rfl, rfl⟩ := h
  rw [chosen_append, chosen_append, chosen_cons_of_neg ha, chosen_cons_of_pos hb]
  exact List.perm_middle

theorem Replaced.chosen_old (h : Replaced l a b l') (ha : p a = true) (hb : p b = false) :
    (chosen p f l).Perm (f a :: chosen p f l') := by
  obtain ⟨l1, l2, rfl, rfl⟩ := h
  rw [chosen_append, chosen_append, chosen_cons_of_neg hb, chosen_cons_of_pos ha]
  exact List.perm_middle

end Condor
