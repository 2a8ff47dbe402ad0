import Condor.Ranger.Persist

/-!
# Loading texts into a range set

`load` takes the ends of a range as they stand in the text. If they are in the wrong order, or if
the second one is the largest `int`, the range that it inserts is not one: it changes nothing where
the forest has a range around it or a range with the same right end, and stays in the forest
otherwise.

* **`load_keeps_iff`**.
-/

namespace Condor.Ranger

open List Separated

section Reversed

variable {α : Type*} [LinearOrder α] {f : List (Range α)} {e r : Range α}

theorem setInsert_of_mem (hf : f.Pairwise fun a b => a.stop < b.stop) (he : e ∈ f)
    (hstop : e.stop = r.stop) :
    setInsert r f = f := by
  induction f with
  | nil => cases he
  | cons a f ih =>
    rw [pairwise_cons] at hf
    rcases mem_cons.mp he with rfl | he
    · simp [setInsert, hstop]
    · simp [setInsert, hstop ▸ hf.1 e he, ih hf.2 he]

theorem mem_setInsert (hf : ∀ e ∈ f, e.stop ≠ r.stop) : r ∈ setInsert r f := by
  induction f with
  | nil => simp [setInsert]
  | cons a f ih =>
    rw [forall_mem_cons] at hf
    rw [setInsert]
    split_ifs with h1 h2
    · exact mem_cons_of_mem _ (ih hf.2)
    · exact mem_cons_self
    · exact absurd (le_antisymm (not_lt.mp h2) (not_lt.mp h1)) hf.1

/-- A reversed range leaves the forest alone, or goes into it as it is. -/
theorem insert_reversed (hf : Separated f) (hr : r.stop ≤ r.start) :
    (∃ e ∈ f, e.start ≤ r.stop ∧ r.start ≤ e.stop) ∧ (insert f r).1 = f ∨
      (¬ ∃ e ∈ f, e.start ≤ r.stop ∧ r.start ≤ e.stop) ∧ (insert f r).1 = setInsert r f := by
  obtain ⟨pre, mid, post, rfl, h1, h2, hpre, hmid, hpost⟩ :=
    span_span (p := fun e => e.stop < r.start) (q := fun e => e.start ≤ r.stop)
      (fun a b hab hb => hab.2.trans hb) (fun a b hab hb => hab.1.le.trans hb) hf.pairwise_lt
  simp only [not_lt, not_le] at hmid hpost
  simp only [insert, lowerBound, h1, h2]
  cases mid with
  | nil =>
    refine .inr ⟨?_, rfl⟩
    rintro ⟨e, he, hstart, hstop⟩
    rw [append_nil] at he
    rcases mem_append.mp he with he | he
    · exact absurd hstop (hpre e he).not_ge
    · exact absurd hstart (hpost e he).2.not_ge
  | cons a mid =>
    obtain ⟨hstop, hstart⟩ := hmid a mem_cons_self
    have hnil : mid = [] := by
      refine eq_nil_iff_forall_not_mem.mpr fun b hb => ?_
      have hgap : a.stop < b.start := by
        have hpm := (append_iff.mp (append_iff.mp hf).1).2.1
        exact (cons_iff.mp hpm).2.2 b hb
      have hb := (hmid b (mem_cons_of_mem _ hb)).2
      exact absurd (hstop.trans_lt (hgap.trans_le (hb.trans hr))) (lt_irrefl _)
    subst hnil
    refine .inl ⟨⟨a, by simp, hstart, hstop⟩, ?_⟩
    have hle : a.start ≤ r.start := hstart.trans hr
    simp [hle, (hr.trans hstop).not_gt]

end Reversed

/-! ## What is read -/

/-- The range from `start` to `back`, if the text behind it is right, and the text that follows. -/
def endRange (start back : ℤ) : Text → Option (Range ℤ × Text)
  | [] => some (⟨start, intSucc back⟩, [])
  | c :: s => if c = ';' then some (⟨start, intSucc back⟩, s) else none

/-- The range that an iteration of `load` inserts, and the text that follows. -/
def readRange (s : Text) : Option (Range ℤ × Text) :=
  let (start, sp) := readElement s
  if s.length = sp.length then none
  else if sp.head? = some '-' then
    let (back, sp') := readElement sp.tail
    if sp.tail.length = sp'.length then none else endRange start back sp'
  else endRange start start sp

theorem loadLoop_succ (len n : ℕ) (f : List (Range ℤ)) (s : Text) : (loadLoop len (n + 1) f s).1 =
      (readRange s).elim f fun x => (loadLoop len n (insert f x.1).1 x.2).1 := by
  cases s with
  | nil => rfl
  | cons c s =>
    simp only [loadLoop, readRange, isEmpty_cons, Bool.false_eq_true, if_false]
    generalize readElement (c :: s) = x
    obtain ⟨start, sp⟩ := x
    split_ifs with hstart hminus hback
    · rfl
    · obtain ⟨sp, rfl⟩ := head?_eq_some_iff.mp hminus
      simp only [tail_cons] at hback ⊢
      rw [if_pos hback]
      rfl
    · obtain ⟨sp, rfl⟩ := head?_eq_some_iff.mp hminus
      simp only [tail_cons] at hback ⊢
      rw [if_neg hback]
      generalize readElement sp = y
      obtain ⟨back, sp⟩ := y
      cases sp with
      | nil => rfl
      | cons d sp =>
        by_cases hd : d = ';'
        · subst hd; rfl
        · dsimp only
          split <;> simp_all [endRange]
    · cases sp with
      | nil => rfl
      | cons d sp =>
        by_cases hd : d = ';'
        · subst hd; rfl
        · split <;> simp_all [endRange]

/-! ## Forests that stay forests -/

/-- The reversed range `r` finds a part of `S` around it, or one that ends where it ends. -/
def Swallowed (S : Set ℤ) (r : Range ℤ) : Prop :=
  (∃ e : Range ℤ, e.start < e.stop ∧ e.toSet ⊆ S ∧ e.start ≤ r.stop ∧ r.start ≤ e.stop) ∨
    r.stop - 1 ∈ S ∧ r.stop ∉ S

/-- The first `n` ranges of the text can be inserted into a forest for `S`. -/
def Harmless : ℕ → Set ℤ → Text → Prop
  | 0, _, _ => True
  | n + 1, S, s => ∀ x ∈ readRange s,
    if x.1.start < x.1.stop then Harmless n (S ∪ x.1.toSet) x.2 else Swallowed S x.1 ∧
      Harmless n S x.2

variable {f : List (Range ℤ)} {e r : Range ℤ}

theorem Separated.stop_not_mem (hf : Separated f) (he : e ∈ f) : e.stop ∉ elems f := by
  rintro ⟨a, ha, hstart, hstop⟩
  obtain ⟨pre, post, rfl⟩ := append_of_mem he
  obtain ⟨-, hpost, hgap⟩ := append_iff.mp hf
  obtain ⟨hne, -, hgap'⟩ := cons_iff.mp hpost
  rcases mem_append.mp ha with ha | ha
  · have h := hgap a ha e mem_cons_self
    omega
  · rcases mem_cons.mp ha with rfl | ha
    · exact absurd hstop (lt_irrefl _)
    · have h := hgap' a ha
      omega

theorem swallowed_iff (hf : Separated f) : Swallowed (elems f) r ↔
    (∃ e ∈ f, e.start ≤ r.stop ∧ r.start ≤ e.stop) ∨ ∃ e ∈ f, e.stop = r.stop := by
  refine or_congr ⟨?_, ?_⟩ ⟨?_, ?_⟩
  · rintro ⟨e, hne, hsub, hstart, hstop⟩
    obtain ⟨a, ha, hlo, hhi⟩ := hsub ⟨le_rfl, hne⟩
    refine ⟨a, ha, hlo.trans hstart, ?_⟩
    by_contra hlt
    exact hf.stop_not_mem ha (hsub ⟨hhi.le, by omega⟩)
  · rintro ⟨e, he, hstart, hstop⟩
    exact ⟨e, hf.nonempty e he, fun x hx => ⟨e, he, hx⟩, hstart, hstop⟩
  · rintro ⟨⟨a, ha, hlo, hhi⟩, hout⟩
    refine ⟨a, ha, ?_⟩
    by_contra hne
    exact hout ⟨a, ha, by omega, by omega⟩
  · rintro ⟨e, he, hstop⟩
    have hne := hf.nonempty e he
    exact ⟨⟨e, he, by omega, by omega⟩, hstop ▸ hf.stop_not_mem he⟩

theorem insert_reversed_cases (hf : Separated f) (hr : r.stop ≤ r.start) :
    Swallowed (elems f) r ∧ (insert f r).1 = f ∨ ¬ Swallowed (elems f) r ∧
      ¬ Separated (insert f r).1 := by
  rw [swallowed_iff hf]
  rcases insert_reversed hf hr with ⟨he, heq⟩ | ⟨hno, heq⟩
  · exact .inl ⟨.inl he, heq⟩
  · rw [heq]
    by_cases hstop : ∃ e ∈ f, e.stop = r.stop
    · obtain ⟨e, he, heq⟩ := hstop
      exact .inl ⟨.inr ⟨e, he, heq⟩, setInsert_of_mem (hf.pairwise_lt.imp fun h => h.2) he heq⟩
    · refine .inr ⟨not_or_intro hno hstop, fun h => ?_⟩
      exact absurd (h.nonempty r (mem_setInsert fun e he h => hstop ⟨e, he, h⟩)) hr.not_gt

theorem forall_le_succ {n : ℕ} {p : ℕ → Prop} (h : p 0) :
    (∀ k ≤ n + 1, p k) ↔ ∀ k ≤ n, p (k + 1) := by
  refine ⟨fun h k hk => h _ (Nat.succ_le_succ hk), fun h' k hk => ?_⟩
  cases k with
  | zero => exact h
  | succ k => exact h' k (Nat.le_of_succ_le_succ hk)

theorem loadLoop_spec (len n : ℕ) (s : Text) (hf : Separated f) :
    ((∀ k ≤ n, Separated (loadLoop len k f s).1) ↔ Harmless n (elems f) s) ∧
      (Harmless n (elems f) s → ∀ k ≤ n, elems f ⊆ elems (loadLoop len k f s).1) := by
  induction n generalizing f s with
  | zero =>
    have hk : ∀ k ≤ 0, (loadLoop len k f s).1 = f := fun k hk => by rw [Nat.le_zero.mp hk]; rfl
    exact ⟨iff_of_true (fun k h => (hk k h).symm ▸ hf) trivial,
      fun _ k h => (hk k h).symm ▸ subset_rfl⟩
  | succ n ih =>
    rw [forall_le_succ hf,
      forall_le_succ (p := fun k => elems f ⊆ elems (loadLoop len k f s).1) subset_rfl]
    simp only [loadLoop_succ, Harmless]
    cases readRange s with
    | none => simp [hf]
    | some x =>
      obtain ⟨r, s'⟩ := x
      simp only [Option.elim_some, Option.mem_some_iff, forall_eq']
      split_ifs with hr
      · have hadd := elems_insert hf hr
        obtain ⟨hiff, hsub⟩ := ih s' (separated_insert hf hr)
        rw [hadd] at hiff hsub
        exact ⟨hiff, fun h k hk => Set.subset_union_left.trans (hsub h k hk)⟩
      · rcases insert_reversed_cases hf (not_lt.mp hr) with ⟨hsw, heq⟩ | ⟨hsw, hsep⟩
        · rw [heq]
          exact ⟨(ih s' hf).1.trans (and_iff_right hsw).symm, fun h => (ih s' hf).2 h.2⟩
        · exact ⟨iff_of_false (fun h => hsep (h 0 (Nat.zero_le n))) fun h => hsw h.1,
            fun h => absurd h.1 hsw⟩

/-- **Loading keeps the forest** exactly if each reversed range of the text finds a part of the set
to disappear in. -/
theorem load_keeps_iff (s : Text) (hf : Separated f) :
    (∀ k ≤ (cstr s).length + 1, Separated (loadLoop (cstr s).length k f (cstr s)).1 ∧
      elems f ⊆ elems (loadLoop (cstr s).length k f (cstr s)).1) ↔
      Harmless ((cstr s).length + 1) (elems f) (cstr s) := by
  obtain ⟨hiff, hsub⟩ := loadLoop_spec (cstr s).length ((cstr s).length + 1) (cstr s) hf
  exact ⟨fun h => hiff.mp fun k hk => (h k hk).1, fun h k hk => ⟨hiff.mpr h k hk, hsub h k hk⟩⟩

theorem load_keeps_ranges : Separated (load [⟨1, 3⟩] "5-7".toList).1 ∧
    elems [⟨1, 3⟩] ⊆ elems (load [⟨1, 3⟩] "5-7".toList).1 := by
  refine (load_keeps_iff "5-7".toList ⟨by simp, by simp⟩).mpr ?_ 4 (by decide)
  have hread : readRange (cstr "5-7".toList) = some (⟨5, 8⟩, []) := by decide
  intro x hx
  rw [hread] at hx
  cases hx
  intro x hx
  cases hx

/-- A range with its ends in the wrong order stays in the forest. -/
theorem load_reversed : load [] "5-3".toList = ([⟨5, 4⟩], 0) ∧ ¬ Separated [(⟨5, 4⟩ : Range ℤ)] :=
  ⟨by decide, fun h => absurd (h.nonempty _ mem_cons_self) (by decide)⟩

end Condor.Ranger
