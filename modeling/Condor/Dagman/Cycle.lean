import Condor.Dagman.Verdict

/-!
# Cycles — the model of `Dag::isCycle`

The nodes are numbered in the order in which a depth-first search leaves them, from the nodes
without parents on. There is a cycle if a child has no smaller number than its parent.

* **`isCycle_iff`**;
* **`graphShape_right_iff`**.
-/

namespace Condor.Dagman

open List Function

variable {n : ℕ}

/-- What the search keeps: `_visited`, `_dfsOrder` and `DFS_ORDER`. -/
structure Numbering (n : ℕ) where
  visited : Fin n → Bool := fun _ => false
  dfsOrder : Fin n → ℤ := fun _ => -1
  count : ℤ := 0

variable (D : DagFile n)

/-- `DFSVisit`. The fuel is for the depth of calls; each of them visits another node. -/
def dfsVisit : ℕ → Numbering n → Fin n → Numbering n
  | 0, s, _ => s
  | k + 1, s, j =>
    if s.visited j then s
    else
      let s := { s with visited := update s.visited j true }
      let s := (D.node j).children.foldl (dfsVisit k) s
      { s with count := s.count + 1, dfsOrder := update s.dfsOrder j (s.count + 1) }

/-- The first loop of `isCycle`. -/
def dfsNumbering : Numbering n :=
  (finRange n).foldl (fun s j =>
    if !s.visited j && (D.parents j).isEmpty then dfsVisit D (n + 1) s j else s) {}

/-- **`isCycle`.** -/
def isCycle : Bool :=
  (finRange n).any fun j =>
    (D.node j).children.any fun c => (dfsNumbering D).dfsOrder c ≥ (dfsNumbering D).dfsOrder j

section Numbers

variable {D} {s s' : Numbering n} {gray : Set (Fin n)} {j : Fin n}

/-- The nodes that have been visited have been left, or the search is below them. -/
structure Numbered (D : DagFile n) (s : Numbering n) (gray : Set (Fin n)) : Prop where
  visited : ∀ i, s.visited i = true ↔ i ∈ gray ∨ 0 < s.dfsOrder i
  gray : ∀ i ∈ gray, s.dfsOrder i ≤ 0
  count : 0 ≤ s.count
  le : ∀ i, s.dfsOrder i ≤ s.count
  children : ∀ i, 0 < s.dfsOrder i → ∀ c ∈ (D.node i).children, 0 < s.dfsOrder c ∧
    s.dfsOrder c < s.dfsOrder i

def Left (s s' : Numbering n) : Prop := ∀ i, 0 < s.dfsOrder i → 0 < s'.dfsOrder i

theorem Numbered.enter (h : Numbered D s gray) (hj : s.dfsOrder j ≤ 0) :
    Numbered D { s with visited := update s.visited j true } (insert j gray) where
  visited i := by
    by_cases hi : i = j
    · simp [hi]
    · simp [hi, h.visited i]
  gray := Set.forall_mem_insert.mpr ⟨hj, h.gray⟩
  count := h.count
  le := h.le
  children := h.children

theorem Numbered.leave (h : Numbered D s (insert j gray)) (hj : j ∉ gray)
    (hc : ∀ c ∈ (D.node j).children, 0 < s.dfsOrder c) :
    Numbered D { s with count := s.count + 1, dfsOrder := update s.dfsOrder j (s.count + 1) }
      gray := by
  have hcount := h.count
  have hne : ∀ i, 0 < s.dfsOrder i → i ≠ j := by
    rintro i hi rfl
    exact absurd (h.gray i (Set.mem_insert _ _)) hi.not_ge
  refine
    { visited := fun i => ?_, gray := fun i hi => ?_, count := Int.le_add_one hcount,
      le := fun i => ?_, children := fun i hi c hc' => ?_ }
  · by_cases hi : i = j
    · subst hi
      have hlt : 0 < s.count + 1 := by omega
      simp [h.visited, hlt]
    · simp [h.visited, hi]
  · have hi' : i ≠ j := fun h => hj (h ▸ hi)
    simpa [hi'] using h.gray i (.inr hi)
  · by_cases hi : i = j
    · simp [hi]
    · simpa [hi] using Int.le_add_one (h.le i)
  · by_cases hi' : i = j
    · subst hi'
      have hpos := hc c hc'
      simpa [hne c hpos, hpos] using Int.lt_add_one_of_le (h.le c)
    · have hpos : 0 < s.dfsOrder i := by simpa [hi'] using hi
      have h' := h.children i hpos c hc'
      simpa [hi', hne c h'.1] using h'

/-- A visit leaves the node, if the search is not below it already. -/
theorem dfsVisit_spec (hD : D.Acyclic) {k : ℕ} (hk : {i | Descendant D j i}.ncard < k)
    (h : Numbered D s gray) (hgray : ∀ g ∈ gray, Descendant D g j) :
    Numbered D (dfsVisit D k s j) gray ∧ 0 < (dfsVisit D k s j).dfsOrder j ∧
      Left s (dfsVisit D k s j) := by
  induction k generalizing j s gray with
  | zero => exact absurd hk (Nat.not_lt_zero _)
  | succ k ih =>
    rw [dfsVisit]
    by_cases hv : s.visited j = true
    · rw [if_pos hv]
      exact ⟨h, ((h.visited j).mp hv).resolve_left fun hj => hD j (hgray j hj), fun _ => id⟩
    · rw [if_neg hv]
      have hj : j ∉ gray ∧ ¬ 0 < s.dfsOrder j := not_or.mp fun hj => hv ((h.visited j).mpr hj)
      have hloop : ∀ (cs : List (Fin n)) (s : Numbering n), (∀ c ∈ cs, c ∈ (D.node j).children) →
          Numbered D s (insert j gray) → Numbered D (cs.foldl (dfsVisit D k) s) (insert j gray) ∧
            (∀ c ∈ cs, 0 < (cs.foldl (dfsVisit D k) s).dfsOrder c) ∧
            Left s (cs.foldl (dfsVisit D k) s) := by
        intro cs
        induction cs with
        | nil => exact fun s _ h => ⟨h, (fun _ hc => by cases hc), fun _ => id⟩
        | cons c cs ihcs =>
          intro s hcs h
          rw [forall_mem_cons] at hcs
          have hjc : Descendant D j c := .single hcs.1
          have hlt := Nat.lt_of_lt_of_le (ncard_descendants_lt hD hcs.1) (Nat.le_of_lt_succ hk)
          obtain ⟨h1, hc, hleft⟩ :=
            ih hlt h (Set.forall_mem_insert.mpr ⟨hjc, fun g hg => (hgray g hg).trans hjc⟩)
          obtain ⟨h2, hrest, hleft'⟩ := ihcs _ hcs.2 h1
          exact ⟨h2, forall_mem_cons.mpr ⟨hleft' c hc, hrest⟩, fun i hi => hleft' i (hleft i hi)⟩
      obtain ⟨h1, hdone, hleft⟩ := hloop _ _ (fun _ hc => hc) (h.enter (not_lt.mp hj.2))
      refine ⟨h1.leave hj.1 hdone, ?_, fun i hi => ?_⟩
      · have hcount := h1.count
        simp only [update_self]
        omega
      · have hi' : i ≠ j := fun h => hj.2 (h ▸ hi)
        simpa [hi'] using hleft i hi

theorem dfsNumbering_spec (hD : D.Acyclic) :
    Numbered D (dfsNumbering D) ∅ ∧ ∀ j, D.parents j = [] → 0 < (dfsNumbering D).dfsOrder j := by
  have hloop : ∀ (js : List (Fin n)) (s : Numbering n), Numbered D s ∅ →
      let s' := js.foldl (fun s j =>
        if !s.visited j && (D.parents j).isEmpty then dfsVisit D (n + 1) s j else s) s
      Numbered D s' ∅ ∧ (∀ j ∈ js, D.parents j = [] → 0 < s'.dfsOrder j) ∧ Left s s' := by
    intro js
    induction js with
    | nil => exact fun s h => ⟨h, (fun _ hj => by cases hj), fun _ => id⟩
    | cons j js ih =>
      intro s h
      obtain ⟨h1, hj, hleft⟩ := dfsVisit_spec hD ncard_descendants_le h fun g hg => by cases hg
      rw [foldl_cons]
      split_ifs with hv
      · obtain ⟨h2, hrest, hleft'⟩ := ih _ h1
        exact ⟨h2, forall_mem_cons.mpr ⟨fun _ => hleft' j hj, hrest⟩,
          fun i hi => hleft' i (hleft i hi)⟩
      · obtain ⟨h2, hrest, hleft'⟩ := ih s h
        refine ⟨h2, forall_mem_cons.mpr ⟨fun hp => hleft' j ?_, hrest⟩, hleft'⟩
        have hvis : s.visited j = true := by simpa [hp] using hv
        exact ((h.visited j).mp hvis).resolve_left (Set.notMem_empty j)
  have hinit : Numbered D {} ∅ := ⟨by simp, by simp, le_rfl, by simp, by simp⟩
  obtain ⟨h, hall, -⟩ := hloop (finRange n) {} hinit
  exact ⟨h, fun j => hall j (mem_finRange j)⟩

/-- **The check for cycles is exact.** -/
theorem isCycle_iff (D : DagFile n) : isCycle D = true ↔ ∃ i, Descendant D i i := by
  have hedges : isCycle D = false ↔
      ∀ p, ∀ c ∈ (D.node p).children, (dfsNumbering D).dfsOrder c <
      (dfsNumbering D).dfsOrder p := by
    simp [isCycle]
  constructor
  · intro hcycle
    by_contra hD
    have hD : D.Acyclic := fun i hi => hD ⟨i, hi⟩
    obtain ⟨h, hroots⟩ := dfsNumbering_spec hD
    have hleft : ∀ p, 0 < (dfsNumbering D).dfsOrder p := by
      by_contra hp
      push Not at hp
      obtain ⟨i, hi, hparents⟩ := exists_first hD hp
      cases hps : D.parents i with
      | nil => exact absurd (hroots i hps) hi.not_gt
      | cons p ps =>
        have hp : p ∈ D.parents i := by rw [hps]; exact mem_cons_self
        exact absurd (h.children p (not_le.mp (hparents p hp)) i (mem_parents.mp hp)).1 hi.not_gt
    have hfalse := hedges.mpr fun p c hc => (h.children p (hleft p) c hc).2
    exact Bool.false_ne_true (hfalse.symm.trans hcycle)
  · rintro ⟨i, hi⟩
    by_contra hfalse
    have hlt := hedges.mp (Bool.eq_false_of_not_eq_true hfalse)
    have hdesc : ∀ c, Descendant D i c →
        (dfsNumbering D).dfsOrder c < (dfsNumbering D).dfsOrder i := by
      intro c hc
      induction hc with
      | single hc => exact hlt _ _ hc
      | tail _ hc ih => exact (hlt _ _ hc).trans ih
    exact absurd (hdesc i hi) (lt_irrefl _)

end Numbers

/-! ## The shape of the graph -/

/-- What `DFSVisit` gathers about the shape, and the first visits with their depths. -/
structure Shape (n : ℕ) where
  visited : Fin n → Bool := fun _ => false
  graphHeight : ℕ := 0
  graphWidths : List ℕ := [0]
  graphWidth : ℕ := 0
  firstVisits : List (Fin n × ℕ) := []

/-- What a first visit does before the children are visited. -/
def Shape.enter (s : Shape n) (depth : ℕ) (j : Fin n) : Shape n :=
  -- `MAX` is a macro; its second argument is an increment, which it evaluates once or twice
  let widths := (s.graphWidths.modify depth (· + 1)).modify depth (· + 1)
  let again := widths.modify depth (· + 1)
  let greater := s.graphWidth > widths.getD depth 0
  let counted := if greater then widths else again
  { visited := update s.visited j true
    graphHeight := max s.graphHeight depth
    graphWidth := if greater then s.graphWidth else again.getD depth 0
    graphWidths := if (D.node j).children = [] then counted else counted.rightpad (depth + 2) 0
    firstVisits := s.firstVisits ++ [(j, depth)] }

/-- `DFSVisit`, without the numbers of the nodes. -/
def dfsShape : ℕ → ℕ → Shape n → Fin n → Shape n
  | 0, _, s, _ => s
  | k + 1, depth, s, j =>
    if s.visited j then s else (D.node j).children.foldl (dfsShape k (depth + 1))
      (s.enter D depth j)

/-- The first loop of `isCycle`. -/
def shapeLoop (s : Shape n) (j : Fin n) : Shape n :=
  if !s.visited j && (D.parents j).isEmpty then dfsShape D (n + 1) 0 s j else s

/-- The widths count the first visits at each depth, and height and width are maxima. -/
structure Shape.Right (s : Shape n) : Prop where
  widths : ∀ d, s.graphWidths.getD d 0 = s.firstVisits.countP fun v => v.2 = d
  height : (∀ v ∈ s.firstVisits, v.2 ≤ s.graphHeight) ∧
    s.graphHeight ∈ 0 :: s.firstVisits.map Prod.snd
  width : (∀ w ∈ s.graphWidths, w ≤ s.graphWidth) ∧ s.graphWidth ∈ s.graphWidths

/-- More nodes are counted at the top than have been visited there. -/
def Shape.Overcounted (s : Shape n) : Prop :=
  (s.firstVisits.countP fun v => v.2 = 0) < s.graphWidths.getD 0 0

variable {D} {s : Shape n} {j : Fin n}

theorem Shape.Overcounted.enter {depth : ℕ} (h : s.Overcounted) :
    (s.enter D depth j).Overcounted := by
  obtain ⟨_, _, _ | ⟨w, ws⟩, _, _⟩ := s
  · exact absurd h (Nat.not_lt_zero _)
  · unfold Shape.Overcounted Shape.enter at *
    cases depth <;> simp at * <;> split_ifs <;> simp <;> omega

theorem Shape.Overcounted.dfsShape {k depth : ℕ} (h : s.Overcounted) :
    (dfsShape D k depth s j).Overcounted := by
  induction k generalizing depth s j with
  | zero => exact h
  | succ k ih =>
    rw [Dagman.dfsShape]
    split_ifs
    · exact h
    · exact foldlRecOn _ _ h.enter fun s hs c _ => ih hs

theorem overcounted_root (hj : D.parents j = []) : (shapeLoop D {} j).Overcounted := by
  rw [shapeLoop, if_pos (by simp [hj]), dfsShape, if_neg Bool.false_ne_true]
  refine foldlRecOn _ _ ?_ fun s hs c _ => hs.dfsShape
  unfold Shape.Overcounted Shape.enter
  simp
  split_ifs <;> simp

theorem foldl_shapeLoop (js : List (Fin n)) : let s := js.foldl (shapeLoop D) {}
    s.Overcounted ∧ (¬ ∀ j ∈ js, D.parents j ≠ []) ∨ s = {} ∧ ∀ j ∈ js, D.parents j ≠ [] := by
  induction js using reverseRecOn with
  | nil => simp
  | append_singleton js j ih =>
    rw [foldl_concat, forall_mem_append, forall_mem_singleton]
    rcases ih with ⟨h, hroot⟩ | ⟨h, hjs⟩
    · refine .inl ⟨?_, fun hjs => hroot hjs.1⟩
      rw [shapeLoop]
      split_ifs
      · exact h.dfsShape
      · exact h
    · rw [h]
      by_cases hj : D.parents j = []
      · exact .inl ⟨overcounted_root hj, fun hjs => hjs.2 hj⟩
      · exact .inr ⟨by simp [shapeLoop, hj], hjs, hj⟩

/-- **The shape of the graph is right** only if the search has nowhere to start. -/
theorem graphShape_right_iff (D : DagFile n) :
    ((finRange n).foldl (shapeLoop D) {}).Right ↔ ∀ j, D.parents j ≠ [] := by
  rcases foldl_shapeLoop (D := D) (finRange n) with ⟨h, hroot⟩ | ⟨h, hjs⟩
  · exact iff_of_false (fun hright => h.ne' (hright.widths 0)) fun hjs => hroot fun j _ => hjs j
  · rw [h]
    exact iff_of_true ⟨fun d => by cases d <;> rfl, by simp, by simp⟩ fun j =>
      hjs j (mem_finRange j)

/-- Two nodes at depth 0 are counted as six. -/
theorem graphWidths_twoNodes : ((finRange 2).foldl (shapeLoop twoNodes) {}).graphWidths = [6] ∧
    ¬ ((finRange 2).foldl (shapeLoop twoNodes) {}).Right :=
  ⟨by decide, fun h => absurd (h.widths 0) (by decide)⟩

end Condor.Dagman
