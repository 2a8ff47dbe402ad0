import Condor.Dagman.Steps
import Condor.Lib.Heap
import Mathlib.Data.Prod.Lex

/-!
# The ready queue — `DagPriorityQ`

A node that is put into the queue gets a number, positive at the front and negative at the back, and
nodes of one priority are taken in the order of their numbers. That is the order of a double-ended
queue, unless a node is put into the queue while it is there: the number is the node's, so that the
entry which is there already has another place than its number says.

The queue is a heap in a vector (`heapCall`). In the runs of DAGMan no node is in the queue twice,
and there the model takes the greatest node instead of the root of the heap (`State.pop`).

* **`pop_order`**;
* **`submitReadyJobs_order_iff`**.
-/

namespace Condor.Dagman

open List Option Function State

variable {n : ℕ} {R : Fin n → Fin n → Prop}

/-! ## Double-ended queues -/

/-- The priorities of the nodes change. -/
def DagFile.withPriorities (D : DagFile n) (priority : Fin n → ℤ) : DagFile n where
  node j := { D.node j with effectivePriority := priority j }
  children_nodup := D.children_nodup

inductive QueueCall (n : ℕ) where
  | prepend (j : Fin n)
  | append (j : Fin n)
  | pop
  | setPriorities (priority : Fin n → ℤ)

/-- `std::push_heap`, after a node has been put at the end of the vector. -/
def State.pushHeap (H : StdHeap (Fin n)) (D : DagFile n) (s : State n) : State n :=
  { s with readyQ := H.pushHeap (jobSorter D s) s.readyQ }

/-- A call of `DagPriorityQ`, with the node that it returns; `readyQ` is the vector. An empty queue
is not asked for a node. -/
def heapCall (H : StdHeap (Fin n)) (c : DagFile n × State n) :
    QueueCall n → Option (Fin n) × DagFile n × State n
  | .prepend j => (none, c.1, (c.2.prepend j).pushHeap H c.1)
  | .append j => (none, c.1, (c.2.append j).pushHeap H c.1)
  | .pop =>
    if c.2.readyQ = [] then (none, c)
    else
      let v := H.popHeap (jobSorter c.1 c.2) c.2.readyQ
      (v.getLast?, c.1, { c.2 with readyQ := v.dropLast })
  | .setPriorities priority => (none, c.1.withPriorities priority, c.2)

/-- The same calls with `State.pop`. -/
def State.queueCall (c : DagFile n × State n) : QueueCall n → Option (Fin n) × DagFile n × State n
  | .prepend j => (none, c.1, c.2.prepend j)
  | .append j => (none, c.1, c.2.append j)
  | .pop =>
    match c.2.pop c.1 with
    | none => (none, c)
    | some (j, s) => (some j, c.1, s)
  | .setPriorities priority => (none, c.1.withPriorities priority, c.2)

/-- The first node of the highest priority. -/
def firstReady (D : DagFile n) (l : List (Fin n)) : Option (Fin n) :=
  l.find? fun j => ∀ i ∈ l, (D.node i).effectivePriority ≤ (D.node j).effectivePriority

/-- A call of double-ended queues, one for each priority, in one list. -/
def dequeCall (c : DagFile n × List (Fin n)) :
    QueueCall n → Option (Fin n) × DagFile n × List (Fin n)
  | .prepend j => (none, c.1, j :: c.2)
  | .append j => (none, c.1, c.2 ++ [j])
  | .pop =>
    match firstReady c.1 c.2 with
    | none => (none, c)
    | some j => (some j, c.1, c.2.erase j)
  | .setPriorities priority => (none, c.1.withPriorities priority, c.2)

/-- A node that is put into the queue is not there, and a node that is there keeps its priority. -/
def QueueCall.Legal (c : DagFile n × List (Fin n)) : QueueCall n → Prop
  | .prepend j | .append j => j ∉ c.2
  | .pop => True
  | .setPriorities priority => ∀ j ∈ c.2, priority j = (c.1.node j).effectivePriority

def answers {σ : Type} (call : σ → QueueCall n → Option (Fin n) × σ) :
    σ → List (QueueCall n) → List (Option (Fin n))
  | _, [] => []
  | c, q :: qs => (call c q).1 :: answers call (call c q).2 qs

def LegalCalls : DagFile n × List (Fin n) → List (QueueCall n) → Prop
  | _, [] => True
  | c, q :: qs => q.Legal c ∧ LegalCalls (dequeCall c q).2 qs

/-! ## The numbers of the nodes -/

/-- **The queue holds a list** of nodes, from the front to the back. -/
structure Queue (s : State n) (l : List (Fin n)) : Prop where
  perm : s.readyQ.Perm l
  sorted : l.Pairwise fun a b => s.subPriority b < s.subPriority a
  bound : ∀ j ∈ l, -s.generation ≤ s.subPriority j ∧ s.subPriority j ≤ s.generation
  nonneg : 0 ≤ s.generation

/-- What `JobSorter` compares. -/
def sortKey (D : DagFile n) (s : State n) (j : Fin n) : ℤ ×ₗ ℤ :=
  toLex ((D.node j).effectivePriority, s.subPriority j)

variable {D : DagFile n} {cfg : Config} {s s' : State n} {l l' as rest : List (Fin n)}
  {a b i j : Fin n}

theorem jobSorter_iff : jobSorter D s a b = true ↔ sortKey D s a < sortKey D s b := by
  simp [jobSorter, sortKey, Prod.Lex.toLex_lt_toLex]

theorem strictWeak_jobSorter (D : DagFile n) (s : State n) : StrictWeak (jobSorter D s) :=
  .of_key (sortKey D s) fun _ _ => jobSorter_iff

theorem pop_greatest (hs : s.pop D = some (j, s')) (hb : b ∈ s.readyQ) :
    sortKey D s b ≤ sortKey D s j := by
  have hmax : ∀ (q : List (Fin n)) (a b : Fin n), b ∈ a :: q → sortKey D s b ≤
      sortKey D s (q.foldl (fun a b => if jobSorter D s a b then b else a) a) := by
    intro q
    induction q with
    | nil =>
      intro a b hb
      rw [mem_singleton.mp hb]
      rfl
    | cons c q ih =>
      intro a b hb
      rw [foldl_cons]
      rcases mem_cons.mp hb with rfl | hb
      · refine le_trans ?_ (ih _ _ mem_cons_self)
        split_ifs with hlt
        · exact le_of_lt (jobSorter_iff.mp hlt)
        · rfl
      · rcases mem_cons.mp hb with rfl | hb
        · refine le_trans ?_ (ih _ _ mem_cons_self)
          split_ifs with hlt
          · rfl
          · exact not_lt.mp fun h => hlt (jobSorter_iff.mpr h)
        · exact ih _ _ (mem_cons_of_mem _ hb)
  unfold pop at hs
  split at hs
  · cases hs
  · rename_i a q hq
    cases hs
    exact hmax q a b (hq ▸ hb)

theorem pop_eq_none (hs : s.pop D = none) : s.readyQ = [] := by
  unfold pop at hs
  split at hs
  · assumption
  · cases hs

theorem pairwise_total (h : l.Pairwise R) (ha : a ∈ l) (hb : b ∈ l) (hne : a ≠ b) :
    R a b ∨ R b a := by
  have : Std.Symm fun a b => R a b ∨ R b a := ⟨fun _ _ => Or.symm⟩
  exact (h.imp (S := fun a b => R a b ∨ R b a) Or.inl).forall ha hb hne

section

variable (h : Queue s l)
include h

theorem Queue.nodup : l.Nodup := h.sorted.imp fun hlt heq => by
  rw [heq] at hlt
  exact lt_irrefl _ hlt

theorem Queue.insert (hj : j ∉ l) {g : ℤ} (hg : -(s.generation + 1) ≤ g ∧ g ≤ s.generation + 1) :
    (∀ i ∈ l, update s.subPriority j g i = s.subPriority i) ∧
    ∀ i ∈ j :: l, -(s.generation + 1) ≤ update s.subPriority j g i ∧
      update s.subPriority j g i ≤ s.generation + 1 := by
  have hsame : ∀ i ∈ l, update s.subPriority j g i = s.subPriority i := fun i hi =>
    update_of_ne (fun heq : i = j => hj (heq ▸ hi)) _ _
  refine ⟨hsame, fun i hi => ?_⟩
  rcases mem_cons.mp hi with rfl | hi
  · rwa [update_self]
  · rw [hsame i hi]
    have := h.bound i hi
    omega

/-- A node in front gets the greatest number. -/
theorem Queue.prepend (hj : j ∉ l) : Queue (s.prepend j) (j :: l) := by
  have hnonneg := h.nonneg
  obtain ⟨hsame, hbound⟩ := h.insert hj (g := s.generation + 1) (by omega)
  refine ⟨?_, pairwise_cons.mpr ⟨fun i hi => ?_, ?_⟩, hbound, by simp only [State.prepend]; omega⟩
  · exact (perm_append_singleton j _).trans (h.perm.cons j)
  · have := (h.bound i hi).2
    simp only [State.prepend, hsame i hi, update_self]
    omega
  · refine h.sorted.imp_of_mem fun ha hb hlt => ?_
    simpa only [State.prepend, hsame _ ha, hsame _ hb] using hlt

/-- A node at the back gets the least number. -/
theorem Queue.append (hj : j ∉ l) : Queue (s.append j) (l ++ [j]) := by
  have hnonneg := h.nonneg
  obtain ⟨hsame, hbound⟩ := h.insert hj (g := -(s.generation + 1)) (by omega)
  refine ⟨h.perm.append_right _, pairwise_append.mpr ⟨?_, pairwise_singleton _ _, ?_⟩,
    fun i hi => hbound i (by simpa [or_comm] using hi), by simp only [State.append]; omega⟩
  · refine h.sorted.imp_of_mem fun ha hb hlt => ?_
    simpa only [State.append, hsame _ ha, hsame _ hb] using hlt
  · intro i hi b hb
    have := (h.bound i hi).1
    rw [mem_singleton.mp hb]
    simp only [State.append, hsame i hi, update_self]
    omega

/-- Some of the nodes are taken. -/
theorem Queue.of_sublist (hsub : s'.subPriority = s.subPriority)
    (hgen : s'.generation = s.generation) (hl : l'.Sublist l) (hperm : s'.readyQ.Perm l') :
    Queue s' l' where
  perm := hperm
  sorted := by
    rw [hsub]
    exact h.sorted.sublist hl
  bound j hj := by
    rw [hsub, hgen]
    exact h.bound j (hl.mem hj)
  nonneg := hgen ▸ h.nonneg

/-- **The greatest node** is the first one of the highest priority. -/
theorem Queue.firstReady_eq (hj : j ∈ l) (hmax : ∀ i ∈ l, sortKey D s i ≤ sortKey D s j) :
    firstReady D l = some j := by
  obtain ⟨as, bs, hl⟩ := append_of_mem hj
  refine find?_eq_some_iff_append.mpr ⟨?_, as, bs, hl, fun a ha => ?_⟩
  · simp only [decide_eq_true_eq]
    intro i hi
    have := Prod.Lex.toLex_le_toLex.mp (hmax i hi)
    omega
  · -- a node in front of it has a greater number, and so not the same priority
    have hlt : s.subPriority j < s.subPriority a := by
      have hsorted := h.sorted
      rw [hl] at hsorted
      exact (pairwise_append.mp hsorted).2.2 a ha j mem_cons_self
    simp only [Bool.not_eq_true', decide_eq_false_iff_not]
    intro hall
    have hle := Prod.Lex.toLex_le_toLex.mp (hmax a (by simp [hl, ha]))
    have := hall j hj
    omega

theorem Queue.pop (hs : s.pop D = some (j, s')) :
    firstReady D l = some j ∧ Queue s' (l.erase j) := by
  obtain ⟨hj, rfl⟩ := pop_eq hs
  refine ⟨h.firstReady_eq (h.perm.mem_iff.mp hj) fun i hi =>
    pop_greatest hs (h.perm.mem_iff.mpr hi), ?_⟩
  exact h.of_sublist rfl rfl erase_sublist (h.perm.erase j)

theorem Queue.call (q : QueueCall n) (hq : q.Legal (D, l)) : ∃ s', queueCall (D, s) q =
        ((dequeCall (D, l) q).1, (dequeCall (D, l) q).2.1, s') ∧
      Queue s' (dequeCall (D, l) q).2.2 := by
  cases q with
  | prepend j => exact ⟨_, rfl, h.prepend hq⟩
  | append j => exact ⟨_, rfl, h.append hq⟩
  | setPriorities priority => exact ⟨_, rfl, h⟩
  | pop =>
    simp only [queueCall, dequeCall]
    cases hpop : s.pop D with
    | none =>
      obtain rfl : l = [] := nil_perm.mp (pop_eq_none hpop ▸ h.perm)
      exact ⟨s, rfl, h⟩
    | some x =>
      obtain ⟨hfirst, hqueue⟩ := h.pop hpop
      rw [hfirst]
      exact ⟨x.2, rfl, hqueue⟩

end

/-! ## The heap -/

section

variable (H : StdHeap (Fin n))

/-- A node is put into a heap. -/
theorem pushHeap_spec (hs : s.readyQ = l ++ [j]) (hheap : IsHeap (jobSorter D s) l) :
    (s.pushHeap H D).readyQ.Perm (l ++ [j]) ∧
      IsHeap (jobSorter D (s.pushHeap H D)) (s.pushHeap H D).readyQ := by
  simp only [State.pushHeap, hs]
  exact ⟨H.perm_pushHeap j (strictWeak_jobSorter D s) hheap,
    H.isHeap_pushHeap j (strictWeak_jobSorter D s) hheap⟩

/-- **The root of the heap** is a greatest node, and the others are a heap again. -/
theorem heapCall_pop (hheap : IsHeap (jobSorter D s) s.readyQ) (hne : s.readyQ ≠ []) :
    ∃ j v, heapCall H (D, s) .pop = (some j, D, { s with readyQ := v }) ∧ j ∈ s.readyQ ∧
      v.Perm (s.readyQ.erase j) ∧ IsHeap (jobSorter D s) v ∧
      ∀ i ∈ s.readyQ, sortKey D s i ≤ sortKey D s j := by
  obtain ⟨j, q, hq⟩ := exists_cons_of_ne_nil hne
  rw [hq] at hheap ⊢
  have hless := strictWeak_jobSorter D s
  obtain ⟨v, hpop, hperm, hv⟩ := H.popHeap_cons hless hheap
  refine ⟨j, v, ?_, mem_cons_self, by simpa using hperm, hv, fun i hi => ?_⟩
  · simp [heapCall, hq, hpop]
  · have hnot := hheap.not_less hless hi
    rw [← Bool.not_eq_true, jobSorter_iff] at hnot
    exact not_lt.mp hnot

/-- The queue holds a list of nodes, and its vector is a heap. -/
structure Heaped (D : DagFile n) (s : State n) (l : List (Fin n)) : Prop extends Queue s l where
  heap : IsHeap (jobSorter D s) s.readyQ

/-- The comparisons of nodes with the same keys are the same. -/
theorem jobSorter_congr {D' : DagFile n} (hl : ∀ i ∈ l,
      (D'.node i).effectivePriority = (D.node i).effectivePriority ∧
        s'.subPriority i = s.subPriority i) :
    ∀ a ∈ l, ∀ b ∈ l, jobSorter D' s' a b = jobSorter D s a b := by
  intro a ha b hb
  simp only [jobSorter, hl a ha, hl b hb]

variable (h : Heaped D s l)
include h

/-- A node that was not in the queue is put into the heap. -/
theorem Heaped.pushHeap (hs' : Queue s' l') (hready : s'.readyQ = s.readyQ ++ [j])
    (hsub : ∀ i ≠ j, s'.subPriority i = s.subPriority i) (hj : j ∉ l) :
    Heaped D (s'.pushHeap H D) l' := by
  have hheap : IsHeap (jobSorter D s') s.readyQ := h.heap.congr <| jobSorter_congr fun i hi =>
    ⟨rfl, hsub i fun heq => hj (heq ▸ h.perm.mem_iff.mp hi)⟩
  obtain ⟨hperm, hheap⟩ := pushHeap_spec H hready hheap
  exact ⟨⟨(hready ▸ hperm).trans hs'.perm, hs'.sorted, hs'.bound, hs'.nonneg⟩, hheap⟩

theorem Heaped.prepend (hj : j ∉ l) : Heaped D ((s.prepend j).pushHeap H D) (j :: l) :=
  h.pushHeap H (h.toQueue.prepend hj) rfl (fun _ hi => update_of_ne hi _ _) hj

theorem Heaped.append (hj : j ∉ l) : Heaped D ((s.append j).pushHeap H D) (l ++ [j]) :=
  h.pushHeap H (h.toQueue.append hj) rfl (fun _ hi => update_of_ne hi _ _) hj

/-- **A legal call** of the heap answers like the double-ended queues. -/
theorem Heaped.call (q : QueueCall n) (hq : q.Legal (D, l)) :
    ∃ s', heapCall H (D, s) q = ((dequeCall (D, l) q).1, (dequeCall (D, l) q).2.1, s') ∧
      Heaped (dequeCall (D, l) q).2.1 s' (dequeCall (D, l) q).2.2 := by
  have hmem : ∀ {i}, i ∈ s.readyQ → i ∈ l := h.perm.mem_iff.mp
  cases q with
  | prepend j => exact ⟨_, rfl, h.prepend H hq⟩
  | append j => exact ⟨_, rfl, h.append H hq⟩
  | setPriorities priority =>
    refine ⟨_, rfl, h.toQueue, h.heap.congr (jobSorter_congr fun i hi => ⟨?_, rfl⟩)⟩
    exact hq i (hmem hi)
  | pop =>
    by_cases hnil : s.readyQ = []
    · obtain rfl : l = [] := nil_perm.mp (hnil ▸ h.perm)
      exact ⟨s, by simp [heapCall, hnil, dequeCall, firstReady], h⟩
    · obtain ⟨j, v, hpop, hj, hperm, hv, hmax⟩ := heapCall_pop H h.heap hnil
      have hfirst := h.firstReady_eq (hmem hj) fun i hi => hmax i (h.perm.mem_iff.mpr hi)
      simp only [hpop, dequeCall, hfirst]
      exact ⟨_, rfl, h.of_sublist rfl rfl erase_sublist (hperm.trans (h.perm.erase j)), hv⟩

end

/-- Calls that keep a relation to the double-ended queues are answered like theirs. -/
theorem answers_eq {call : DagFile n × State n → QueueCall n → Option (Fin n) × DagFile n × State n}
    (I : DagFile n → State n → List (Fin n) → Prop)
    (hcall : ∀ {D s l} q, I D s l → q.Legal (D, l) → ∃ s', call (D, s) q =
        ((dequeCall (D, l) q).1, (dequeCall (D, l) q).2.1, s') ∧
      I (dequeCall (D, l) q).2.1 s' (dequeCall (D, l) q).2.2)
    (h : I D s l) {calls : List (QueueCall n)} (hcalls : LegalCalls (D, l) calls) :
    answers call (D, s) calls = answers dequeCall (D, l) calls := by
  induction calls generalizing D s l with
  | nil => rfl
  | cons q qs ih =>
    obtain ⟨hq, hqs⟩ := hcalls
    obtain ⟨s', heq, h'⟩ := hcall q h hq
    simp only [answers, heq]
    exact congrArg _ (ih h' hqs)

/-- **The ready queue is one double-ended queue for each priority**, if no node is in it twice. So
is the one that takes the greatest node. -/
theorem pop_order (H : StdHeap (Fin n)) (D : DagFile n) (s : State n) (hempty : s.readyQ = [])
    (hnew : s.generation = 0) (calls : List (QueueCall n)) (hcalls : LegalCalls (D, []) calls) :
    answers (heapCall H) (D, s) calls = answers dequeCall (D, []) calls ∧
      answers queueCall (D, s) calls = answers dequeCall (D, []) calls := by
  have hqueue : Queue s [] := ⟨hempty ▸ .refl _, .nil, nofun, hnew ▸ le_refl _⟩
  have hheap : Heaped D s [] := ⟨hqueue, hempty ▸ .of_pairwise .nil⟩
  exact ⟨answers_eq Heaped (fun q h hq => h.call H q hq) hheap hcalls,
    answers_eq (fun _ => Queue) (fun q h hq => h.call q hq) hqueue hcalls⟩

/-- Nodes without edges. -/
def unrelated (priority : Fin n → ℤ) : DagFile n where
  node j := { children := [], effectivePriority := priority j }
  children_nodup _ := .nil

/-- The second and the fourth node have the higher priority. -/
theorem pop_order_four : answers (heapCall .sorting)
      (unrelated fun j => j % 2, { jobs := initialJob (unrelated fun _ => 0) })
      [.prepend 0, .append 1, .append 2, .prepend (3 : Fin 4), .pop, .pop, .pop, .pop] =
    [none, none, none, none, some 3, some 1, some 0, some 2] :=
  (pop_order .sorting _ _ rfl rfl _
    (by simp [LegalCalls, QueueCall.Legal, dequeCall])).1.trans (by decide)

section

variable {p : ℤ}

theorem jobSorter_unrelated : jobSorter (unrelated fun _ => p) s a b = false ↔
    s.subPriority b ≤ s.subPriority a := by
  simp [jobSorter, unrelated]

/-- Among nodes of one priority the heap returns the one with the greatest number. -/
theorem heapCall_pop_unrelated (H : StdHeap (Fin n))
    (hheap : IsHeap (jobSorter (unrelated fun _ => p) s) s.readyQ) (hperm : s.readyQ.Perm l)
    (hj : j ∈ l) (hmax : ∀ i ∈ l, i ≠ j → s.subPriority i < s.subPriority j) :
    ∃ s', heapCall H (unrelated fun _ => p, s) .pop = (some j, unrelated fun _ => p, s') ∧
      s'.subPriority = s.subPriority ∧ s'.readyQ.Perm (l.erase j) ∧
      IsHeap (jobSorter (unrelated fun _ => p) s') s'.readyQ := by
  have hready : j ∈ s.readyQ := hperm.mem_iff.mpr hj
  obtain ⟨i, v, hpop, hi, hv, hheap', hle⟩ := heapCall_pop H hheap (ne_nil_of_mem hready)
  have hsub : s.subPriority j ≤ s.subPriority i := by
    simpa [sortKey, unrelated, Prod.Lex.toLex_le_toLex] using hle j hready
  obtain rfl : i = j := by
    by_contra hne
    exact absurd (hmax i (hperm.mem_iff.mp hi) hne) (not_lt.mpr hsub)
  exact ⟨_, hpop, rfl, hv.trans (hperm.erase i), hheap'⟩

/-- The vector is still a heap when other nodes than the root get less numbers. -/
theorem Heaped.renumbered (h : Heaped (unrelated fun _ => p) s (a :: l)) (hlen : l.length ≤ 2)
    (hle : ∀ b ∈ l, s'.subPriority b ≤ s'.subPriority a) :
    IsHeap (jobSorter (unrelated fun _ => p) s') s.readyQ := by
  obtain ⟨hheap, hperm⟩ := And.intro h.heap h.perm
  obtain ⟨c, v, hq⟩ := exists_cons_of_ne_nil (ne_nil_of_mem (hperm.mem_iff.mpr mem_cons_self))
  rw [hq] at hheap hperm ⊢
  obtain rfl : c = a := by
    have hroot := jobSorter_unrelated.mp
      (hheap.not_less (strictWeak_jobSorter _ s) (hperm.mem_iff.mpr mem_cons_self))
    rcases mem_cons.mp (hperm.mem_iff.mp mem_cons_self) with hc | hc
    · exact hc
    · exact absurd ((pairwise_cons.mp h.sorted).1 c hc) (not_lt.mpr hroot)
  have hv : v.Perm l := hperm.cons_inv
  exact .of_root (hv.length_eq ▸ hlen) fun b hb =>
    jobSorter_unrelated.mpr (hle b (hv.mem_iff.mp hb))

/-- The second of three nodes is appended again: its entry gets behind the third one. -/
theorem Heaped.answers_append_again (H : StdHeap (Fin n)) {c : Fin n}
    (h : Heaped (unrelated fun _ => p) s [a, b, c]) :
    answers (heapCall H) (unrelated fun _ => p, s) [.append b, .pop, .pop] =
      [none, some a, some c] := by
  have hsorted := h.sorted
  simp only [pairwise_cons, mem_cons, forall_eq_or_imp, not_mem_nil] at hsorted
  obtain ⟨⟨hab, hac, -⟩, ⟨hbc, -⟩, -⟩ := hsorted
  have hbound := (h.bound c (by simp)).1
  have hne : a ≠ b ∧ c ≠ b ∧ a ≠ c := by
    refine ⟨?_, ?_, ?_⟩ <;> rintro rfl <;> omega
  have ha : (s.append b).subPriority a = s.subPriority a := update_of_ne hne.1 _ _
  have hc : (s.append b).subPriority c = s.subPriority c := update_of_ne hne.2.1 _ _
  have hb : (s.append b).subPriority b < s.subPriority c := by
    simp only [State.append, update_self]
    omega
  obtain ⟨hperm, hheap⟩ := pushHeap_spec H (s := s.append b) rfl
    (h.renumbered (by simp) (by simp only [forall_mem_cons]; exact ⟨by omega, by omega, nofun⟩))
  obtain ⟨s2, hpop, hsub, hperm, hheap⟩ := heapCall_pop_unrelated H (j := a) hheap
    (hperm.trans (h.perm.append_right _)) (by simp) (by
      simp [State.pushHeap, ha, hc]
      omega)
  obtain ⟨s3, hpop', -⟩ := heapCall_pop_unrelated H (j := c) hheap hperm (by simp [hne]) (by
    simp [hsub, State.pushHeap, hc, hb])
  have happend : heapCall H (unrelated fun _ => p, s) (.append b) =
    (none, unrelated fun _ => p, (s.append b).pushHeap H (unrelated fun _ => p)) := rfl
  simp only [answers, happend, hpop, hpop']

end

/-- **A node is appended while it is in the queue**, with whatever heap. -/
theorem pop_order_twice :
    let calls : List (QueueCall 3) := [.append 0, .append 1, .append 2, .append 1, .pop, .pop]
    let D : DagFile 3 := unrelated fun _ => 0
    (∀ H : StdHeap (Fin 3), answers (heapCall H) (D, { jobs := initialJob D }) calls =
        [none, none, none, none, some 0, some 2]) ∧
      answers dequeCall (D, []) calls = [none, none, none, none, some 0, some 1] := by
  intro calls D
  refine ⟨fun H => ?_, by decide⟩
  have h0 : Heaped D { jobs := initialJob D } [] :=
    ⟨⟨.nil, .nil, nofun, le_rfl⟩, .of_pairwise .nil⟩
  have h3 := ((h0.append H (j := 0) (by simp)).append H (j := 1) (by simp)).append H (j := 2)
    (by simp)
  exact congrArg ([none, none, none] ++ ·) (h3.answers_append_again H)

/-! ## Submit cycles -/

def takeAll (D : DagFile n) : ℕ → State n → List (Fin n)
  | 0, _ => []
  | k + 1, s =>
    match s.pop D with
    | none => []
    | some (j, s) => j :: takeAll D k s

/-- The nodes in the order in which they would be taken. -/
def State.popOrder (D : DagFile n) (s : State n) : List (Fin n) := takeAll D s.readyQ.length s

abbrev PoppedBefore (D : DagFile n) (s : State n) (x y : Fin n) : Prop :=
  (s.popOrder D).idxOf x < (s.popOrder D).idxOf y

/-- The nodes before this one fill its category. -/
def isFull (D : DagFile n) (cfg : Config) (s : State n) (j : Fin n) : Bool :=
  match (D.node j).throttle with
  | none => false
  | some k =>
    match cfg.categoryMax k with
    | none => false
    | some m => (m : ℤ) ≤ s.currentJobs k +
        ((s.popOrder D).takeWhile (· ≠ j)).countP fun i => (D.node i).throttle = some k

/-- The node is among those that a cycle of at most `m` rounds looks at. -/
def isReached (D : DagFile n) (cfg : Config) (s : State n) (m : ℕ) (j : Fin n) : Bool :=
  let earlier := (s.popOrder D).takeWhile (· ≠ j)
  earlier.length < m && (cfg.maxJobs = 0 ||
    s.numJobsSubmitted + earlier.countP (fun i => !isFull D cfg s i) < (cfg.maxJobs : ℤ))

theorem sortKey_lt_iff (h : (D.node a).effectivePriority = (D.node b).effectivePriority) :
    sortKey D s a < sortKey D s b ↔ s.subPriority a < s.subPriority b := by
  simp [sortKey, Prod.Lex.toLex_lt_toLex, h]

theorem Queue.sortKey_ne (h : Queue s l) (ha : a ∈ l) (hb : b ∈ l) (hne : a ≠ b) :
    sortKey D s a ≠ sortKey D s b := by
  intro heq
  have hsub : s.subPriority a = s.subPriority b := congrArg (fun k => (ofLex k).2) heq
  rcases pairwise_total h.sorted ha hb hne with hlt | hlt <;> omega

theorem Queue.popOrder (h : Queue s l) : (s.popOrder D).Perm s.readyQ ∧
    (s.popOrder D).Pairwise fun a b => sortKey D s b < sortKey D s a := by
  unfold State.popOrder
  generalize hk : s.readyQ.length = k
  induction k generalizing s l with
  | zero =>
    rw [length_eq_zero_iff.mp hk]
    exact ⟨.nil, .nil⟩
  | succ k ih =>
    cases hpop : s.pop D with
    | none =>
      rw [pop_eq_none hpop] at hk
      cases hk
    | some x =>
      obtain ⟨j, s'⟩ := x
      obtain ⟨hj, rfl⟩ := pop_eq hpop
      have hlen : (s.readyQ.erase j).length = k := by
        rw [length_erase_of_mem hj, hk]
        rfl
      obtain ⟨hperm, hsorted⟩ := ih (h.pop hpop).2 hlen
      simp only [takeAll, hpop]
      refine ⟨(hperm.cons j).trans (perm_cons_erase hj).symm,
        pairwise_cons.mpr ⟨fun b hb => ?_, hsorted⟩⟩
      obtain ⟨hne, hmem⟩ := ((h.perm.nodup_iff.mpr h.nodup).mem_erase_iff).mp (hperm.mem_iff.mp hb)
      exact lt_of_le_of_ne (pop_greatest hpop hmem)
        (h.sortKey_ne (h.perm.mem_iff.mp hmem) (h.perm.mem_iff.mp hj) hne)

theorem idxOf_lt_iff (hR : ∀ a b, R a b → ¬ R b a) (h : l.Pairwise R)
    (ha : a ∈ l) (hb : b ∈ l) : l.idxOf a < l.idxOf b ↔ R a b := by
  have hlt : ∀ a ∈ l, ∀ b ∈ l, l.idxOf a < l.idxOf b → R a b := fun a ha b hb hlt => by
    have hab := pairwise_iff_getElem.mp h _ _ (idxOf_lt_length_of_mem ha)
      (idxOf_lt_length_of_mem hb) hlt
    rwa [getElem_idxOf, getElem_idxOf] at hab
  refine ⟨hlt a ha b hb, fun hab => ?_⟩
  rcases Nat.lt_trichotomy (l.idxOf a) (l.idxOf b) with h' | h' | h'
  · exact h'
  · rw [(idxOf_inj ha).mp h'] at hab
    exact absurd hab (hR b b hab)
  · exact absurd hab (hR b a (hlt b hb a ha h'))

/-- **The order of nodes of one priority** is that of their numbers. -/
theorem Queue.poppedBefore_iff (h : Queue s l) (ha : a ∈ l) (hb : b ∈ l)
    (hab : (D.node a).effectivePriority = (D.node b).effectivePriority) :
    PoppedBefore D s a b ↔ s.subPriority b < s.subPriority a := by
  obtain ⟨hperm, hsorted⟩ := h.popOrder
  have hmem : ∀ {i}, i ∈ l → i ∈ s.popOrder D := fun hi =>
    hperm.mem_iff.mpr (h.perm.mem_iff.mpr hi)
  rw [PoppedBefore, idxOf_lt_iff (fun _ _ => lt_asymm) hsorted (hmem ha) (hmem hb),
    sortKey_lt_iff hab.symm]

/-- **What a cycle has done** when it has looked at the nodes `as`. -/
structure Passed (D : DagFile n) (cfg : Config) (s : State n) (m : ℕ) (as rest : List (Fin n))
    (s' : State n) : Prop where
  order : s.popOrder D = as ++ rest
  ready : s'.readyQ.Perm rest
  sub : s'.subPriority = s.subPriority
  generation : s'.generation = s.generation
  deferred : s'.deferredJobs = as.filter (isFull D cfg s)
  submitted : s'.numJobsSubmitted = s.numJobsSubmitted + as.countP fun i => !isFull D cfg s i
  counts : ∀ k m, cfg.categoryMax k = some m → ((m : ℤ) ≤ s'.currentJobs k ↔
      (m : ℤ) ≤ s.currentJobs k + as.countP fun i => (D.node i).throttle = some k) ∧
    (s'.currentJobs k < m →
      s'.currentJobs k = s.currentJobs k + as.countP fun i => (D.node i).throttle = some k)
  reached : ∀ j ∈ as, isReached D cfg s m j = true

variable {m : ℕ} {s1 s2 : State n} {w w' : World n} {outcomes : List Outcome}

theorem takeWhile_ne (hl : l = as ++ rest) (hj : j ∉ as) :
    l.takeWhile (· ≠ j) = as ++ rest.takeWhile (· ≠ j) := by
  rw [hl, takeWhile_append_of_pos]
  exact fun a ha => decide_eq_true fun heq : a = j => hj (heq ▸ ha)

theorem Passed.notMem (h : Passed D cfg s m as rest s1) (hs : Queue s l) (hj : j ∈ rest) :
    j ∉ as := by
  intro hj'
  have hnodup := (hs.popOrder (D := D)).1.nodup_iff.mpr (hs.perm.nodup_iff.mpr hs.nodup)
  rw [h.order] at hnodup
  exact (nodup_append.mp hnodup).2.2 j hj' j hj rfl

section

variable (h : Passed D cfg s m as (j :: rest) s1) (hs : Queue s l)
include h hs

theorem Passed.earlier : (s.popOrder D).takeWhile (· ≠ j) = as := by
  rw [takeWhile_ne h.order (h.notMem hs mem_cons_self)]
  simp

/-- The throttle sees whether the nodes before this one fill the category. -/
theorem Passed.isThrottled : isThrottled D cfg s1 j = isFull D cfg s j := by
  unfold Dagman.isThrottled isFull
  rw [h.earlier hs]
  cases (D.node j).throttle with
  | none => rfl
  | some k =>
    cases hmax : cfg.categoryMax k with
    | none => simp only [hmax]
    | some m =>
      simp only [hmax]
      exact decide_eq_decide.mpr (h.counts k m hmax).1

theorem Passed.next (hlen : as.length < m)
    (hmax : ¬ (cfg.maxJobs ≠ 0 ∧ (cfg.maxJobs : ℤ) ≤ s1.numJobsSubmitted))
    (hready : s2.readyQ = s1.readyQ.erase j) (hsub : s2.subPriority = s1.subPriority)
    (hgen : s2.generation = s1.generation)
    (hdef : s2.deferredJobs = s1.deferredJobs ++ if isFull D cfg s j then [j] else [])
    (hnum : s2.numJobsSubmitted = s1.numJobsSubmitted + if isFull D cfg s j then 0 else 1)
    (hcur : ∀ k, s2.currentJobs k = s1.currentJobs k +
      if isFull D cfg s j = false ∧ (D.node j).throttle = some k then 1 else 0) :
    Passed D cfg s m (as ++ [j]) rest s2 where
  order := by rw [h.order, append_assoc]; rfl
  ready := by
    rw [hready]
    simpa using h.ready.erase j
  sub := hsub.trans h.sub
  generation := hgen.trans h.generation
  deferred := by
    rw [hdef, h.deferred]
    cases hfull : isFull D cfg s j <;> simp [hfull]
  submitted := by
    rw [hnum, h.submitted]
    cases hfull : isFull D cfg s j <;> simp [hfull, add_assoc]
  counts k m' hm' := by
    obtain ⟨hle, heq⟩ := h.counts k m' hm'
    rw [hcur]
    by_cases hk : (D.node j).throttle = some k
    · have hfull : isFull D cfg s j = decide ((m' : ℤ) ≤ s1.currentJobs k) := by
        rw [← h.isThrottled hs]
        simp [Dagman.isThrottled, hk, hm']
      · simp [hfull, hk]
        omega
    · simpa [hk] using ⟨hle, heq⟩
  reached i hi := by
    rcases mem_append.mp hi with hi | hi
    · exact h.reached i hi
    · have hnum := h.submitted
      rw [mem_singleton.mp hi]
      simp only [isReached, h.earlier hs, Bool.and_eq_true, Bool.or_eq_true, decide_eq_true_eq]
      omega

end

theorem Passed.not_reached (h : Passed D cfg s m as rest s1) (hs : Queue s l)
    (hend : m ≤ as.length ∨ cfg.maxJobs ≠ 0 ∧ (cfg.maxJobs : ℤ) ≤ s1.numJobsSubmitted)
    (hj : j ∈ rest) : isReached D cfg s m j = false := by
  have hnum := h.submitted
  simp only [isReached, takeWhile_ne h.order (h.notMem hs hj), length_append, countP_append,
    Bool.and_eq_false_iff, Bool.or_eq_false_iff, decide_eq_false_iff_not]
  omega

theorem submitAccepted_counts {cluster : ℤ} {procs : ℕ}
    (hs : submitAccepted D w j cluster procs = some w') :
    ∃ jobs hash fake cur, w'.dag = { w.dag with
        jobs := jobs, eventIDHash := hash, fakeID := fake
        numJobsSubmitted := w.dag.numJobsSubmitted + 1, currentJobs := cur } ∧
      ∀ k, cur k = w.dag.currentJobs k + if (D.node j).throttle = some k then 1 else 0 := by
  obtain ⟨s1, h1, hs⟩ := bind_eq_some_iff.mp hs
  obtain ⟨hash, rfl, -⟩ := submitNodeJob_eq h1
  split_ifs at hs
  all_goals
    obtain ⟨s2, h2, hs⟩ := bind_eq_some_iff.mp hs
    obtain ⟨cur, rfl, hcur, -⟩ := processSuccessfulSubmit_eq h2
    cases hs
    exact ⟨_, _, _, cur, rfl, hcur⟩

/-- **The loop** looks at the nodes in their order, until it ends. -/
theorem submitLoop_passed (hs : Queue s l) (hok : ∀ o ∈ outcomes, o ≠ .failed)
    (h : Passed D cfg s m as rest w.dag) (hlen : as.length + outcomes.length = m)
    (hrun : submitLoop D cfg outcomes w = some w') :
    ∃ as rest, Passed D cfg s m as rest w'.dag ∧ ∀ j ∈ rest, isReached D cfg s m j = false := by
  induction outcomes generalizing w as rest with
  | nil =>
    cases hrun
    exact ⟨as, rest, h, fun j => h.not_reached hs (.inl (Nat.le_of_eq hlen.symm))⟩
  | cons o os ih =>
    simp only [submitLoop] at hrun
    cases hpop : w.dag.pop D with
    | none =>
      simp only [hpop] at hrun
      cases hrun
      obtain rfl : rest = [] := nil_perm.mp (pop_eq_none hpop ▸ h.ready)
      exact ⟨as, [], h, fun _ hj => absurd hj not_mem_nil⟩
    | some x =>
      obtain ⟨j, s1⟩ := x
      obtain ⟨hj, rfl⟩ := pop_eq hpop
      -- the greatest node is the next one
      obtain ⟨rest, rfl⟩ : ∃ rest', rest = j :: rest' := by
        have hmem := h.ready.mem_iff.mp hj
        obtain ⟨j', rest', rfl⟩ := exists_cons_of_ne_nil (ne_nil_of_mem hmem)
        rcases mem_cons.mp hmem with rfl | hmem'
        · exact ⟨rest', rfl⟩
        · have hsorted := (hs.popOrder (D := D)).2
          rw [h.order] at hsorted
          have hlt := (pairwise_cons.mp (pairwise_append.mp hsorted).2.1).1 j hmem'
          have hle := pop_greatest hpop (h.ready.mem_iff.mpr mem_cons_self)
          simp only [sortKey, h.sub] at hle
          exact absurd hlt (not_lt_of_ge hle)
      simp only [length_cons] at hlen
      have hos : ∀ o ∈ os, o ≠ .failed := fun o ho => hok o (mem_cons_of_mem _ ho)
      have hlen' : (as ++ [j]).length + os.length = m := by
        rw [length_append, length_singleton]
        omega
      have hthrottle : isThrottled D cfg { w.dag with readyQ := w.dag.readyQ.erase j } j =
          isFull D cfg s j := h.isThrottled hs
      simp only [hpop, hthrottle] at hrun
      split_ifs at hrun with hmax hready hfull
      · cases hrun
        exact ⟨as, _, h, fun j => h.not_reached hs (.inr hmax)⟩
      · refine ih hos (h.next hs (by omega) hmax ?_ ?_ ?_ ?_ ?_ ?_) hlen' hrun <;> simp [hfull]
      · cases o with
        | failed => exact absurd rfl (hok _ mem_cons_self)
        | accepted cluster procs =>
          obtain ⟨w1, h1, hrun⟩ := bind_eq_some_iff.mp hrun
          obtain ⟨jobs, hash, fake, cur, hdag, hcur⟩ := submitAccepted_counts h1
          refine ih hos (h.next hs (by omega) hmax ?_ ?_ ?_ ?_ ?_ ?_) hlen' hrun <;> rw [hdag]
          · simp [hfull]
          · simp [hfull]
          · simpa [hfull] using hcur

theorem foldl_prepend (ds : List (Fin n)) (hs : Queue s l) (hnodup : ds.Nodup)
    (hdisj : ∀ d ∈ ds, d ∉ l) : Queue (ds.foldl prepend s) (ds.reverse ++ l) ∧
      ∀ j ∉ ds, (ds.foldl prepend s).subPriority j = s.subPriority j := by
  induction ds generalizing s l with
  | nil => exact ⟨hs, fun _ _ => rfl⟩
  | cons d ds ih =>
    obtain ⟨hd, hnodup⟩ := nodup_cons.mp hnodup
    have hdisj' : ∀ e ∈ ds, e ∉ d :: l := by
      intro e he hmem
      rcases mem_cons.mp hmem with rfl | hmem
      · exact hd he
      · exact hdisj e (mem_cons_of_mem _ he) hmem
    obtain ⟨hq, hsame⟩ := ih (hs.prepend (hdisj d mem_cons_self)) hnodup hdisj'
    refine ⟨by simpa using hq, fun j hj => ?_⟩
    rw [foldl_cons, hsame j fun h => hj (mem_cons_of_mem _ h)]
    exact update_of_ne (ne_of_not_mem_cons hj) _ _

/-- A cycle of at most `m` rounds defers the node. -/
def isDeferred (D : DagFile n) (cfg : Config) (s : State n) (m : ℕ) (j : Fin n) : Bool :=
  isFull D cfg s j && isReached D cfg s m j

/-- **What a cycle does to the queue**: the deferred nodes are put back one in front of the other.
-/
theorem submitReadyJobs_queue (hs : Queue w.dag l) (hnew : w.dag.deferredJobs = [])
    (hok : ∀ o ∈ outcomes, o ≠ .failed) (hrun : submitReadyJobs D cfg w outcomes = some w') :
    ∃ ds left : List (Fin n), Queue w'.dag (ds.reverse ++ left) ∧
      (∀ j, j ∈ ds ↔ j ∈ l ∧ isDeferred D cfg w.dag outcomes.length j = true) ∧
      ds.Pairwise (fun a b => sortKey D w.dag b < sortKey D w.dag a) ∧
      ∀ b ∈ left, b ∈ l ∧ w'.dag.subPriority b = w.dag.subPriority b ∧
        ∀ a ∈ ds, sortKey D w.dag b < sortKey D w.dag a := by
  obtain ⟨w1, hloop, rfl⟩ := map_eq_some_iff.mp hrun
  obtain ⟨hperm, hsorted⟩ := hs.popOrder
  have hstart : Passed D cfg w.dag outcomes.length [] (w.dag.popOrder D) w.dag :=
    ⟨rfl, hperm.symm, rfl, rfl, hnew, by simp, by simp, nofun⟩
  obtain ⟨as, rest, h, hrest⟩ := submitLoop_passed hs hok hstart (by simp) hloop
  have hnodup := hperm.nodup_iff.mpr (hs.perm.nodup_iff.mpr hs.nodup)
  have hmem : ∀ i, i ∈ l ↔ i ∈ as ∨ i ∈ rest := fun i => by
    rw [← hs.perm.mem_iff, ← hperm.mem_iff, h.order, mem_append]
  rw [h.order] at hsorted hnodup
  obtain ⟨has, hrest', hdisj⟩ := nodup_append.mp hnodup
  obtain ⟨hsorted, -, hlast⟩ := pairwise_append.mp hsorted
  have hleft : Queue w1.dag (l.filter (· ∈ rest)) := by
    refine hs.of_sublist h.sub h.generation filter_sublist (h.ready.trans ?_)
    refine (perm_ext_iff_of_nodup hrest' (hs.nodup.filter _)).mpr fun i => ?_
    simp only [mem_filter, decide_eq_true_eq, hmem, iff_and_self]
    exact Or.inr
  obtain ⟨hq, hsame⟩ := foldl_prepend (as.filter (isFull D cfg w.dag)) hleft (has.filter _)
    fun d hd hd' => hdisj d (mem_of_mem_filter hd) d (by simpa using (mem_filter.mp hd').2) rfl
  rw [← h.deferred] at hq hsame
  refine ⟨w1.dag.deferredJobs, l.filter (· ∈ rest), ⟨hq.perm, hq.sorted, hq.bound, hq.nonneg⟩,
    fun j => ?_, h.deferred ▸ hsorted.filter _, fun b hb => ?_⟩
  · rw [h.deferred, isDeferred, hmem]
    by_cases hj : j ∈ rest
    · simp [hrest j hj, h.notMem hs hj]
    · simpa [hj] using fun hj _ => h.reached j hj
  · obtain ⟨hbl, hb⟩ := mem_filter.mp hb
    simp only [decide_eq_true_eq] at hb
    refine ⟨hbl, ?_, fun a ha => hlast a (mem_of_mem_filter (h.deferred ▸ ha)) b hb⟩
    rw [← h.sub]
    refine hsame b fun hb' => ?_
    rw [h.deferred] at hb'
    exact h.notMem hs hb (mem_of_mem_filter hb')

/-- Two nodes of one priority that are in both queues would be taken in the same order. -/
def KeepsOrder (D : DagFile n) (s s' : State n) : Prop :=
  ∀ x y, x ∈ s.readyQ → x ∈ s'.readyQ → y ∈ s.readyQ → y ∈ s'.readyQ →
    (D.node x).effectivePriority = (D.node y).effectivePriority →
    PoppedBefore D s x y → PoppedBefore D s' x y

/-- **A cycle keeps the order** exactly if it does not defer two nodes of one priority. -/
theorem submitReadyJobs_order_iff (hs : Queue w.dag l) (hnew : w.dag.deferredJobs = [])
    (hok : ∀ o ∈ outcomes, o ≠ .failed) (hrun : submitReadyJobs D cfg w outcomes = some w') :
    KeepsOrder D w.dag w'.dag ↔ ∀ x y, x ∈ w.dag.readyQ → y ∈ w.dag.readyQ → x ≠ y →
      (D.node x).effectivePriority = (D.node y).effectivePriority →
      ¬ (isDeferred D cfg w.dag outcomes.length x ∧ isDeferred D cfg w.dag outcomes.length y) := by
  obtain ⟨ds, left, hq, hds, hsorted, hleft⟩ := submitReadyJobs_queue hs hnew hok hrun
  obtain ⟨hreverse, -, hfront⟩ := pairwise_append.mp hq.sorted
  have hturned := hsorted.and (pairwise_reverse.mp hreverse)
  simp only [KeepsOrder, hs.perm.mem_iff, hq.perm.mem_iff, mem_append, mem_reverse]
  constructor
  · intro h x y hx hy hne hxy ⟨hdx, hdy⟩
    have hdx := (hds x).mpr ⟨hx, hdx⟩
    have hdy := (hds y).mpr ⟨hy, hdy⟩
    have hno : ∀ x y, x ∈ ds → y ∈ ds → (D.node x).effectivePriority =
        (D.node y).effectivePriority →
        ¬ (sortKey D w.dag y < sortKey D w.dag x ∧
          w'.dag.subPriority x < w'.dag.subPriority y) := by
      intro x y hdx hdy hxy ⟨hlt, hlt'⟩
      have hx := ((hds x).mp hdx).1
      have hy := ((hds y).mp hdy).1
      rw [sortKey_lt_iff hxy.symm, ← hs.poppedBefore_iff hx hy hxy] at hlt
      have hafter := h x y hx (.inl hdx) hy (.inl hdy) hxy hlt
      rw [hq.poppedBefore_iff (by simp [hdx]) (by simp [hdy]) hxy] at hafter
      omega
    rcases pairwise_total hturned hdx hdy hne with hlt | hlt
    · exact hno x y hdx hdy hxy hlt
    · exact hno y x hdy hdx hxy.symm hlt
  · intro h x y hx hx' hy hy' hxy hbefore
    rw [hs.poppedBefore_iff hx hy hxy] at hbefore
    rw [hq.poppedBefore_iff (by simpa using hx') (by simpa using hy') hxy]
    rcases hx' with hdx | hlx <;> rcases hy' with hdy | hly
    · refine absurd ⟨((hds x).mp hdx).2, ((hds y).mp hdy).2⟩ (h x y hx hy ?_ hxy)
      rintro rfl
      exact lt_irrefl _ hbefore
    · exact hfront x (mem_reverse.mpr hdx) y hly
    · have hlt := (hleft x hlx).2.2 y hdy
      rw [sortKey_lt_iff hxy] at hlt
      omega
    · rwa [(hleft x hlx).2.1, (hleft y hly).2.1]

/-- All nodes are ready, in one category. -/
def sameCategory (n : ℕ) : DagFile n where
  node _ := { children := [], throttle := some 0 }
  children_nodup _ := .nil

def World.filled (D : DagFile n) : World n where
  dag := (finRange n).foldl append { jobs := initialJob D }

/-- The second of two nodes is deferred. -/
theorem submitReadyJobs_order_two : ∃ w : World 2,
    submitReadyJobs (sameCategory 2) { categoryMax := fun _ => some 1 } (.filled (sameCategory 2))
      [.accepted 5 1, .accepted 6 1] = some w ∧
    KeepsOrder (sameCategory 2) (World.filled (sameCategory 2)).dag w.dag := by
  have hqueue : Queue (World.filled (sameCategory 2)).dag [0, 1] :=
    ⟨by decide, by decide, by decide, by decide⟩
  have hrun : submitReadyJobs (sameCategory 2) { categoryMax := fun _ => some 1 }
    (.filled (sameCategory 2)) [.accepted 5 1, .accepted 6 1] = some _ := rfl
  exact ⟨_, hrun, (submitReadyJobs_order_iff hqueue rfl (by decide) hrun).mpr (by decide)⟩

/-- The second and the third of three nodes are deferred, and change places. -/
theorem submitReadyJobs_reverses : ∃ w : World 3,
    submitReadyJobs (sameCategory 3) { categoryMax := fun _ => some 1 } (.filled (sameCategory 3))
      [.accepted 5 1, .accepted 6 1, .accepted 7 1] = some w ∧ w.dag.readyQ = [1, 2] ∧
    PoppedBefore (sameCategory 3) (World.filled (sameCategory 3)).dag 1 2 ∧
    PoppedBefore (sameCategory 3) w.dag 2 1 := by
  refine ⟨_, rfl, rfl, ?_, ?_⟩ <;> decide

end Condor.Dagman
