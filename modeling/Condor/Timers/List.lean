import Condor.Timers.Model
import Mathlib.Data.List.TakeWhile

/-!
# The timer list — what `InsertTimer`, `RemoveTimer` and `GetTimer` do

* `getTimer_listed`, **`removeTimer_listed`**, **`insertTimer_listed`**.
-/

namespace Condor.Timers

open Linked List

attribute [local simp] Heap.meets Except.pure Except.bind insertTimer pure bind

/-- The timer list is `l`, from `timer_list` to `list_tail`. -/
structure Listed (m : TimerManager) (l : List Addr) : Prop where
  chain : Chain m.heap m.timerList l none
  nodup : l.Nodup
  tail : m.listTail = l.getLast?
  made : l.length ≤ m.heap.made

/-- The same timers are in use, with the same values. -/
def SameTimers (h h' : Heap Timer) : Prop :=
  ∀ a, (h'.cell a).map Cell.val = (h.cell a).map Cell.val

def TimerManager.withList (m : TimerManager) (heap : Heap Timer) (l : List Addr) : TimerManager :=
  { m with heap := heap, timerList := l.head?, listTail := l.getLast? }

attribute [local simp] TimerManager.withList

def whenAt (h : Heap Timer) (a : Addr) : ℤ := (h.cell a).elim 0 fun c => c.val.when

theorem SameTimers.refl (h : Heap Timer) : SameTimers h h := fun _ => rfl

theorem SameTimers.trans {h h' h'' : Heap Timer} (h1 : SameTimers h h')
    (h2 : SameTimers h' h'') : SameTimers h h'' := fun a => (h2 a).trans (h1 a)

variable {c : Cell Timer} {a : Addr} {h : Heap Timer} {m : TimerManager} {l l1 l2 : List Addr}

theorem SameTimers.put (hc : h.cell a = some c)
    (q : Option Addr) : SameTimers h (h.put a (some { c with next := q })) := by
  intro b
  by_cases hb : b = a
  · subst hb
    simp [hc]
  · rw [h.cell_put_of_ne hb]

theorem SameTimers.cell {h h' : Heap Timer} (hs : SameTimers h h')
    (hc : h.cell a = some c) : ∃ q, h'.cell a = some ⟨c.val, q⟩ := by
  have h1 := hs a
  rw [hc, Option.map_some, Option.map_eq_some_iff] at h1
  obtain ⟨⟨v, q⟩, hq, rfl⟩ := h1
  exact ⟨q, hq⟩

theorem whenAt_of_cell (hc : h.cell a = some c) : whenAt h a = c.val.when := by
  simp [whenAt, hc]

theorem Listed.timerList (hl : Listed m l) : m.timerList = l.head? := hl.chain.head

theorem getTimer_listed (hl : Listed m (l1 ++ a :: l2)) (hc : m.heap.cell a = some c)
    (hne : ∀ b ∈ l1, ∀ d, m.heap.cell b = some d → d.val.id ≠ c.val.id) :
    getTimer m c.val.id = .ok (some a, l1.getLast?) := by
  have hno : ∀ b ∈ l1, (!m.heap.meets (fun t => t.id == c.val.id) b) = true := by
    intro b hb
    obtain ⟨d, hd⟩ := hl.chain.cell (mem_append_left _ hb)
    simp [hd, hne b hb d hd]
  rw [getTimer, seek_chain hl.chain (Nat.lt_succ_of_le hl.made)]
  simp only [dropWhile_append_of_pos hno, takeWhile_append_of_pos hno]
  simp [hc]

theorem getTimer_cases (hl : Listed m l) (id : ℤ) :
    (∃ l1 a l2 c, l = l1 ++ a :: l2 ∧ m.heap.cell a = some c ∧ c.val.id = id ∧
      getTimer m id = .ok (some a, l1.getLast?)) ∨
    ((∀ a ∈ l, ∀ c, m.heap.cell a = some c → c.val.id ≠ id) ∧
      ∃ trail, getTimer m id = .ok (none, trail)) := by
  have hseek : seek m.heap (fun t => t.id == id) _ _ _ = _ :=
    seek_chain hl.chain (Nat.lt_succ_of_le hl.made) none
  set q := fun a => !m.heap.meets (fun t => t.id == id) a with hq
  cases hd : l.dropWhile q with
  | nil =>
    refine .inr ⟨fun a ha c hc he => ?_, _, by rw [getTimer, hseek, hd]; rfl⟩
    have hall := dropWhile_eq_nil_iff.mp hd a ha
    simp [hq, hc, he] at hall
  | cons a l2 =>
    have hl1 : l = l.takeWhile q ++ a :: l2 := by rw [← hd, takeWhile_append_dropWhile]
    obtain ⟨c, hc⟩ := hl.chain.cell (a := a) (by rw [hl1]; simp)
    have ha : q a = false := by
      have := head?_dropWhile_not q l
      rw [hd] at this
      simpa using this
    refine .inl ⟨_, a, l2, c, hl1, hc, ?_, by rw [getTimer, hseek, hd]; simp⟩
    simpa [hq, hc] using ha

/-- **`RemoveTimer`** takes a timer out of the list when it is told the timer before it. -/
theorem removeTimer_listed (hl : Listed m (l1 ++ a :: l2)) :
    ∃ heap, SameTimers m.heap heap ∧ heap.made = m.heap.made ∧
      removeTimer m a l1.getLast? = .ok (m.withList heap (l1 ++ l2)) ∧
      Chain heap (l1 ++ l2).head? (l1 ++ l2) none := by
  obtain ⟨c, hc⟩ := hl.chain.cell (a := a) (by simp)
  have hnext := hl.chain.next hc
  have hnotin := nodup_append.mp hl.nodup
  -- the tail moves back exactly when nothing follows the timer
  have htail : (if some a = m.listTail then l1.getLast? else m.listTail) = (l1 ++ l2).getLast? := by
    rw [hl.tail]
    simp only [eq_getLast?_iff hl.nodup]
    cases l2 with
    | nil => simp
    | cons b l2 => simp
  rcases eq_nil_or_concat l1 with rfl | ⟨k, t, rfl⟩
  · have hfirst : m.timerList = some a := hl.timerList
    obtain ⟨-, c', hc', htl⟩ := hl.chain
    rw [hc] at hc'
    cases hc'
    refine ⟨m.heap, .refl _, rfl, ?_, ?_⟩
    · simp only [getLast?_nil] at htail
      simp [removeTimer, goodRemoval, hfirst, Heap.deref_some hc, hnext, htail]
    · rw [nil_append, ← hnext]
      exact htl
  · simp only [concat_eq_append, append_assoc, cons_append, nil_append]
      at hl htail ⊢
    obtain ⟨ct, hct⟩ := hl.chain.cell (a := t) (by simp)
    have hct' := hl.chain.next hct
    have hne : a ≠ t := by
      rintro rfl
      exact hnotin.2.2 a (by simp) a (by simp) rfl
    have hfirst : m.timerList = (k ++ t :: l2).head? := by
      rw [hl.timerList]; cases k <;> rfl
    have hnf : some a ≠ (k ++ t :: l2).head? := by
      cases k with
      | nil => simpa using hne
      | cons b k =>
        intro he
        exact hnotin.2.2 b (by simp) a (by simp) (by simpa using he.symm)
    refine ⟨_, .put hct c.next, rfl, ?_, ?_⟩
    · simp only [getLast?_append, getLast?_singleton, Option.some_or] at htail ⊢
      simp only [removeTimer, TimerManager.withList, goodRemoval, Heap.deref_some hct, hct',
        head?_cons, bind,
        Except.bind, pure, Except.pure, beq_self_eq_true, Bool.not_true, Bool.false_eq_true,
        if_false, Heap.deref_some hc, Heap.setNext_some hct, Option.isSome_some, if_true, htail]
      rw [if_neg (hfirst ▸ hnf), hfirst, ← getLast?_append]
    · rw [← hfirst]
      exact chain_unlink hl.chain hc hl.nodup

theorem link_listed {t : Addr} (hl : Listed m (l1 ++ t :: l2))
    (ha : a ∉ l1 ++ t :: l2) (hc : m.heap.cell a = some c) :
    ∃ heap heap', SameTimers m.heap heap' ∧ heap'.made = m.heap.made ∧
      m.heap.setNext (some a) l2.head? = .ok heap ∧ heap.setNext (some t) (some a) = .ok heap' ∧
      Chain heap' m.timerList (l1 ++ t :: a :: l2) none := by
  have hta : t ≠ a := fun e => ha (by simp [e])
  obtain ⟨ct, hct⟩ := hl.chain.cell (a := t) (by simp)
  set heap := m.heap.put a (some { c with next := l2.head? }) with hheap
  have hct' : heap.cell t = some ct := by rw [m.heap.cell_put_of_ne hta, hct]
  have hchain : Chain heap m.timerList (l1 ++ t :: l2) none := by
    refine hl.chain.congr fun b hb => ?_
    rw [m.heap.cell_put_of_ne fun e : b = a => ha (e ▸ hb)]
  refine ⟨heap, _, (SameTimers.put hc _).trans (.put hct' (some a)), rfl,
    Heap.setNext_some hc _, Heap.setNext_some hct' _, ?_⟩
  exact chain_link hchain (m.heap.cell_put_self a _) hl.nodup ha rfl

/-- **`InsertTimer`** puts a timer in front of the first timer that is due later. -/
theorem insertTimer_listed (hl : Listed m l) (ha : a ∉ l) (hc : m.heap.cell a = some c)
    (hsorted : l.Pairwise fun b d => whenAt m.heap b ≤ whenAt m.heap d)
    (hnever : ∀ b ∈ l, whenAt m.heap b ≤ timeTNever) :
    ∃ heap l1 l2, l = l1 ++ l2 ∧ SameTimers m.heap heap ∧ heap.made = m.heap.made ∧
      insertTimer m a = .ok (m.withList heap (l1 ++ a :: l2)) ∧
      Chain heap (l1 ++ a :: l2).head? (l1 ++ a :: l2) none ∧
      (∀ b ∈ l1, whenAt m.heap b ≤ c.val.when) ∧ ∀ b ∈ l2, c.val.when < whenAt m.heap b := by
  have hfirst := hl.timerList
  cases l with
  | nil =>
    refine ⟨_, [], [], rfl, .put hc none, rfl, ?_, ⟨rfl, _, m.heap.cell_put_self a _, rfl⟩,
      by simp, by simp⟩
    rw [head?_nil] at hfirst
    simp [hfirst, Heap.setNext_some hc]
  | cons f l =>
    rw [head?_cons] at hfirst
    obtain ⟨cf, hcf⟩ := hl.chain.cell (a := f) (by simp)
    have hwf := whenAt_of_cell hcf
    by_cases h1 : c.val.when < cf.val.when
    · -- the new first timer
      refine ⟨_, [], f :: l, rfl, .put hc (some f), rfl, ?_, ⟨rfl, _, m.heap.cell_put_self a _, ?_⟩,
        by simp, ?_⟩
      · have htail : (a :: f :: l).getLast? = m.listTail := by
          rw [hl.tail, getLast?_cons_cons]
        simp [hfirst, Heap.deref_some hc, Heap.deref_some hcf, h1, Heap.setNext_some hc, htail]
      · rw [← hfirst]
        refine hl.chain.congr fun b hb => ?_
        rw [m.heap.cell_put_of_ne fun e : b = a => ha (e ▸ hb)]
      · intro b hb
        rcases mem_cons.mp hb with rfl | hb
        · omega
        · have := rel_of_pairwise_cons hsorted hb
          omega
    by_cases h2 : c.val.when = timeTNever
    · -- behind the last timer
      obtain ⟨k, t, hk⟩ := (eq_nil_or_concat (f :: l)).resolve_left (cons_ne_nil f l)
      rw [concat_eq_append] at hk
      rw [hk] at hl ha hnever ⊢
      obtain ⟨heap, heap', hsame, hmade, hset, hset', hchain⟩ := link_listed hl ha hc
      have htail : m.listTail = some t := by rw [hl.tail]; simp
      have hhead : (k ++ [t] ++ [a]).head? = some f := by
        rw [← hk]; rfl
      refine ⟨heap', k ++ [t], [], by simp, hsame, hmade, ?_, ?_, ?_, by simp⟩
      · rw [head?_nil] at hset
        have h1' : ¬ timeTNever < cf.val.when := h2 ▸ h1
        rw [TimerManager.withList, hhead]
        simp [hfirst, Heap.deref_some hc, Heap.deref_some hcf, h1', h2, hset, htail, hset']
      · rw [hhead, ← hfirst]
        simpa using hchain
      · intro b hb
        rw [h2]
        exact hnever b hb
    · -- in front of the first timer that is due later
      set q := fun b => !m.heap.meets (fun v => decide (c.val.when < v.when)) b with hq
      have hqf : q f = true := by simpa [hq, hcf] using h1
      have hseek : seek m.heap (fun v => decide (c.val.when < v.when)) _ _ _ = _ :=
        seek_chain hl.chain (Nat.lt_succ_of_le hl.made) none
      obtain ⟨k, t, hk⟩ := (eq_nil_or_concat ((f :: l).takeWhile q)).resolve_left
        (by rw [takeWhile_cons_of_pos hqf]; exact cons_ne_nil _ _)
      rw [concat_eq_append] at hk
      have hsplit : f :: l = k ++ t :: (f :: l).dropWhile q := by
        conv_lhs => rw [← takeWhile_append_dropWhile (l := f :: l), hk]
        simp
      have hbefore : ∀ b ∈ k ++ [t], q b = true := fun b hb =>
        mem_takeWhile_imp (hk ▸ hb)
      have hstop := head?_dropWhile_not q (f :: l)
      rw [hk] at hseek
      generalize (f :: l).dropWhile q = l2 at hsplit hseek hstop
      rw [hsplit] at hl ha hsorted ⊢
      obtain ⟨heap, heap', hsame, hmade, hset, hset', hchain⟩ := link_listed hl ha hc
      have hhead : (k ++ [t] ++ a :: l2).head? = some f := by
        cases k <;> simp_all
      have htail : (if some t = m.listTail then some a else m.listTail) =
          (k ++ [t] ++ a :: l2).getLast? := by
        rw [hl.tail]
        simp only [eq_getLast?_iff hl.nodup]
        cases l2 with
        | nil => simp
        | cons b l2 => simp
      refine ⟨heap', k ++ [t], l2, by simp, hsame, hmade, ?_, ?_, ?_, ?_⟩
      · rw [hfirst] at hseek
        rw [TimerManager.withList, hhead, ← htail]
        simp [hfirst, Heap.deref_some hc, Heap.deref_some hcf, h1, h2, hseek, hset, hset']
      · rw [hhead, ← hfirst]
        simpa using hchain
      · intro b hb
        obtain ⟨d, hd⟩ := hl.chain.cell (by simp at hb ⊢; tauto)
        have := hbefore b hb
        rw [whenAt_of_cell hd]
        simpa [hq, hd] using this
      · intro b hb
        cases l2 with
        | nil => simp at hb
        | cons d l2 =>
          obtain ⟨cd, hd⟩ := hl.chain.cell (a := d) (by simp)
          have hlt : c.val.when < whenAt m.heap d := by
            rw [whenAt_of_cell hd]
            simpa [hq, hd] using hstop
          have hrest := pairwise_append.mp hsorted
          have hle : ∀ x ∈ l2, whenAt m.heap d ≤ whenAt m.heap x := fun x hx =>
            rel_of_pairwise_cons (pairwise_cons.mp hrest.2.1).2 hx
          rcases mem_cons.mp hb with rfl | hb
          · exact hlt
          · exact Int.lt_of_lt_of_le hlt (hle b hb)

end Condor.Timers
