import Condor.Timers.List
import Mathlib.Data.List.Perm.Basic

/-!
# Timers under re-entrancy

In every state of daemon core, inside handlers too, the timer list is sorted, ends at `list_tail`
and holds every live timer once, and no step follows a pointer to a deleted timer, as long as no
call asks for a time past `TIME_T_NEVER`.

* **`run_listGood`**.
-/

namespace Condor.Timers

open Linked List Option

variable {history : List Event} {toNextRun : UInt32} {t t' : Timer} {e : Event} {r : Reset}
  {c : Cell Timer} {m m' : TimerManager} {i now : ℤ} {h h' : Heap Timer} {a : Addr}
  {l l' l1 l2 : List Addr} {x : Machine}

attribute [local simp] TimerManager.withList step Except.pure Except.bind pure bind

def idAt (h : Heap Timer) (a : Addr) : ℤ := (h.cell a).elim 0 fun c => c.val.id

/-- Distinct timers in the order in which they are due, those that are never due last. -/
structure Ordered (h : Heap Timer) (l : List Addr) : Prop where
  sorted : l.Pairwise fun a b => whenAt h a ≤ whenAt h b
  never : ∀ a ∈ l, whenAt h a ≤ timeTNever
  distinct : l.Pairwise fun a b => idAt h a ≠ idAt h b

/-- The timer was created, and it has neither been cancelled nor expired. -/
def Live (history : List Event) (id : ℤ) : Prop :=
  .created id ∈ history ∧ .cancelled id ∉ history ∧ .expired id ∉ history

def Event.id : Event → ℤ
  | .created i | .cancelled i | .expired i => i

theorem idAt_of_cell (hc : h.cell a = some c) : idAt h a = c.val.id := by
  simp [idAt, hc]

theorem Ordered.congr (ho : Ordered h l)
    (heq : ∀ a ∈ l, (h'.cell a).map Cell.val = (h.cell a).map Cell.val) : Ordered h' l := by
  have hwhen : ∀ a ∈ l, whenAt h' a = whenAt h a := by
    intro a ha
    have := heq a ha
    unfold whenAt
    cases h1 : h.cell a <;> cases h2 : h'.cell a <;> simp_all
  have hid : ∀ a ∈ l, idAt h' a = idAt h a := by
    intro a ha
    have := heq a ha
    unfold idAt
    cases h1 : h.cell a <;> cases h2 : h'.cell a <;> simp_all
  refine ⟨ho.sorted.imp_of_mem fun ha hb hr => ?_, fun a ha => ?_,
    ho.distinct.imp_of_mem fun ha hb hr => ?_⟩
  · rw [hwhen _ ha, hwhen _ hb]; exact hr
  · rw [hwhen a ha]; exact ho.never a ha
  · rw [hid _ ha, hid _ hb]; exact hr

theorem Ordered.sublist (ho : Ordered h l) (hs : l'.Sublist l) : Ordered h l' :=
  ⟨ho.sorted.sublist hs, fun a ha => ho.never a (hs.subset ha), ho.distinct.sublist hs⟩

theorem SameTimers.idAt (hs : SameTimers h h') (a : Addr) : idAt h' a = idAt h a := by
  have h1 := hs a
  unfold Timers.idAt
  cases h2 : h.cell a <;> cases h3 : h'.cell a <;> simp_all

theorem removeTimer_ordered (hl : Listed m (l1 ++ a :: l2)) (ho : Ordered m.heap (l1 ++ l2)) :
    ∃ heap, SameTimers m.heap heap ∧ heap.made = m.heap.made ∧
      removeTimer m a l1.getLast? = .ok (m.withList heap (l1 ++ l2)) ∧
      Listed (m.withList heap (l1 ++ l2)) (l1 ++ l2) ∧ Ordered heap (l1 ++ l2) := by
  obtain ⟨heap, hsame, hmade, hrun, hchain⟩ := removeTimer_listed hl
  have hsub := (sublist_cons_self a l2).append_left l1
  refine ⟨heap, hsame, hmade, hrun, ⟨hchain, hl.nodup.sublist hsub, rfl, ?_⟩,
    ho.congr fun b _ => hsame b⟩
  exact hsub.length_le.trans (hmade ▸ hl.made)

theorem insertTimer_ordered (hl : Listed m l) (ho : Ordered m.heap l)
    (hlen : l.length < m.heap.made) (ha : a ∉ l) (hc : m.heap.cell a = some c)
    (hnever : c.val.when ≤ timeTNever) (hid : ∀ b ∈ l, idAt m.heap b ≠ c.val.id) :
    ∃ heap l', l'.Perm (a :: l) ∧ SameTimers m.heap heap ∧ heap.made = m.heap.made ∧
      insertTimer m a = .ok (m.withList heap l') ∧
      Listed (m.withList heap l') l' ∧ Ordered heap l' := by
  obtain ⟨heap, l1, l2, rfl, hsame, hmade, hrun, hchain, hbefore, hbehind⟩ :=
    insertTimer_listed hl ha hc ho.sorted ho.never
  have hperm : (l1 ++ a :: l2).Perm (a :: (l1 ++ l2)) := perm_middle
  have hsorted := pairwise_append.mp ho.sorted
  have hdist := pairwise_append.mp ho.distinct
  have hw := whenAt_of_cell hc
  have hi := idAt_of_cell hc
  refine ⟨heap, _, hperm, hsame, hmade, hrun, ⟨hchain, ?_, rfl, ?_⟩, ?_⟩
  · exact hperm.nodup_iff.mpr (nodup_cons.mpr ⟨ha, hl.nodup⟩)
  · rw [hperm.length_eq]
    exact hmade ▸ hlen
  · refine Ordered.congr ⟨?_, ?_, ?_⟩ fun b _ => hsame b
    · refine pairwise_append.mpr ⟨hsorted.1, pairwise_cons.mpr ⟨fun b hb => ?_,
        hsorted.2.1⟩, fun b hb d hd => ?_⟩
      · rw [hw]
        exact Int.le_of_lt (hbehind b hb)
      · rcases mem_cons.mp hd with rfl | hd
        · rw [hw]; exact hbefore b hb
        · exact hsorted.2.2 b hb d hd
    · intro b hb
      rcases mem_cons.mp (hperm.subset hb) with rfl | hb
      · rw [hw]; exact hnever
      · exact ho.never b hb
    · refine pairwise_append.mpr ⟨hdist.1, pairwise_cons.mpr ⟨fun b hb => ?_,
        hdist.2.1⟩, fun b hb d hd => ?_⟩
      · rw [hi]
        exact (hid b (mem_append_right l1 hb)).symm
      · rcases mem_cons.mp hd with rfl | hd
        · rw [hi]; exact hid b (mem_append_left l2 hb)
        · exact hdist.2.2 b hb d hd

/-! ## The invariant -/

/-- The invariant of the manager outside `Timeout`'s own pointer: an ordered list of exactly the
live timers, and numbers that have not been used. -/
structure Agenda (m : TimerManager) (l : List Addr) : Prop where
  listed : Listed m l
  ordered : Ordered m.heap l
  live : ∀ id, (∃ a ∈ l, idAt m.heap a = id) ↔ Live m.history id
  used : ∀ a c, m.heap.cell a = some c → c.val.id < m.timerIds
  past : ∀ e ∈ m.history, e.id < m.timerIds
  ids : 0 ≤ m.timerIds ∧ m.timerIds ≤ intMax

/-- The pointer that `Timeout` holds while a handler runs: the timer is in use, and it is in the
list unless it was cancelled. -/
def Held (m : TimerManager) (l : List Addr) : Prop :=
  ∀ a, m.inTimeout = some a → (∃ c, m.heap.cell a = some c) ∧ (a ∈ l ↔ m.didCancel = false)

/-- **The invariant.** -/
def WellFormed (x : Machine) : Prop :=
  (x.frame.isSome = x.manager.inTimeout.isSome) ∧ ∃ l, Agenda x.manager l ∧ Held x.manager l

theorem Agenda.keep (hA : Agenda m l) (hh : m'.heap = m.heap)
    (hf : m'.timerList = m.timerList) (ht : m'.listTail = m.listTail)
    (hi : m'.timerIds = m.timerIds) (hy : m'.history = m.history) : Agenda m' l := by
  refine ⟨⟨?_, hA.listed.nodup, ?_, ?_⟩, ?_, ?_, ?_, ?_, ?_⟩
  · rw [hh, hf]; exact hA.listed.chain
  · rw [ht]; exact hA.listed.tail
  · rw [hh]; exact hA.listed.made
  · rw [hh]; exact hA.ordered
  · rw [hh, hy]; exact hA.live
  · rw [hh, hi]; exact hA.used
  · rw [hi, hy]; exact hA.past
  · rw [hi]; exact hA.ids

/-! ## Histories -/

theorem live_created (hpast : ∀ e ∈ history, e.id < i) (id : ℤ) :
    Live (history ++ [.created i]) id ↔ Live history id ∨ id = i := by
  have hnew : ∀ e ∈ history, e.id ≠ i := fun e he => Int.ne_of_lt (hpast e he)
  simp only [Live, mem_append, mem_singleton, Event.created.injEq, reduceCtorEq, or_false]
  constructor
  · rintro ⟨hc | rfl, hrest⟩
    · exact .inl ⟨hc, hrest⟩
    · exact .inr rfl
  · rintro (⟨hc, hrest⟩ | rfl)
    · exact ⟨.inl hc, hrest⟩
    · exact ⟨.inr rfl, fun he => hnew _ he rfl, fun he => hnew _ he rfl⟩

theorem live_ended (he : e = .cancelled i ∨ e = .expired i) (id : ℤ) :
    Live (history ++ [e]) id ↔ Live history id ∧ id ≠ i := by
  rcases he with rfl | rfl <;>
    simp only [Live, mem_append, mem_singleton, Event.cancelled.injEq, Event.expired.injEq] <;>
      tauto

/-! ## What the operations do to the agenda -/

/-- The same cells are in use, for timers of the same numbers. -/
def SameIds (h h' : Heap Timer) : Prop :=
  ∀ a, (h'.cell a).map (fun c => c.val.id) = (h.cell a).map fun c => c.val.id

theorem SameTimers.sameIds (hs : SameTimers h h') : SameIds h h' := by
  intro a
  have := congrArg (Option.map Timer.id) (hs a)
  simpa [Function.comp_def] using this

theorem SameIds.trans {h'' : Heap Timer} (h1 : SameIds h h') (h2 : SameIds h' h'') :
    SameIds h h'' := fun a => (h2 a).trans (h1 a)

theorem SameIds.put (hc : h.cell a = some c)
    (ht : t.id = c.val.id) : SameIds h (h.put a (some { c with val := t })) := by
  intro b
  by_cases hb : b = a
  · subst hb
    simp [hc, ht]
  · rw [h.cell_put_of_ne hb]

theorem SameIds.idAt (hs : SameIds h h') (a : Addr) : idAt h' a = idAt h a := by
  have h1 := hs a
  unfold Timers.idAt
  cases h2 : h.cell a <;> cases h3 : h'.cell a <;> simp_all

theorem SameIds.cell (hs : SameIds h h') (hc : h'.cell a = some c) :
    ∃ d, h.cell a = some d ∧ d.val.id = c.val.id := by
  have h1 := (hs a).symm
  rw [hc, map_some, map_eq_some_iff] at h1
  exact h1

theorem SameIds.symm (hs : SameIds h h') : SameIds h' h := fun a => (hs a).symm

def valAt (h : Heap Timer) (a : Addr) : Option Timer := (h.cell a).map Cell.val

def Shows (h : Heap Timer) (l : List Addr) (t : Timer) : Prop := ∃ a ∈ l, valAt h a = some t

/-- What no step changes: `timer_ids` counts the timers that were made, and the limit on the calls
of handlers. -/
structure Steady (m m' : TimerManager) : Prop where
  made : m'.timerIds - m'.heap.made = m.timerIds - m.heap.made
  max : m'.maxTimerEventsPerCycle = m.maxTimerEventsPerCycle

theorem Steady.trans {m1 m2 m3 : TimerManager} (h1 : Steady m1 m2) (h2 : Steady m2 m3) :
    Steady m1 m3 := ⟨h2.made.trans h1.made, h2.max.trans h1.max⟩

/-- What an operation changes: at most the timer with the number `i`. -/
structure Change (i : ℤ) (m : TimerManager) (l : List Addr) (m' : TimerManager)
    (l' : List Addr) : Prop extends Steady m m' where
  kept : ∀ t, t.id ≠ i → (Shows m'.heap l' t ↔ Shows m.heap l t)
  ids : m.timerIds ≤ m'.timerIds

/-- What a call changes: the running timer keeps its number, too. -/
structure CallChange (i : ℤ) (m : TimerManager) (l : List Addr) (m' : TimerManager)
    (l' : List Addr) : Prop extends Change i m l m' l' where
  inTimeout : m'.inTimeout = m.inTimeout
  running : ∀ a, m.inTimeout = some a → idAt m'.heap a = idAt m.heap a

theorem Change.refl (i : ℤ) (m : TimerManager) (l : List Addr) : Change i m l m l :=
  ⟨⟨rfl, rfl⟩, fun _ _ => .rfl, Int.le_refl _⟩

theorem CallChange.refl (i : ℤ) (m : TimerManager) (l : List Addr) : CallChange i m l m l :=
  ⟨.refl i m l, rfl, fun _ _ => rfl⟩

theorem shows_of_ne (hmem : ∀ b, b ≠ a → (b ∈ l' ↔ b ∈ l))
    (hval : ∀ b, b ≠ a → valAt h' b = valAt h b) (hold : a ∈ l → ∀ t, valAt h a = some t → t.id = i)
    (hnew : a ∈ l' → ∀ t, valAt h' a = some t → t.id = i) (ht : t.id ≠ i) :
    Shows h' l' t ↔ Shows h l t := by
  constructor
  · rintro ⟨b, hb, hv⟩
    have hba : b ≠ a := by
      rintro rfl
      exact ht (hnew hb t hv)
    exact ⟨b, (hmem b hba).mp hb, (hval b hba).symm.trans hv⟩
  · rintro ⟨b, hb, hv⟩
    have hba : b ≠ a := by
      rintro rfl
      exact ht (hold hb t hv)
    exact ⟨b, (hmem b hba).mpr hb, (hval b hba).trans hv⟩

theorem valAt_of_cell (hc : h.cell a = some c) : valAt h a = some c.val := by
  simp [valAt, hc]

theorem idAt_of_valAt (ht : valAt h a = some t) : idAt h a = t.id := by
  obtain ⟨c, hc, rfl⟩ := map_eq_some_iff.mp ht
  exact idAt_of_cell hc

theorem Agenda.move (hA : Agenda m l) (hl : Listed m' l')
    (ho : Ordered m'.heap l') (hp : l'.Perm l) (hs : SameIds m.heap m'.heap)
    (hh : m'.history = m.history) (ht : m'.timerIds = m.timerIds) : Agenda m' l' := by
  refine ⟨hl, ho, fun id => ?_, fun a c hc => ?_, ?_, ?_⟩
  · rw [hh, ← hA.live id]
    simp [hs.idAt, hp.mem_iff]
  · obtain ⟨d, hd, he⟩ := hs.cell hc
    rw [ht, ← he]
    exact hA.used a d hd
  · rw [hh, ht]
    exact hA.past
  · rw [ht]
    exact hA.ids

theorem Held.move (hH : Held m l) (hp : l'.Perm l)
    (hs : SameIds m.heap m'.heap) (hi : m'.inTimeout = m.inTimeout)
    (hd : m'.didCancel = m.didCancel) : Held m' l' := by
  intro a ha
  obtain ⟨⟨c, hc⟩, hmem⟩ := hH a (hi ▸ ha)
  obtain ⟨d, hd', -⟩ := hs.symm.cell hc
  exact ⟨⟨d, hd'⟩, by rw [hp.mem_iff, hd]; exact hmem⟩

theorem Agenda.remove (hA : Agenda m (l1 ++ a :: l2))
    (he : e = .cancelled (idAt m.heap a) ∨ e = .expired (idAt m.heap a)) :
    ∃ heap, SameTimers m.heap heap ∧ heap.made = m.heap.made ∧
      removeTimer m a l1.getLast? = .ok (m.withList heap (l1 ++ l2)) ∧
      Agenda { m.withList heap (l1 ++ l2) with history := m.history ++ [e] } (l1 ++ l2) := by
  have hsub := (sublist_cons_self a l2).append_left l1
  obtain ⟨heap, hsame, hmade, hrun, hlisted, hord⟩ :=
    removeTimer_ordered hA.listed (hA.ordered.sublist hsub)
  obtain ⟨c, hc⟩ := hA.listed.chain.cell (a := a) (by simp)
  have hperm : (l1 ++ a :: l2).Perm (a :: (l1 ++ l2)) := perm_middle
  have hdist : ∀ b ∈ l1 ++ l2, idAt m.heap a ≠ idAt m.heap b := by
    have := hperm.pairwise hA.ordered.distinct fun h => h.symm
    exact fun b hb => rel_of_pairwise_cons this hb
  refine ⟨heap, hsame, hmade, hrun, ⟨hlisted.chain, hlisted.nodup, rfl, hlisted.made⟩, hord,
    fun id => ?_, fun b d hd => ?_, fun f hf => ?_, hA.ids⟩
  · rw [live_ended he, ← hA.live id]
    simp only [TimerManager.withList, hsame.idAt]
    constructor
    · rintro ⟨b, hb, rfl⟩
      exact ⟨⟨b, hsub.subset hb, rfl⟩, (hdist b hb).symm⟩
    · rintro ⟨⟨b, hb, rfl⟩, hne⟩
      rcases mem_cons.mp (hperm.subset hb) with rfl | hb
      · exact absurd rfl hne
      · exact ⟨b, hb, rfl⟩
  · obtain ⟨d', hd', he'⟩ := hsame.sameIds.cell hd
    rw [← he']
    exact hA.used b d' hd'
  · rcases mem_append.mp hf with hf | hf
    · exact hA.past f hf
    · rw [mem_singleton.mp hf]
      have := hA.used a c hc
      rw [← idAt_of_cell hc] at this
      rcases he with rfl | rfl <;> exact this

theorem Agenda.delete (hA : Agenda m l) (ha : a ∉ l) (hc : m.heap.cell a = some c) :
    deleteTimer m a = .ok { m with heap := m.heap.put a none } ∧
      Agenda { m with heap := m.heap.put a none } l := by
  have hcell : ∀ b ∈ l, (m.heap.put a none).cell b = m.heap.cell b := fun b hb =>
    m.heap.cell_put_of_ne (fun e : b = a => ha (e ▸ hb)) none
  refine ⟨by simp [deleteTimer, Heap.free_some hc],
    ⟨hA.listed.chain.congr fun b hb => by rw [hcell b hb], hA.listed.nodup, hA.listed.tail,
      hA.listed.made⟩, hA.ordered.congr fun b hb => by rw [hcell b hb], fun id => ?_,
    fun b d hd => ?_, hA.past, hA.ids⟩
  · rw [← hA.live id]
    refine exists_congr fun b => and_congr_right fun hb => ?_
    simp [idAt, hcell b hb]
  · by_cases hb : b = a
    · rw [hb, m.heap.cell_put_self] at hd
      cases hd
    · rw [m.heap.cell_put_of_ne hb] at hd
      exact hA.used b d hd

/-! ## The calls -/

theorem agenda_newTimer {addr : Addr} {deltawhen period : UInt32} {timeslice : Option UInt32}
    (hA : Agenda m l) (hH : Held m l) (haddr : m.heap.cell addr = none)
    (hdue : dueAfter (timeslice.getD deltawhen) now ≤ timeTNever) (hids : m.timerIds < intMax) :
    ∃ m' l', newTimer m addr deltawhen period timeslice now = .ok (m', m.timerIds) ∧
      CallChange m.timerIds m l m' l' ∧ Agenda m' l' ∧ Held m' l' := by
  set t : Timer := ⟨dueAfter (timeslice.getD deltawhen) now, now, period, m.timerIds,
    timeslice.isSome⟩ with ht
  set m1 : TimerManager := { m with
    heap := m.heap.alloc addr t
    timerIds := toInt (m.timerIds + 1)
    history := m.history ++ [.created t.id] } with hm1
  have hused : ∀ b c, m.heap.cell b = some c → b ≠ addr := by
    rintro b c hc rfl
    rw [haddr] at hc
    cases hc
  have hcell : ∀ b, b ≠ addr → m1.heap.cell b = m.heap.cell b := fun b hb =>
    m.heap.cell_alloc_of_ne hb t
  have hne : ∀ b ∈ l, b ≠ addr := fun b hb =>
    have ⟨c, hc⟩ := hA.listed.chain.cell hb
    hused b c hc
  have hself : m1.heap.cell addr = some ⟨t, none⟩ := m.heap.cell_alloc_self addr t
  have hnum : toInt (m.timerIds + 1) = m.timerIds + 1 := by
    have := hA.ids
    unfold toInt intMax at *
    rw [Int.bmod_eq_of_le] <;> omega
  have hidAt : ∀ b ∈ l, idAt m1.heap b = idAt m.heap b := fun b hb => by
    simp [idAt, hcell b (hne b hb)]
  have hlt : ∀ b ∈ l, idAt m.heap b < m.timerIds := fun b hb => by
    obtain ⟨c, hc⟩ := hA.listed.chain.cell hb
    rw [idAt_of_cell hc]
    exact hA.used b c hc
  have hlisted : Listed m1 l := by
    refine ⟨hA.listed.chain.congr fun b hb => by rw [hcell b (hne b hb)], hA.listed.nodup,
      hA.listed.tail, ?_⟩
    exact hA.listed.made.trans (Nat.le_succ _)
  obtain ⟨heap, l', hperm, hsame, hmade, hrun, hlisted', hord⟩ := insertTimer_ordered hlisted
    (hA.ordered.congr fun b hb => by rw [hcell b (hne b hb)]) (Nat.lt_succ_of_le hA.listed.made)
    (fun hb => hne addr hb rfl) hself hdue fun b hb => by
      rw [hidAt b hb]
      exact Int.ne_of_lt (hlt b hb)
  refine ⟨m1.withList heap l', l', ?_, ⟨⟨⟨?_, rfl⟩, fun t' ht' => ?_, ?_⟩, rfl, fun b hb => ?_⟩,
    ⟨hlisted', hord, fun id => ?_, fun b c hc => ?_, fun e he => ?_, ?_⟩, fun b hb => ?_⟩
  · rw [newTimer, hrun]
    rfl
  · have hmade' : (m1.withList heap l').heap.made = m.heap.made + 1 := hmade
    have hids' : (m1.withList heap l').timerIds = m.timerIds + 1 := hnum
    omega
  · refine shows_of_ne (fun b hb => ?_) (fun b hb => ?_)
      (fun hb => absurd rfl (hne addr hb)) (fun _ t'' ht'' => ?_) ht'
    · rw [hperm.mem_iff, mem_cons, or_iff_right hb]
    · exact (hsame b).trans (by rw [hcell b hb, valAt])
    · have := (hsame addr).symm.trans ht''
      rw [hself] at this
      cases this
      rfl
  · have hids' : (m1.withList heap l').timerIds = m.timerIds + 1 := hnum
    omega
  · obtain ⟨⟨c, hc⟩, -⟩ := hH b hb
    exact (hsame.idAt b).trans (by simp [idAt, hcell b (hused b c hc)])
  · change _ ↔ Live (m.history ++ [.created m.timerIds]) id
    rw [live_created hA.past, ← hA.live id]
    simp only [TimerManager.withList, hsame.idAt, hperm.mem_iff, mem_cons]
    constructor
    · rintro ⟨b, rfl | hb, rfl⟩
      · exact .inr (idAt_of_cell hself)
      · exact .inl ⟨b, hb, (hidAt b hb).symm⟩
    · rintro (⟨b, hb, rfl⟩ | rfl)
      · exact ⟨b, .inr hb, hidAt b hb⟩
      · exact ⟨addr, .inl rfl, idAt_of_cell hself⟩
  · change c.val.id < toInt (m.timerIds + 1)
    rw [hnum]
    obtain ⟨d, hd, he⟩ := hsame.sameIds.cell hc
    by_cases hb : b = addr
    · rw [hb, hself] at hd
      cases hd
      rw [← he]
      exact Int.lt_succ _
    · rw [hcell b hb] at hd
      have := hA.used b d hd
      omega
  · change e.id < toInt (m.timerIds + 1)
    rw [hnum]
    rcases mem_append.mp he with he | he
    · have := hA.past e he
      omega
    · rw [mem_singleton.mp he]
      exact Int.lt_succ _
  · change 0 ≤ toInt (m.timerIds + 1) ∧ toInt (m.timerIds + 1) ≤ intMax
    have := hA.ids
    omega
  · obtain ⟨⟨c, hc⟩, hmem⟩ := hH b hb
    have hb' := hused b c hc
    obtain ⟨d, hd, -⟩ := hsame.sameIds.symm.cell ((hcell b hb').trans hc)
    refine ⟨⟨d, hd⟩, ?_⟩
    rw [hperm.mem_iff, mem_cons, or_iff_right hb']
    exact hmem

theorem resetValue_id (h : resetValue r t = some t') : t'.id = t.id := by
  unfold resetValue at h
  split at h
  · cases h; rfl
  · split at h
    · cases h
    · split at h
      · dsimp only at h
        split at h <;> cases h <;> rfl
      · cases h; rfl

theorem renewValue_id (h : renewValue t now toNextRun = some t') : t'.id = t.id := by
  unfold renewValue at h
  split at h
  · cases h; rfl
  · split at h
    · cases h; rfl
    · cases h

theorem Agenda.idAt_ne (hA : Agenda m (l1 ++ a :: l2)) :
    ∀ b ∈ l1 ++ l2, idAt m.heap b ≠ idAt m.heap a := by
  have := perm_middle.pairwise hA.ordered.distinct fun h => h.symm
  exact fun b hb => (rel_of_pairwise_cons this hb).symm

/-- A timer outside the list gets a new value and enters the list. -/
theorem setVal_insertTimer (hl : Listed m l) (ho : Ordered m.heap l)
    (hlen : l.length < m.heap.made) (ha : a ∉ l) (hc : m.heap.cell a = some c)
    (ht : t.id = c.val.id) (hnever : t.when ≤ timeTNever)
    (hid : ∀ b ∈ l, idAt m.heap b ≠ c.val.id) :
    ∃ h1 heap l', l'.Perm (a :: l) ∧ SameIds m.heap heap ∧
      (∀ b, b ≠ a → valAt heap b = valAt m.heap b) ∧ heap.made = m.heap.made ∧
      m.heap.setVal a t = .ok h1 ∧
      insertTimer { m with heap := h1 } a = .ok (m.withList heap l') ∧
      Listed (m.withList heap l') l' ∧ Ordered heap l' := by
  have hcell : ∀ b ∈ l, (m.heap.put a (some { c with val := t })).cell b = m.heap.cell b :=
    fun b hb => m.heap.cell_put_of_ne (fun e : b = a => ha (e ▸ hb)) _
  obtain ⟨heap, l', hperm, hsame, hmade, hrun, hlisted, hord⟩ :=
    insertTimer_ordered (m := { m with heap := m.heap.put a (some { c with val := t }) })
      ⟨hl.chain.congr fun b hb => by rw [hcell b hb], hl.nodup, hl.tail, hl.made⟩
      (ho.congr fun b hb => by rw [hcell b hb]) hlen ha (m.heap.cell_put_self a _) hnever
      fun b hb => by
        simp only [idAt, hcell b hb, ht]
        exact hid b hb
  refine ⟨_, heap, l', hperm, (SameIds.put hc ht).trans hsame.sameIds, fun b hb => ?_, hmade,
    Heap.setVal_some hc t, hrun, hlisted, hord⟩
  exact (hsame b).trans (congrArg _ (m.heap.cell_put_of_ne hb _))

/-- A timer is changed in place, taken out of the list and put in again. -/
theorem Agenda.relocate (hA : Agenda m (l1 ++ a :: l2))
    (hc : m.heap.cell a = some c) (ht : t.id = c.val.id) (hnever : t.when ≤ timeTNever) :
    ∃ h1 m1 heap l', l'.Perm (l1 ++ a :: l2) ∧ SameIds m.heap heap ∧
      (∀ b, b ≠ a → valAt heap b = valAt m.heap b) ∧ heap.made = m.heap.made ∧
      m.heap.setVal a t = .ok h1 ∧ removeTimer { m with heap := h1 } a l1.getLast? = .ok m1 ∧
      insertTimer m1 a = .ok (m.withList heap l') ∧
      Listed (m.withList heap l') l' ∧ Ordered heap l' := by
  set h1 := m.heap.put a (some { c with val := t }) with hh1
  have ha := nodup_cons.mp (nodup_middle.mp hA.listed.nodup)
  have hcell : ∀ b ∈ l1 ++ l2, h1.cell b = m.heap.cell b := fun b hb =>
    m.heap.cell_put_of_ne (fun e : b = a => ha.1 (e ▸ hb)) _
  have hids : SameIds m.heap h1 := .put hc ht
  have hlisted : Listed { m with heap := h1 } (l1 ++ a :: l2) := by
    refine ⟨hA.listed.chain.congr fun b _ => ?_, hA.listed.nodup, hA.listed.tail, hA.listed.made⟩
    by_cases hb : b = a
    · rw [hb, hc, m.heap.cell_put_self]; rfl
    · rw [m.heap.cell_put_of_ne hb]
  have hsub := (sublist_cons_self a l2).append_left l1
  obtain ⟨heap, hsame, hmade, hrem, hlisted', hord⟩ := removeTimer_ordered hlisted
    ((hA.ordered.sublist hsub).congr fun b hb => by rw [hcell b hb])
  obtain ⟨q, hq⟩ := hsame.cell (m.heap.cell_put_self a _)
  have hlen : (l1 ++ l2).length < heap.made := by
    have h1 := hA.listed.made
    have h2 : heap.made = m.heap.made := hmade
    simp only [length_append, length_cons] at h1 ⊢
    omega
  obtain ⟨heap', l', hperm, hsame', hmade', hins, hlisted'', hord'⟩ := insertTimer_ordered
    hlisted' hord hlen ha.1 hq hnever fun b hb => by
      change idAt heap b ≠ t.id
      rw [hsame.idAt, hids.idAt, ht, ← idAt_of_cell hc]
      exact hA.idAt_ne b hb
  refine ⟨h1, _, heap', l', hperm.trans perm_middle.symm,
    (hids.trans hsame.sameIds).trans hsame'.sameIds, fun b hb => ?_, hmade'.trans hmade,
    Heap.setVal_some hc t, hrem, hins, hlisted'', hord'⟩
  exact (hsame' b).trans ((hsame b).trans (congrArg _ (m.heap.cell_put_of_ne hb _)))

section

variable (hA : Agenda m l) (hH : Held m l)
include hA hH

/-- `ResetTimer`, for a time up to `TIME_T_NEVER`. -/
theorem agenda_resetTimer {id : ℤ}
    (hdue : ∀ a c t, m.heap.cell a = some c → c.val.id = id → resetValue r c.val = some t →
      t.when ≤ timeTNever) :
    ∃ m' l' res, resetTimer m id r = .ok (m', res) ∧ CallChange id m l m' l' ∧
      Agenda m' l' ∧ Held m' l' := by
  unfold resetTimer
  by_cases hlist : m.timerList.isNone = true
  · exact ⟨m, l, -1, by simp [hlist], .refl id m l, hA, hH⟩
  obtain ⟨l1, a, l2, c, rfl, hc, hid, hget⟩ | ⟨-, trail, hget⟩ := getTimer_cases hA.listed id
  swap
  · exact ⟨m, l, -1, by simp [hget], .refl id m l, hA, hH⟩
  cases hval : resetValue r c.val with
  | none =>
    exact ⟨m, _, 0, by simp [hlist, hget, Heap.deref_some hc, hval], .refl id m _, hA, hH⟩
  | some t =>
    obtain ⟨h1, m1, heap, l', hperm, hids, hvals, hmade, hset, hrem, hins, hlisted, hord⟩ :=
      hA.relocate hc (resetValue_id hval) (hdue a c t hc hid hval)
    refine ⟨{ m.withList heap l' with
      didReset := m.didReset || decide (m.inTimeout = some a) }, l', 0, ?_,
      ⟨⟨⟨congrArg (fun k : ℕ => m.timerIds - k) hmade, rfl⟩, fun t' ht' => ?_, Int.le_refl _⟩, rfl,
        fun b _ => hids.idAt b⟩,
      hA.move ⟨hlisted.chain, hlisted.nodup, hlisted.tail, hlisted.made⟩ hord hperm hids rfl rfl,
      hH.move hperm hids rfl rfl⟩
    · simp [hlist, hget, Heap.deref_some hc, hval, hset, hrem, hins]
    · refine shows_of_ne (fun b _ => hperm.mem_iff) hvals (fun _ t'' ht'' => ?_)
        (fun _ t'' ht'' => ?_) ht'
      · rw [← idAt_of_valAt ht'', idAt_of_cell hc, hid]
      · rw [← idAt_of_valAt ht'', ← hid, ← idAt_of_cell hc]
        exact hids.idAt a

/-- `CancelTimer`. The running timer stays in use for `Timeout`. -/
theorem agenda_cancelTimer (id : ℤ) :
    ∃ m' l' res, cancelTimer m id = .ok (m', res) ∧ CallChange id m l m' l' ∧
      Agenda m' l' ∧ Held m' l' := by
  unfold cancelTimer
  by_cases hlist : m.timerList.isNone = true
  · exact ⟨m, l, -1, by simp [hlist], .refl id m l, hA, hH⟩
  obtain ⟨l1, a, l2, c, rfl, hc, rfl, hget⟩ | ⟨-, trail, hget⟩ := getTimer_cases hA.listed id
  swap
  · exact ⟨m, l, -1, by simp [hget], .refl id m l, hA, hH⟩
  have ha := nodup_cons.mp (nodup_middle.mp hA.listed.nodup)
  obtain ⟨heap, hsame, hmade, hrem, hA'⟩ := hA.remove (.inl (congrArg _ (idAt_of_cell hc).symm))
  obtain ⟨q, hq⟩ := hsame.cell hc
  have hout : ∀ b, b ≠ a → (b ∈ l1 ++ l2 ↔ b ∈ l1 ++ a :: l2) := by
    intro b hb
    rw [perm_middle.mem_iff, mem_cons, or_iff_right hb]
  have hold : ∀ t, valAt m.heap a = some t → t.id = c.val.id := fun t ht => by
    rw [← idAt_of_valAt ht, idAt_of_cell hc]
  have hmade' : m.timerIds - (heap.made : ℤ) = m.timerIds - m.heap.made := by rw [hmade]
  by_cases hrun : m.inTimeout = some a
  · refine ⟨{ m.withList heap (l1 ++ l2) with
      history := m.history ++ [.cancelled c.val.id], didCancel := true }, l1 ++ l2, 0, ?_,
      ⟨⟨⟨hmade', rfl⟩, fun t ht => shows_of_ne hout (fun b _ => hsame b) (fun _ => hold)
        (fun hmem => absurd hmem ha.1) ht, Int.le_refl _⟩, rfl, fun b _ => hsame.idAt b⟩,
      hA'.keep rfl rfl rfl rfl rfl, fun b hb => ?_⟩
    · simp [hlist, hget, hrem, hrun]
    · cases hrun.symm.trans hb
      exact ⟨⟨_, hq⟩, by simpa using ha.1⟩
  · obtain ⟨hdel, hA''⟩ := hA'.delete ha.1 hq
    refine ⟨{ m.withList (heap.put a none) (l1 ++ l2) with
      history := m.history ++ [.cancelled c.val.id] }, l1 ++ l2, 0, ?_,
      ⟨⟨⟨hmade', rfl⟩, fun t ht => shows_of_ne hout (fun b hb => ?_) (fun _ => hold)
        (fun hmem => absurd hmem ha.1) ht, Int.le_refl _⟩, rfl, fun b hb => ?_⟩,
      hA'', fun b hb => ?_⟩
    · simp only [hlist, hget, hrem, TimerManager.withList, bind, Except.bind, pure, Except.pure,
        Bool.false_eq_true, if_false, hrun] at hdel ⊢
      rw [hdel]
    · exact (congrArg _ (heap.cell_put_of_ne hb none)).trans (hsame b)
    · have hba : b ≠ a := fun e => hrun (e ▸ hb)
      refine Eq.trans ?_ (hsame.idAt b)
      simp [idAt, heap.cell_put_of_ne hba]
    · obtain ⟨⟨d, hd⟩, hmem⟩ := hH b hb
      have hba : b ≠ a := fun e => hrun (e ▸ hb)
      obtain ⟨q', hq'⟩ := hsame.cell hd
      refine ⟨⟨_, (heap.cell_put_of_ne hba none).trans hq'⟩, ?_⟩
      rw [← or_iff_right (b := b ∈ l1 ++ l2) hba, ← mem_cons, ← perm_middle.mem_iff]
      exact hmem

/-! ## `Timeout` -/

/-- The timer that was served: it is deleted, or it has been put into its place by its handler, or
`Timeout` renews or expires it. -/
theorem agenda_settle (hrun : m.inTimeout = some a) (hc : m.heap.cell a = some c)
    (hdue : ∀ t, renewValue c.val now toNextRun = some t → t.when ≤ timeTNever) :
    ∃ m' l', settle m a now toNextRun = .ok m' ∧ Change c.val.id m l m' l' ∧ Agenda m' l' := by
  obtain ⟨-, hmem⟩ := hH a hrun
  have hold : ∀ t, valAt m.heap a = some t → t.id = c.val.id := fun t ht => by
    rw [← idAt_of_valAt ht, idAt_of_cell hc]
  simp only [settle, Heap.deref_some hc, bind, Except.bind]
  cases hcancel : m.didCancel with
  | true =>
    have ha : a ∉ l := by rw [hmem, hcancel]; decide
    obtain ⟨hdel, hA'⟩ := hA.delete ha hc
    refine ⟨{ m with heap := m.heap.put a none }, l, by simpa using hdel,
      ⟨⟨rfl, rfl⟩, fun t ht => ?_, Int.le_refl _⟩, hA'⟩
    exact shows_of_ne (fun _ _ => .rfl) (fun b hb => congrArg _ (m.heap.cell_put_of_ne hb none))
      (fun _ => hold) (fun h => absurd h ha) ht
  | false =>
    cases hreset : m.didReset with
    | true => exact ⟨m, l, by simp, .refl _ m l, hA⟩
    | false =>
      obtain ⟨l1, l2, rfl⟩ := append_of_mem (hmem.mpr hcancel)
      have ha := nodup_cons.mp (nodup_middle.mp hA.listed.nodup)
      have hget := getTimer_listed hA.listed hc fun b hb d hd => by
        rw [← idAt_of_cell hd, ← idAt_of_cell hc]
        exact hA.idAt_ne b (mem_append_left l2 hb)
      cases hval : renewValue c.val now toNextRun with
      | none =>
        obtain ⟨heap, hsame, hmade, hrem, hA'⟩ :=
          hA.remove (.inr (congrArg _ (idAt_of_cell hc).symm))
        obtain ⟨q, hq⟩ := hsame.cell hc
        obtain ⟨hdel, hA''⟩ := hA'.delete ha.1 hq
        refine ⟨{ m.withList (heap.put a none) (l1 ++ l2) with
          history := m.history ++ [.expired c.val.id] }, l1 ++ l2,
          by simpa [hget, hrem] using hdel, ⟨⟨congrArg (fun k : ℕ => m.timerIds - k) hmade, rfl⟩,
            fun t ht => ?_, Int.le_refl _⟩, hA''⟩
        refine shows_of_ne (fun b hb => ?_) (fun b hb => ?_) (fun _ => hold)
          (fun h => absurd h ha.1) ht
        · rw [perm_middle.mem_iff, mem_cons, or_iff_right hb]
        · exact (congrArg _ (heap.cell_put_of_ne hb none)).trans (hsame b)
      | some t =>
        have hsub := (sublist_cons_self a l2).append_left l1
        obtain ⟨heap, hsame, hmade, hrem, hlisted, hord⟩ :=
          removeTimer_ordered hA.listed (hA.ordered.sublist hsub)
        obtain ⟨q, hq⟩ := hsame.cell hc
        have hlen : (l1 ++ l2).length < heap.made := by
          have := hA.listed.made
          simp only [length_append, length_cons] at this ⊢
          omega
        obtain ⟨h1, heap', l', hperm, hids, hvals, hmade', hset, hins, hlisted', hord'⟩ :=
          setVal_insertTimer hlisted hord hlen ha.1 hq (renewValue_id hval) (hdue t hval)
            fun b hb => by
              change idAt heap b ≠ c.val.id
              rw [hsame.idAt, ← idAt_of_cell hc]
              exact hA.idAt_ne b hb
        have hperm' := hperm.trans perm_middle.symm
        refine ⟨m.withList heap' l', l', ?_,
          ⟨⟨congrArg (fun k : ℕ => m.timerIds - k) (hmade'.trans hmade), rfl⟩, fun t' ht' => ?_,
            Int.le_refl _⟩,
          hA.move hlisted' hord' hperm' (hsame.sameIds.trans hids) rfl rfl⟩
        · simp only [TimerManager.withList] at hset
          simp only [hget, hrem, hset, TimerManager.withList, bne_self_eq_false]
          exact hins
        · refine shows_of_ne (fun b _ => hperm'.mem_iff)
            (fun b hb => (hvals b hb).trans (hsame b)) (fun _ => hold) (fun _ t'' ht'' => ?_) ht'
          rw [← idAt_of_valAt ht'', ← idAt_of_cell hc, ← hsame.idAt]
          exact hids.idAt a

end

def isDue (h : Heap Timer) (now : ℤ) (a : Addr) : Bool := whenAt h a ≤ now

theorem collectReady_chain {p : Option Addr} (now : ℤ) {n : ℕ} (hl : Chain h p l none)
    (hn : l.length < n) (ready : List ℤ) : collectReady h now n p ready =
      .ok ((l.takeWhile (isDue h now)).foldl (fun r a => r.insert (idAt h a)) ready) := by
  induction l generalizing p n ready with
  | nil =>
    cases n with
    | zero => simp at hn
    | succ n => rw [hl.head]; rfl
  | cons b l ih =>
    cases n with
    | zero => simp at hn
    | succ n =>
      obtain ⟨rfl, c, hc, hl⟩ := hl
      simp only [collectReady, Heap.deref_some hc, bind, Except.bind]
      by_cases hdue : c.val.when ≤ now
      · have hb : isDue h now b = true := by simpa [isDue, whenAt_of_cell hc] using hdue
        rw [if_pos hdue, ih hl (by simpa using hn), takeWhile_cons_of_pos hb,
          foldl_cons, idAt_of_cell hc]
      · have hb : isDue h now b = false := by simpa [isDue, whenAt_of_cell hc] using hdue
        rw [if_neg hdue, takeWhile_cons_of_neg (by simp [hb]), foldl_nil]

/-- The loop over the timers that were not due at the start ends at the first timer that was, or
behind the due ones. -/
theorem skipAdded_chain (now : ℤ) (ready : List ℤ) {n : ℕ} (hl : Chain h (some a) (a :: l) none)
    (hn : (a :: l).length < n) : skipAdded h now ready n a =
      .ok (((a :: l.takeWhile (isDue h now)).find? fun b => decide (idAt h b ∈ ready)).map
        fun b => (b, ready.erase (idAt h b))) := by
  induction l generalizing a n with
  | nil =>
    cases n with
    | zero => simp at hn
    | succ n =>
      obtain ⟨-, c, hc, hl⟩ := hl
      have hnext : c.next = none := hl
      simp only [skipAdded, Heap.deref_some hc, hnext, bind, Except.bind]
      by_cases hr : c.val.id ∈ ready <;> simp [hr, idAt_of_cell hc]
  | cons b l ih =>
    cases n with
    | zero => simp at hn
    | succ n =>
      obtain ⟨-, c, hc, hl⟩ := hl
      have hnext : c.next = some b := hl.1
      obtain ⟨d, hd⟩ := hl.cell (a := b) (by simp)
      simp only [skipAdded, Heap.deref_some hc, hnext, Heap.deref_some hd, bind, Except.bind]
      by_cases hr : c.val.id ∈ ready
      · simp [hr, idAt_of_cell hc]
      · have hra : idAt h a ∉ ready := by rwa [idAt_of_cell hc]
        rw [if_neg hr, find?_cons_of_neg (by simpa using hra)]
        by_cases hdue : d.val.when ≤ now
        · have hb : isDue h now b = true := by simpa [isDue, whenAt_of_cell hd] using hdue
          rw [hnext] at hl
          rw [if_pos hdue, ih hl (by simpa using hn), takeWhile_cons_of_pos hb]
        · have hb : isDue h now b = false := by simpa [isDue, whenAt_of_cell hd] using hdue
          rw [if_neg hdue, takeWhile_cons_of_neg (by simp [hb])]
          rfl

theorem secondsToNext_listed (hl : Listed m l) (empty now : ℤ) :
    ∃ r, secondsToNext m empty now = .ok r := by
  unfold secondsToNext
  cases l with
  | nil =>
    have hfirst : m.timerList = none := hl.timerList
    exact ⟨empty, by simp [hfirst]⟩
  | cons f l =>
    have hfirst : m.timerList = some f := hl.timerList
    obtain ⟨c, hc⟩ := hl.chain.cell (a := f) (by simp)
    exact ⟨max 0 (toInt (c.val.when - now)), by
      simp [hfirst, Heap.deref_some hc]⟩

theorem finishTimeout_listed (hl : Listed m l) (after : ℤ) :
    ∃ r, finishTimeout m after = .ok (⟨{ m with inTimeout := none }, none⟩, some r) := by
  obtain ⟨r, hr⟩ := secondsToNext_listed hl (-1) after
  exact ⟨r, by simp [finishTimeout, hr]⟩

theorem wellFormed_finishTimeout (hA : Agenda m l) (after : ℤ) :
    ∃ x r, finishTimeout m after = .ok (x, r) ∧ WellFormed x ∧ Steady m x.manager := by
  obtain ⟨r, hr⟩ := finishTimeout_listed hA.listed after
  refine ⟨_, _, hr, ⟨rfl, l, hA.keep rfl rfl rfl rfl rfl, ?_⟩, rfl, rfl⟩
  intro a ha
  cases ha

theorem chooseTimer_listed (hl : Listed m (a :: l)) (f : Frame) :
    ∃ r, chooseTimer m f a = .ok r ∧ ∀ b w, r = some (b, w) → b ∈ a :: l := by
  unfold chooseTimer
  split
  · have hfirst : m.timerList = some a := hl.timerList
    refine ⟨_, skipAdded_chain f.now f.readyTimerIds (hfirst ▸ hl.chain)
      (Nat.lt_succ_of_le hl.made), fun b w hb => ?_⟩
    obtain ⟨d, hd, he⟩ := map_eq_some_iff.mp hb
    cases he
    rcases mem_cons.mp (mem_of_find?_eq_some hd) with rfl | hmem
    · exact mem_cons_self
    · exact mem_cons_of_mem _ ((takeWhile_sublist _).subset hmem)
  · exact ⟨_, rfl, by rintro b w ⟨⟩; simp⟩

/-- `Timeout` goes on to the next handler, or it returns. -/
theorem wellFormed_serve (hA : Agenda m l) (f : Frame) (after : ℤ) :
    ∃ x r, serve m f after = .ok (x, r) ∧ WellFormed x ∧ Steady m x.manager := by
  unfold serve
  cases l with
  | nil =>
    have hfirst : m.timerList = none := hA.listed.timerList
    simp only [hfirst]
    exact wellFormed_finishTimeout hA after
  | cons a l =>
    have hfirst : m.timerList = some a := hA.listed.timerList
    obtain ⟨c, hc⟩ := hA.listed.chain.cell (a := a) (by simp)
    simp only [hfirst, Heap.deref_some hc, bind, Except.bind]
    split
    · obtain ⟨r, hr, hmem⟩ := chooseTimer_listed hA.listed f
      simp only [hr]
      cases r with
      | none => exact wellFormed_finishTimeout hA after
      | some bw =>
        obtain ⟨b, w⟩ := bw
        have hb := hmem b w rfl
        refine ⟨_, _, rfl, ⟨rfl, a :: l, hA.keep rfl hfirst.symm rfl rfl rfl, fun d hd => ?_⟩, rfl,
          rfl⟩
        cases hd
        exact ⟨hA.listed.chain.cell hb, by simpa using hb⟩
    · exact wellFormed_finishTimeout hA after

/-! ## Runs -/

/-- No call asks for a time past `TIME_T_NEVER`, the allocator hands out unused memory, and the
numbers do not run out. -/
def Timely (x : Machine) : Call → Prop
  | .newTimer addr deltawhen _ timeslice now =>
    x.manager.heap.cell addr = none ∧ x.manager.timerIds < intMax ∧
      dueAfter (timeslice.getD deltawhen) now ≤ timeTNever
  | .resetTimer id r =>
    ∀ a c t, x.manager.heap.cell a = some c → c.val.id = id → resetValue r c.val = some t →
      t.when ≤ timeTNever
  | .cancelTimer _ => True
  | .timeout _ _ => True
  | .handlerReturns now toNextRun _ =>
    ∀ a c t, x.manager.inTimeout = some a → x.manager.heap.cell a = some c →
      renewValue c.val now toNextRun = some t → t.when ≤ timeTNever

def run (x : Machine) : List Call → Except Fault Machine
  | [] => .ok x
  | c :: cs => match step x c with
    | .error f => .error f
    | .ok (x, _) => run x cs

def TimelyRun (x : Machine) : List Call → Prop
  | [] => True
  | c :: cs => Timely x c ∧ match step x c with
    | .error _ => True
    | .ok (x, _) => TimelyRun x cs

theorem wellFormed_new (max : ℤ) : WellFormed ⟨.new max, none⟩ := by
  refine ⟨rfl, [], ⟨⟨rfl, nodup_nil, rfl, Nat.zero_le _⟩, ⟨.nil, by simp, .nil⟩, ?_, ?_, ?_,
    ?_⟩, fun a ha => by cases ha⟩
  · simp [TimerManager.new, Live]
  · intro a c hc
    cases hc
  · simp [TimerManager.new]
  · show (0 : ℤ) ≤ 0 ∧ (0 : ℤ) ≤ intMax
    decide

/-- **A step succeeds and keeps the invariant.** -/
theorem wellFormed_step {c : Call} (hx : WellFormed x) (hc : Timely x c) :
    ∃ x' r, step x c = .ok (x', r) ∧ WellFormed x' ∧ Steady x.manager x'.manager := by
  obtain ⟨hframe, l, hA, hH⟩ := hx
  cases c with
  | newTimer addr deltawhen period timeslice now =>
    obtain ⟨haddr, hids, hdue⟩ := hc
    obtain ⟨m', l', hrun : newTimer _ _ _ period _ _ = _, hch, hA', hH'⟩ :=
      agenda_newTimer hA hH haddr hdue hids
    refine ⟨{ x with manager := m' }, some x.manager.timerIds, ?_,
      ⟨hframe.trans (by rw [hch.inTimeout]), l', hA', hH'⟩, hch.toSteady⟩
    simp [hrun]
  | resetTimer id r =>
    obtain ⟨m', l', res, hrun, hch, hA', hH'⟩ := agenda_resetTimer hA hH hc
    refine ⟨{ x with manager := m' }, some res, ?_,
      ⟨hframe.trans (by rw [hch.inTimeout]), l', hA', hH'⟩, hch.toSteady⟩
    simp [hrun]
  | cancelTimer id =>
    obtain ⟨m', l', res, hrun, hch, hA', hH'⟩ := agenda_cancelTimer hA hH id
    refine ⟨{ x with manager := m' }, some res, ?_,
      ⟨hframe.trans (by rw [hch.inTimeout]), l', hA', hH'⟩, hch.toSteady⟩
    simp [hrun]
  | timeout now after =>
    simp only [step, timeout]
    by_cases hin : x.manager.inTimeout.isSome = true
    · obtain ⟨r, hr⟩ := secondsToNext_listed hA.listed 0 now
      exact ⟨x, some r, by simp [hin, hr], ⟨hframe, l, hA, hH⟩, rfl, rfl⟩
    · simp only [hin]
      by_cases hmax : x.manager.maxTimerEventsPerCycle = intMax
      · simp only [hmax, collectReady_chain now hA.listed.chain (Nat.lt_succ_of_le hA.listed.made)
          []]
        exact wellFormed_serve hA _ after
      · simp only [hmax]
        exact wellFormed_serve hA ⟨now, [], 0⟩ after
  | handlerReturns now toNextRun after =>
    simp only [step, handlerReturns]
    cases hf : x.frame with
    | none => exact ⟨x, none, rfl, ⟨hframe, l, hA, hH⟩, rfl, rfl⟩
    | some f =>
      cases hin : x.manager.inTimeout with
      | none => exact ⟨x, none, rfl, ⟨hframe, l, hA, hH⟩, rfl, rfl⟩
      | some a =>
        obtain ⟨⟨d, hd⟩, -⟩ := hH a hin
        obtain ⟨m', l', hrun, hch, hA'⟩ := agenda_settle hA hH hin hd fun t => hc a d t hin hd
        obtain ⟨x', r, hserve, hx', hsteady⟩ := wellFormed_serve hA' f after
        exact ⟨x', r, by simp [hrun, hserve], hx', hch.toSteady.trans hsteady⟩

/-- **A timely run succeeds, into a well-formed state.** -/
theorem wellFormed_run {cs : List Call} (hx : WellFormed x) (hcs : TimelyRun x cs) :
    ∃ x', run x cs = .ok x' ∧ WellFormed x' ∧ Steady x.manager x'.manager := by
  induction cs generalizing x with
  | nil => exact ⟨x, rfl, hx, rfl, rfl⟩
  | cons c cs ih =>
    obtain ⟨x1, r, hstep, hx1, hsteady⟩ := wellFormed_step hx hcs.1
    have hrest := hcs.2
    simp only [run, hstep] at hrest ⊢
    obtain ⟨x', hrun, hx', hsteady'⟩ := ih hx1 hrest
    exact ⟨x', hrun, hx', hsteady.trans hsteady'⟩

/-- What the timer list should be like: sorted by `when` with the timers that are never due last,
with `list_tail` at its end, and with every live timer in it once. -/
def ListGood (m : TimerManager) : Prop :=
  ∃ l, Chain m.heap m.timerList l none ∧ m.listTail = l.getLast? ∧
    (l.Pairwise fun a b => whenAt m.heap a ≤ whenAt m.heap b) ∧
    (l.Pairwise fun a b => whenAt m.heap a = timeTNever → whenAt m.heap b = timeTNever) ∧
    (l.map (idAt m.heap)).Nodup ∧ ∀ id, id ∈ l.map (idAt m.heap) ↔ Live m.history id

theorem WellFormed.listGood (hx : WellFormed x) : ListGood x.manager := by
  obtain ⟨-, l, hA, -⟩ := hx
  refine ⟨l, hA.listed.chain, hA.listed.tail, hA.ordered.sorted, ?_, ?_, fun id => ?_⟩
  · refine hA.ordered.sorted.imp_of_mem fun _ hb hle he => ?_
    exact Int.le_antisymm (hA.ordered.never _ hb) (he ▸ hle)
  · exact List.pairwise_map.mpr hA.ordered.distinct
  · rw [← hA.live id, List.mem_map]

/-- **The timer list under re-entrancy**: along every timely run no step fails, at a deleted timer
or otherwise, and the timer list is as it should be. -/
theorem run_listGood (max : ℤ) (cs : List Call) (hcs : TimelyRun ⟨.new max, none⟩ cs) :
    ∃ x, run ⟨.new max, none⟩ cs = .ok x ∧ ListGood x.manager := by
  obtain ⟨x, hrun, hx, -⟩ := wellFormed_run (wellFormed_new max) hcs
  exact ⟨x, hrun, hx.listGood⟩

/-- A handler cancels its own timer and creates another one, and the next handler runs. -/
def nestedCalls : List Call :=
  [.newTimer 0 5 0 none 1700000000, .newTimer 1 7 60 none 1700000000,
    .timeout 1700000010 1700000010, .cancelTimer 0, .newTimer 2 0 0 none 1700000010,
    .handlerReturns 1700000010 0 1700000010, .handlerReturns 1700000010 0 1700000010]

theorem run_listGood_nested : TimelyRun ⟨.new 0, none⟩ nestedCalls ∧
    ∃ x, run ⟨.new 0, none⟩ nestedCalls = .ok x ∧ ListGood x.manager := by
  have h : TimelyRun ⟨.new 0, none⟩ nestedCalls := by
    refine ⟨⟨rfl, by decide, by decide⟩, ⟨rfl, by decide, by decide⟩, trivial, trivial,
      ⟨rfl, by decide, by decide⟩, ?_, ?_, trivial⟩
    · rintro a c t ⟨⟩ ⟨⟩ ⟨⟩
    · rintro a c t ⟨⟩ ⟨⟩ ⟨⟩
      decide
  exact ⟨h, run_listGood 0 _ h⟩

/-- **No dead timer runs**: along every timely run, the timer whose handler runs has neither been
cancelled nor expired, unless its handler has cancelled it. -/
theorem running_live {max : ℤ} {cs : List Call} {x : Machine} {a : Addr}
    (hcs : TimelyRun ⟨.new max, none⟩ cs) (hx : run ⟨.new max, none⟩ cs = .ok x)
    (ha : x.manager.inTimeout = some a) (hcancel : x.manager.didCancel = false) :
    Live x.manager.history (idAt x.manager.heap a) := by
  obtain ⟨x', hrun, ⟨-, l, hA, hH⟩, -⟩ := wellFormed_run (wellFormed_new max) hcs
  cases hx.symm.trans hrun
  exact (hA.live _).mp ⟨a, (hH a ha).2.mpr hcancel, rfl⟩

theorem running_live_first : ∃ x, run ⟨.new 0, none⟩ (nestedCalls.take 3) = .ok x ∧
    Live x.manager.history 0 := by
  have hx : run ⟨.new 0, none⟩ (nestedCalls.take 3) = .ok _ := rfl
  have hcs : TimelyRun ⟨.new 0, none⟩ (nestedCalls.take 3) :=
    ⟨⟨rfl, by decide, by decide⟩, ⟨rfl, by decide, by decide⟩, trivial, trivial⟩
  exact ⟨_, hx, running_live hcs hx rfl rfl⟩

/-- A timer that is never due is created behind one that is due past `TIME_T_NEVER`. -/
def farCalls : List Call :=
  [.newTimer 0 10 0 none 1700000000, .newTimer 1 0xfffffffe 0 none 1700000000,
    .newTimer 2 timerNever 0 none 1700000000]

/-- `InsertTimer` puts the timer that is never due last, behind the later time: the list is not
sorted. -/
theorem run_far_unsorted : ∃ x, run ⟨.new 0, none⟩ farCalls = .ok x ∧ ¬ ListGood x.manager := by
  refine ⟨_, rfl, ?_⟩
  rintro ⟨l, hl, -, hsorted, -⟩
  have he : l = [0, 1, 2] := hl.unique ⟨rfl, _, rfl, rfl, _, rfl, rfl, _, rfl, rfl⟩
  rw [he] at hsorted
  revert hsorted
  decide

end Condor.Timers
