import Condor.Timers.Reentrancy
import Mathlib.Data.List.Perm.Subperm

/-!
# Timers — one pass of `Timeout`

Without a limit on the calls, `Timeout` notes the timers that are due when it starts and goes
through them. Whatever the handlers do meanwhile, it runs the handlers of timers of that set only,
each at most once, and misses one only if a handler has cancelled it or set it to a later time.

* **`timeout_handlers`**.
-/

namespace Condor.Timers

open Linked List

attribute [local simp] isDue Except.bind Except.pure bind pure

/-! ## What happens in a pass -/

def timersFrom (h : Heap Timer) : ℕ → Option Addr → List Timer
  | n + 1, some a => (h.cell a).elim [] fun c => c.val :: timersFrom h n c.next
  | _, _ => []

def timers (m : TimerManager) : List Timer := timersFrom m.heap (m.heap.made + 1) m.timerList

def dueIds (m : TimerManager) (now : ℤ) : List ℤ :=
  ((timers m).filter fun t => t.when ≤ now).map Timer.id

def Machine.running (x : Machine) : Option ℤ :=
  x.manager.inTimeout.map (idAt x.manager.heap)

/-- The call may be followed by a call of a handler. -/
def Call.serves (x : Machine) : Call → Bool
  | .timeout _ _ => x.frame.isNone
  | .handlerReturns _ _ _ => true
  | _ => false

def handlers (x : Machine) : List Call → List ℤ
  | [] => []
  | c :: cs => match step x c with
    | .error _ => []
    | .ok (x', _) => (if c.serves x then x'.running.toList else []) ++ handlers x' cs

/-- `Timeout` has not returned before any of the calls. -/
def DuringPass (x : Machine) : List Call → Prop
  | [] => True
  | c :: cs => x.frame.isSome ∧ match step x c with
    | .error _ => True
    | .ok (x', _) => DuringPass x' cs

/-- The call cancels the timer, which was due, or sets it to a time at which it is not. -/
def PutsOff (now id : ℤ) (x : Machine) (c : Call) (x' : Machine) : Prop :=
  (c = .cancelTimer id ∨ ∃ r, c = .resetTimer id r) ∧
    id ∈ dueIds x.manager now ∧ id ∉ dueIds x'.manager now

/-- One of the calls cancels the timer or sets it to a later time. -/
def PutOff (now id : ℤ) (x : Machine) : List Call → Prop
  | [] => False
  | c :: cs => match step x c with
    | .error _ => False
    | .ok (x', _) => PutsOff now id x c x' ∨ PutOff now id x' cs

def Call.isReturn : Call → Bool
  | .handlerReturns _ _ _ => true
  | _ => false

/-! ## The due timers -/

variable {m m' : TimerManager} {h : Heap Timer} {l l' : List Addr} {a : Addr} {x : Machine}
  {now : ℤ}

theorem timersFrom_chain {p : Option Addr} {n : ℕ} (hl : Chain h p l none) (hn : l.length < n) :
    timersFrom h n p = l.filterMap (valAt h) := by
  induction l generalizing p n with
  | nil =>
    rw [hl.head]
    cases n <;> rfl
  | cons a l ih =>
    cases n with
    | zero => simp at hn
    | succ n =>
      obtain ⟨rfl, c, hc, hl⟩ := hl
      rw [filterMap_cons_some (valAt_of_cell hc), ← ih hl (by simpa using hn)]
      simp [timersFrom, hc]

theorem timers_listed (hl : Listed m l) : timers m = l.filterMap (valAt m.heap) :=
  timersFrom_chain hl.chain (Nat.lt_succ_of_le hl.made)

variable {id : ℤ}

theorem mem_dueIds (hl : Listed m l) :
    id ∈ dueIds m now ↔ ∃ t, Shows m.heap l t ∧ t.id = id ∧ t.when ≤ now := by
  simp only [dueIds, timers_listed hl, mem_map, mem_filter, mem_filterMap, decide_eq_true_eq]
  constructor
  · rintro ⟨t, ⟨hs, hw⟩, rfl⟩
    exact ⟨t, hs, rfl, hw⟩
  · rintro ⟨t, hs, rfl, hw⟩
    exact ⟨t, ⟨hs, hw⟩, rfl⟩

theorem nodup_dueIds (hA : Agenda m l) : (dueIds m now).Nodup := by
  have hvals : (l.filterMap (valAt m.heap)).Pairwise fun t t' => t.id ≠ t'.id := by
    refine pairwise_filterMap.mpr (hA.ordered.distinct.imp fun hab t ht t' ht' => ?_)
    rw [← idAt_of_valAt ht, ← idAt_of_valAt ht']
    exact hab
  rw [dueIds, timers_listed hA.listed]
  exact pairwise_map.mpr (hvals.sublist filter_sublist)

theorem length_dueIds_le (hl : Listed m l) (now : ℤ) : (dueIds m now).length ≤ m.heap.made := by
  rw [dueIds, timers_listed hl, length_map]
  exact (length_filter_le _ _).trans ((length_filterMap_le _ _).trans hl.made)

theorem mem_takeWhile_isDue (ho : Ordered h l) (ha : a ∈ l) (hdue : isDue h now a = true) :
    a ∈ l.takeWhile (isDue h now) := by
  have hsorted := ho.sorted
  clear ho
  induction l with
  | nil => cases ha
  | cons b l ih =>
    have hb : isDue h now b = true := by
      rcases mem_cons.mp ha with rfl | ha
      · exact hdue
      · have hle := rel_of_pairwise_cons hsorted ha
        simp only [isDue, decide_eq_true_eq] at hdue ⊢
        omega
    rw [takeWhile_cons_of_pos hb]
    rcases mem_cons.mp ha with rfl | ha
    · exact mem_cons_self
    · exact mem_cons_of_mem _ (ih ha (pairwise_cons.mp hsorted).2)

theorem foldl_insert_nodup {ready : List ℤ} (hr : ready.Nodup) :
    (l.foldl (fun r a => r.insert (idAt h a)) ready).Nodup := by
  induction l generalizing ready with
  | nil => exact hr
  | cons a l ih => exact ih (hr.insert)

theorem mem_foldl_insert {ready : List ℤ} :
    id ∈ l.foldl (fun r a => r.insert (idAt h a)) ready ↔ id ∈ ready ∨ ∃ a ∈ l, idAt h a = id := by
  induction l generalizing ready with
  | nil => simp
  | cons a l ih =>
    rw [foldl_cons, ih, mem_insert_iff]
    simp only [mem_cons, exists_eq_or_imp]
    constructor
    · rintro ((rfl | hr) | hl)
      · exact .inr (.inl rfl)
      · exact .inl hr
      · exact .inr (.inr hl)
    · rintro (hr | rfl | hl)
      · exact .inl (.inr hr)
      · exact .inl (.inl rfl)
      · exact .inr hl

theorem perm_collected (hA : Agenda m l) (now : ℤ) :
    ((l.takeWhile (isDue m.heap now)).foldl (fun r a => r.insert (idAt m.heap a)) []).Perm
      (dueIds m now) := by
  refine (perm_ext_iff_of_nodup (foldl_insert_nodup .nil) (nodup_dueIds hA)).mpr
    fun id => ?_
  rw [mem_foldl_insert, mem_dueIds hA.listed]
  constructor
  · rintro (hr | ⟨a, ha, rfl⟩)
    · cases hr
    · have hmem := (takeWhile_sublist _).subset ha
      obtain ⟨c, hc⟩ := hA.listed.chain.cell hmem
      have hdue := mem_takeWhile_imp ha
      refine ⟨c.val, ⟨a, hmem, valAt_of_cell hc⟩, (idAt_of_cell hc).symm, ?_⟩
      simpa [whenAt_of_cell hc] using hdue
  · rintro ⟨t, ⟨a, ha, hv⟩, rfl, hw⟩
    obtain ⟨c, hc, rfl⟩ := Option.map_eq_some_iff.mp hv
    refine .inr ⟨a, mem_takeWhile_isDue hA.ordered ha ?_, idAt_of_cell hc⟩
    simpa [whenAt_of_cell hc] using hw

/-! ## The steps of a pass -/

/-- **The state of a pass**: of the timers that were due, some have been fired, and the others are
still due or have been put off. -/
structure Pass (now : ℤ) (due fired : List ℤ) (off : ℤ → Prop) (m : TimerManager) (l : List Addr)
    (f : Frame) : Prop where
  clock : f.now = now
  fires : f.numFires = fired.length
  perm : (fired ++ f.readyTimerIds).Perm due
  ready : ∀ id ∈ f.readyTimerIds, off id ∨ ∃ t, Shows m.heap l t ∧ t.id = id ∧ t.when ≤ now
  used : ∀ id ∈ due, id < m.timerIds
  few : (due.length : ℤ) ≤ intMax
  max : m.maxTimerEventsPerCycle = intMax

def InPass (now : ℤ) (due fired : List ℤ) (off : ℤ → Prop) (x : Machine) : Prop :=
  ∃ f l a, x.frame = some f ∧ Agenda x.manager l ∧ Held x.manager l ∧
    x.manager.inTimeout = some a ∧ idAt x.manager.heap a ∈ fired ∧
    Pass now due fired off x.manager l f

def Over (due fired : List ℤ) (off : ℤ → Prop) (x : Machine) : Prop :=
  x.frame = none ∧ ∃ rest, (fired ++ rest).Perm due ∧ ∀ id ∈ rest, off id

variable {due fired : List ℤ} {off : ℤ → Prop} {f : Frame}

theorem Pass.ready_cases (hP : Pass now due fired off m l f) (hA : Agenda m l)
    (hid : id ∈ f.readyTimerIds) :
    off id ∨ ∃ a ∈ l.takeWhile (isDue m.heap now), idAt m.heap a = id := by
  refine (hP.ready id hid).imp_right ?_
  rintro ⟨t, ⟨a, ha, hv⟩, rfl, hw⟩
  obtain ⟨c, hc, rfl⟩ := Option.map_eq_some_iff.mp hv
  refine ⟨a, mem_takeWhile_isDue hA.ordered ha ?_, idAt_of_cell hc⟩
  simpa [whenAt_of_cell hc] using hw

theorem Pass.fire (hP : Pass now due fired off m l f) (hid : idAt m.heap a ∈ f.readyTimerIds)
    (hm : m'.heap = m.heap) (hi : m'.timerIds = m.timerIds)
    (hmax : m'.maxTimerEventsPerCycle = m.maxTimerEventsPerCycle) :
    Pass now due (fired ++ [idAt m.heap a]) off m' l
      ⟨f.now, f.readyTimerIds.erase (idAt m.heap a), f.numFires + 1⟩ where
  clock := hP.clock
  fires := by simp [hP.fires]
  perm := by
    rw [append_assoc]
    exact ((perm_cons_erase hid).symm.append_left fired).trans hP.perm
  ready id h := by
    rw [hm]
    exact hP.ready id (mem_of_mem_erase h)
  used := by rw [hi]; exact hP.used
  few := hP.few
  max := hmax.trans hP.max

theorem pass_serve (hA : Agenda m l) (hP : Pass now due fired off m l f) (after : ℤ) :
    ∃ x r, serve m f after = .ok (x, r) ∧ (Over due fired off x ∧ x.running = none ∨
      ∃ i, x.running = some i ∧ InPass now due (fired ++ [i]) off x) := by
  have hover : (∀ id ∈ f.readyTimerIds, off id) →
      ∃ x r, finishTimeout m after = .ok (x, r) ∧ (Over due fired off x ∧ x.running = none ∨
        ∃ i, x.running = some i ∧ InPass now due (fired ++ [i]) off x) := by
    intro hoff
    obtain ⟨r, hr⟩ := finishTimeout_listed hA.listed after
    exact ⟨_, _, hr, .inl ⟨⟨rfl, f.readyTimerIds, hP.perm, hoff⟩, rfl⟩⟩
  unfold serve
  cases l with
  | nil =>
    have hfirst : m.timerList = none := hA.listed.timerList
    simp only [hfirst]
    refine hover fun id hid => (hP.ready_cases hA hid).resolve_right ?_
    rintro ⟨a, ha, -⟩
    cases ha
  | cons a l =>
    have hfirst : m.timerList = some a := hA.listed.timerList
    obtain ⟨c, hc⟩ := hA.listed.chain.cell (a := a) (by simp)
    obtain rfl : f.now = now := hP.clock
    simp only [hfirst, Heap.deref_some hc, bind, Except.bind]
    split_ifs with hguard
    · have ha : isDue m.heap f.now a = true := by simpa [whenAt_of_cell hc] using hguard.1
      have hskip := skipAdded_chain f.now f.readyTimerIds (hfirst ▸ hA.listed.chain)
        (Nat.lt_succ_of_le hA.listed.made)
      rw [← takeWhile_cons_of_pos ha] at hskip
      simp only [chooseTimer, hP.max, hskip]
      cases hfind : ((a :: l).takeWhile (isDue m.heap f.now)).find?
          fun b => decide (idAt m.heap b ∈ f.readyTimerIds) with
      | none =>
        refine hover fun id hid => (hP.ready_cases hA hid).resolve_right ?_
        rintro ⟨b, hb, rfl⟩
        have := find?_eq_none.mp hfind b hb
        simp [hid] at this
      | some b =>
        have hb := (takeWhile_sublist _).subset (mem_of_find?_eq_some hfind)
        have hid : idAt m.heap b ∈ f.readyTimerIds := by
          simpa using find?_some hfind
        refine ⟨_, _, rfl, .inr ⟨idAt m.heap b, rfl, _, a :: l, b, rfl,
          hA.keep rfl hfirst.symm rfl rfl rfl, fun d hd => ?_, rfl, by simp,
          hP.fire hid rfl rfl hP.max.symm⟩⟩
        cases hd
        exact ⟨hA.listed.chain.cell hb, by simpa using hb⟩
    · -- nothing is due, or all have been fired
      refine hover fun id hid => (hP.ready_cases hA hid).resolve_right ?_
      rintro ⟨b, hb, rfl⟩
      by_cases ha : isDue m.heap f.now a = true
      · have hwhen : c.val.when ≤ f.now := by simpa [whenAt_of_cell hc] using ha
        have hfull : ¬ f.numFires < intMax := fun hlt => hguard ⟨hwhen, hP.max ▸ hlt⟩
        have hlen := hP.perm.length_eq
        have hpos := length_pos_of_mem hid
        have hfires := hP.fires
        have hfew := hP.few
        rw [length_append] at hlen
        omega
      · rw [takeWhile_cons_of_neg ha] at hb
        cases hb

/-- A change of one timer, which is put off if it was due and is not any more. -/
theorem Pass.change {i : ℤ} (hP : Pass now due fired off m l f) (hl : Listed m l)
    (hl' : Listed m' l') (hch : Change i m l m' l') {off' : ℤ → Prop}
    (hoff : ∀ id, off id → off' id)
    (hi : i ∈ f.readyTimerIds → i ∈ dueIds m now → i ∉ dueIds m' now → off' i) :
    Pass now due fired off' m' l' f where
  clock := hP.clock
  fires := hP.fires
  perm := hP.perm
  ready id hid := by
    rcases hP.ready id hid with h | ⟨t, hs, rfl, hw⟩
    · exact .inl (hoff id h)
    · by_cases hti : t.id = i
      · by_cases hdue : i ∈ dueIds m' now
        · exact .inr (hti ▸ (mem_dueIds hl').mp hdue)
        · refine .inl (hti ▸ hi (hti ▸ hid) ?_ hdue)
          exact (mem_dueIds hl).mpr ⟨t, hs, hti, hw⟩
      · exact .inr ⟨t, (hch.kept t hti).mpr hs, rfl, hw⟩
  used id hid := Int.lt_of_lt_of_le (hP.used id hid) hch.ids
  few := hP.few
  max := hch.max.trans hP.max

theorem InPass.call {i : ℤ} {m' : TimerManager} {c : Call} {f : Frame} {l : List Addr} {a : Addr}
    (hA : Agenda x.manager l) (hf : x.frame = some f) (hin : x.manager.inTimeout = some a)
    (hfired : idAt x.manager.heap a ∈ fired) (hP : Pass now due fired off x.manager l f)
    (hch : CallChange i x.manager l m' l') (hA' : Agenda m' l') (hH' : Held m' l')
    (hi : i ∉ f.readyTimerIds ∨ c = .cancelTimer i ∨ ∃ r, c = .resetTimer i r) :
    InPass now due fired (fun id => off id ∨ PutsOff now id x c { x with manager := m' })
      { x with manager := m' } := by
  refine ⟨f, l', a, hf, hA', hH', hch.inTimeout.trans hin, ?_, ?_⟩
  · rw [hch.running a hin]
    exact hfired
  · refine hP.change hA.listed hA'.listed hch.toChange (fun _ => .inl) fun hready hdue hnot => ?_
    exact .inr ⟨hi.resolve_left (not_not_intro hready), hdue, hnot⟩

/-- **A step of a pass**: a call of the running handler, or its return. -/
theorem pass_step {c : Call} (hdue : due.Nodup) (hx : InPass now due fired off x)
    (hc : Timely x c) :
    ∃ x' r, step x c = .ok (x', r) ∧ (c.isReturn = false ∧ c.serves x = false ∧
        InPass now due fired (fun id => off id ∨ PutsOff now id x c x') x' ∨
      c.isReturn = true ∧ (Over due fired off x' ∧ x'.running = none ∨
        ∃ i, x'.running = some i ∧ InPass now due (fired ++ [i]) off x')) := by
  obtain ⟨f, l, a, hf, hA, hH, hin, hfired, hP⟩ := hx
  have hfresh : x.manager.timerIds ∉ f.readyTimerIds := fun hid =>
    Int.lt_irrefl _ (hP.used _ (hP.perm.subset (mem_append_right _ hid)))
  cases c with
  | newTimer addr deltawhen period timeslice t =>
    obtain ⟨haddr, hids, hnever⟩ := hc
    obtain ⟨m', l', hrun : newTimer _ _ _ period _ _ = _, hch, hA', hH'⟩ :=
      agenda_newTimer hA hH haddr hnever hids
    refine ⟨{ x with manager := m' }, some x.manager.timerIds, ?_, .inl ⟨rfl, rfl, ?_⟩⟩
    · simp [step, hrun]
    · exact .call hA hf hin hfired hP hch hA' hH' (.inl hfresh)
  | resetTimer id r =>
    obtain ⟨m', l', res, hrun, hch, hA', hH'⟩ := agenda_resetTimer hA hH hc
    refine ⟨{ x with manager := m' }, some res, ?_, .inl ⟨rfl, rfl, ?_⟩⟩
    · simp [step, hrun]
    · exact .call hA hf hin hfired hP hch hA' hH' (.inr (.inr ⟨r, rfl⟩))
  | cancelTimer id =>
    obtain ⟨m', l', res, hrun, hch, hA', hH'⟩ := agenda_cancelTimer hA hH id
    refine ⟨{ x with manager := m' }, some res, ?_, .inl ⟨rfl, rfl, ?_⟩⟩
    · simp [step, hrun]
    · exact .call hA hf hin hfired hP hch hA' hH' (.inr (.inl rfl))
  | timeout t after =>
    obtain ⟨r, hr⟩ := secondsToNext_listed hA.listed 0 t
    refine ⟨x, some r, ?_, .inl ⟨rfl, by simp [Call.serves, hf], ?_⟩⟩
    · simp [step, timeout, hin, hr]
    · exact .call hA hf hin hfired hP (.refl x.manager.timerIds _ _) hA hH (.inl hfresh)
  | handlerReturns t toNextRun after =>
    obtain ⟨⟨d, hd⟩, -⟩ := hH a hin
    obtain ⟨m', l', hrun, hch, hA'⟩ := agenda_settle hA hH hin hd fun t => hc a d t hin hd
    -- the timer that was served has been fired
    have hnot : d.val.id ∉ f.readyTimerIds := fun hid => by
      rw [idAt_of_cell hd] at hfired
      exact (nodup_append.mp (hP.perm.nodup_iff.mpr hdue)).2.2 _ hfired _ hid rfl
    have hP' : Pass now due fired off m' l' f :=
      hP.change hA.listed hA'.listed hch (fun _ => id) fun hid => absurd hid hnot
    obtain ⟨x', r, hserve, hres⟩ := pass_serve hA' hP' after
    refine ⟨x', r, ?_, .inr ⟨rfl, hres⟩⟩
    simp [step, handlerReturns, hf, hin, hrun, hserve]

/-- **The rest of a pass.** -/
theorem pass_run {cs : List Call} (hdue : due.Nodup) (hx : InPass now due fired off x)
    (ht : TimelyRun x cs) (hd : DuringPass x cs) :
    ∃ x' rest, run x cs = .ok x' ∧ (fired ++ handlers x cs ++ rest).Perm due ∧
      (handlers x cs).length + 1 = cs.countP Call.isReturn + x'.frame.toList.length ∧
      (x'.frame = none → ∀ id ∈ rest, off id ∨ PutOff now id x cs) := by
  induction cs generalizing x fired off with
  | nil =>
    obtain ⟨f, l, a, hf, -, -, -, -, hP⟩ := hx
    exact ⟨x, f.readyTimerIds, rfl, by simpa [handlers] using hP.perm, by simp [handlers, hf],
      fun hnone => absurd (hf.symm.trans hnone) (by simp)⟩
  | cons c cs ih =>
    obtain ⟨x1, r, hstep, hres⟩ := pass_step hdue hx ht.1
    have ht' : TimelyRun x1 cs := by simpa only [hstep] using ht.2
    have hd' : DuringPass x1 cs := by simpa only [hstep] using hd.2
    simp only [run, handlers, PutOff, hstep]
    rcases hres with ⟨hret, hserves, hx1⟩ |
      ⟨hret, ⟨⟨hf, rest, hperm, hoff⟩, hrunning⟩ | ⟨i, hi, hx1⟩⟩
    · obtain ⟨x', rest, hrun, hperm, hlen, hoff⟩ := ih hx1 ht' hd'
      refine ⟨x', rest, hrun, by simpa [hserves] using hperm, by simpa [hserves, hret] using hlen,
        fun hnone id hid => ?_⟩
      rcases hoff hnone id hid with (h | h) | h
      · exact .inl h
      · exact .inr (.inl h)
      · exact .inr (.inr h)
    · -- the pass is over, so no call is left
      cases cs with
      | cons c' cs => exact absurd hd'.1 (by simp [hf])
      | nil =>
        refine ⟨x1, rest, rfl, by simpa [handlers, hrunning] using hperm, ?_, fun _ id hid =>
          .inl (hoff id hid)⟩
        simp [handlers, hrunning, hret, hf]
    · have hserves : c.serves x = true := by
        cases c <;> first | rfl | cases hret
      obtain ⟨x', rest, hrun, hperm, hlen, hoff⟩ := ih hx1 ht' hd'
      refine ⟨x', rest, hrun, ?_, ?_, fun hnone id hid => (hoff hnone id hid).imp_right .inr⟩
      · simpa [hserves, hi] using hperm
      · simp only [hserves, hi, if_true, Option.toList_some, length_append,
          length_singleton, countP_cons, hret]
        omega

/-! ## Whole passes -/

theorem timelyRun_append {cs cs' : List Call} {x' : Machine} (ht : TimelyRun x (cs ++ cs'))
    (hrun : run x cs = .ok x') : TimelyRun x cs ∧ TimelyRun x' cs' := by
  induction cs generalizing x with
  | nil =>
    cases hrun
    exact ⟨trivial, ht⟩
  | cons c cs ih =>
    obtain ⟨hc, hrest⟩ := ht
    simp only [run, TimelyRun] at hrun ⊢
    cases hstep : step x c with
    | error e => simp [hstep] at hrun
    | ok xr =>
      simp only [hstep] at hrest hrun
      obtain ⟨h1, h2⟩ := ih hrest hrun
      exact ⟨⟨hc, h1⟩, h2⟩

/-- `Timeout` starts a pass over the timers that are due. -/
theorem pass_timeout (hx : WellFormed x) (hidle : x.frame = none)
    (hmade : x.manager.timerIds = x.manager.heap.made)
    (hmax : x.manager.maxTimerEventsPerCycle = intMax) (after : ℤ) :
    ∃ x' r, step x (.timeout now after) = .ok (x', r) ∧
      (Over (dueIds x.manager now) [] (fun _ => False) x' ∧ x'.running = none ∨
        ∃ i, x'.running = some i ∧ InPass now (dueIds x.manager now) [i] (fun _ => False) x') := by
  obtain ⟨hframe, l, hA, -⟩ := hx
  have hin : x.manager.inTimeout = none := by simpa [hidle] using hframe
  have hP : Pass now (dueIds x.manager now) [] (fun _ => False) x.manager l
      ⟨now, (l.takeWhile (isDue x.manager.heap now)).foldl
        (fun r a => r.insert (idAt x.manager.heap a)) [], 0⟩ := by
    have hperm := perm_collected hA now
    refine ⟨rfl, rfl, hperm, fun id hid => .inr ((mem_dueIds hA.listed).mp (hperm.subset hid)),
      fun id hid => ?_, ?_, hmax⟩
    · obtain ⟨t, ⟨a, -, hv⟩, rfl, -⟩ := (mem_dueIds hA.listed).mp hid
      obtain ⟨c, hc, rfl⟩ := Option.map_eq_some_iff.mp hv
      exact hA.used a c hc
    · have hlen := length_dueIds_le hA.listed now
      have hids := hA.ids.2
      omega
  obtain ⟨x', r, hserve, hres⟩ := pass_serve hA hP after
  refine ⟨x', r, ?_, hres⟩
  simp [step, timeout, hin, hmax, hserve,
    collectReady_chain now hA.listed.chain (Nat.lt_succ_of_le hA.listed.made) []]

/-- **The handlers of a pass.** Without a limit on the calls, the handlers that `Timeout` runs are
those of timers that were due at its start, each of them once; and when it is over, a timer that was
due has been run, cancelled or set to a later time. -/
theorem timeout_handlers {max now after : ℤ} {before cs : List Call} {x : Machine}
    (hmax : (TimerManager.new max).maxTimerEventsPerCycle = intMax)
    (ht : TimelyRun ⟨.new max, none⟩ (before ++ .timeout now after :: cs))
    (hx : run ⟨.new max, none⟩ before = .ok x) (hidle : x.frame = none) :
    ∃ x₁ r, step x (.timeout now after) = .ok (x₁, r) ∧
      (DuringPass x₁ cs → ∃ x', run x₁ cs = .ok x' ∧ (handlers x (.timeout now after :: cs)).Nodup ∧
        handlers x (.timeout now after :: cs) ⊆ dueIds x.manager now ∧
        (handlers x (.timeout now after :: cs)).length ≤ (dueIds x.manager now).length ∧
        (handlers x (.timeout now after :: cs)).length =
          cs.countP Call.isReturn + x'.frame.toList.length ∧
        (x'.frame = none → ∀ id ∈ dueIds x.manager now,
          id ∈ handlers x (.timeout now after :: cs) ∨ PutOff now id x₁ cs)) := by
  obtain ⟨htimely, hrest⟩ := timelyRun_append ht hx
  obtain ⟨x', hrun, hwf, hsteady⟩ := wellFormed_run (wellFormed_new max) htimely
  cases hx.symm.trans hrun
  have hmade : x.manager.timerIds = x.manager.heap.made := by
    have hnew : x.manager.timerIds - x.manager.heap.made = 0 := hsteady.made
    omega
  have hnodup : (dueIds x.manager now).Nodup := by
    obtain ⟨-, l, hA, -⟩ := hwf
    exact nodup_dueIds hA
  obtain ⟨x₁, r, hstep, hres⟩ :=
    pass_timeout hwf hidle hmade (hsteady.max.trans hmax) after
  refine ⟨x₁, r, hstep, fun hd => ?_⟩
  have ht1 : TimelyRun x₁ cs := by simpa only [hstep] using hrest.2
  have hhandlers : handlers x (.timeout now after :: cs) = x₁.running.toList ++ handlers x₁ cs := by
    simp [handlers, hstep, Call.serves, hidle]
  -- what is left to show, from the timers that have not been run
  have hall : ∃ x' rest, run x₁ cs = .ok x' ∧
      (handlers x (.timeout now after :: cs) ++ rest).Perm (dueIds x.manager now) ∧
      (handlers x (.timeout now after :: cs)).length = cs.countP Call.isReturn +
      x'.frame.toList.length ∧ (x'.frame = none → ∀ id ∈ rest, PutOff now id x₁ cs) := by
    rcases hres with ⟨⟨hf, rest, hperm, hoff⟩, hrunning⟩ | ⟨i, hi, hx₁⟩
    · cases cs with
      | cons c cs => exact absurd hd.1 (by simp [hf])
      | nil =>
        have hnil : handlers x [.timeout now after] = [] := by
          rw [hhandlers, hrunning]
          rfl
        exact ⟨x₁, rest, rfl, hnil ▸ hperm, by simp [hnil, hf],
          fun _ id hid => absurd (hoff id hid) not_false⟩
    · obtain ⟨x', rest, hrun', hperm, hlen, hoff⟩ := pass_run hnodup hx₁ ht1 hd
      refine ⟨x', rest, hrun', by simpa [hhandlers, hi] using hperm, ?_, fun hnone id hid =>
        (hoff hnone id hid).resolve_left not_false⟩
      rw [hhandlers, hi, Option.toList_some, singleton_append, length_cons, hlen]
  obtain ⟨x', rest, hrun', hperm, hlen, hoff⟩ := hall
  have hsub : (handlers x (.timeout now after :: cs)).Subperm (dueIds x.manager now) :=
    (sublist_append_left _ rest).subperm.trans hperm.subperm
  refine ⟨x', hrun', (nodup_append.mp (hperm.nodup_iff.mpr hnodup)).1, hsub.subset,
    hsub.length_le, hlen, fun hnone id hid => ?_⟩
  rcases mem_append.mp (hperm.mem_iff.mpr hid) with h | h
  · exact .inl h
  · exact .inr (hoff hnone id h)

def busyTimers : List Call :=
  [.newTimer 0 5 60 none 1700000000, .newTimer 1 5 0 none 1700000000,
    .newTimer 2 7 0 none 1700000000]

/-- Three timers are due; the handler of the first one cancels the second one, sets the third one
and itself to a time at which they are due, too, and creates a timer that is due at once. -/
def busyCalls : List Call :=
  [.cancelTimer 1, .resetTimer 2 ⟨0, 0, false, none, 1700000010, 1700000010⟩,
    .resetTimer 0 ⟨0, 60, false, none, 1700000010, 1700000010⟩,
    .newTimer 3 0 0 none 1700000010, .handlerReturns 1700000010 0 1700000010,
    .handlerReturns 1700000010 0 1700000010]

theorem timeout_handlers_busy : ∃ x x₁ x' r, run ⟨.new 0, none⟩ busyTimers = .ok x ∧
    dueIds x.manager 1700000010 = [0, 1, 2] ∧
    step x (.timeout 1700000010 1700000010) = .ok (x₁, r) ∧ run x₁ busyCalls = .ok x' ∧
    x'.frame = none ∧ handlers x (.timeout 1700000010 1700000010 :: busyCalls) = [0, 2] ∧
    ∀ id ∈ dueIds x.manager 1700000010,
      id ∈ handlers x (.timeout 1700000010 1700000010 :: busyCalls) ∨
        PutOff 1700000010 id x₁ busyCalls := by
  have ht : TimelyRun ⟨.new 0, none⟩
      (busyTimers ++ .timeout 1700000010 1700000010 :: busyCalls) := by
    refine ⟨⟨rfl, by decide, by decide⟩, ⟨rfl, by decide, by decide⟩, ⟨rfl, by decide, by decide⟩,
      trivial, trivial, ?_, ?_, ⟨rfl, by decide, by decide⟩, ?_, ?_, trivial⟩
    case refine_3 | refine_4 =>
      rintro a c t ⟨⟩ ⟨⟩ ⟨⟩ <;> decide
    all_goals
      intro a c t _ _ h
      simp only [resetValue, Bool.false_eq_true, if_false] at h
      split_ifs at h
      cases h
      exact (by decide : dueAfter 0 1700000010 ≤ timeTNever)
  have hx : run ⟨.new 0, none⟩ busyTimers = .ok _ := rfl
  obtain ⟨x₁, r, hstep, hpass⟩ := timeout_handlers rfl ht hx rfl
  cases hstep
  obtain ⟨x', hrun, -, -, -, -, hall⟩ := hpass ⟨rfl, rfl, rfl, rfl, rfl, rfl, trivial⟩
  cases hrun
  exact ⟨_, _, _, _, hx, rfl, rfl, rfl, rfl, rfl, hall rfl⟩

/-- A timer that is due at `TIME_T_NEVER` is created behind one that is due later. -/
def lastCalls : List Call :=
  [.newTimer 0 50 0 none 2147483547, .newTimer 1 200 0 none 2147483547,
    .newTimer 2 100 0 none 2147483547]

/-- The pass that serves the first timer: the last one is due, too, but it stands behind one that is
not, and its handler is not run. -/
def lastPass : List Call :=
  [.timeout 2147483647 2147483647, .handlerReturns 2147483647 0 2147483647]

theorem timeout_misses_last : ∃ x x', run ⟨.new 0, none⟩ lastCalls = .ok x ∧ x.frame = none ∧
    dueIds x.manager 2147483647 = [0, 2] ∧ run x lastPass = .ok x' ∧ x'.frame = none ∧
    handlers x lastPass = [0] := by
  refine ⟨_, _, rfl, rfl, rfl, rfl, rfl, rfl⟩

end Condor.Timers
