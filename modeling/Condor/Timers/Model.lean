import Condor.Lib.Linked
import Mathlib.Data.Int.Bitwise

/-!
# Timers — the model of `TimerManager`

The timer list of daemon core is linked by hand through the timers themselves. `Timeout` runs the
handlers of the timers that are due, and a handler may create, reset and cancel timers, its own
too, while `Timeout` holds a pointer to the running one. A call of the manager is a step of the
model; `Timeout` is cut at its calls of handlers, so a step ends when a handler starts to run, and
the step `handlerReturns` takes `Timeout` up again behind the call.

Every reading of the clock and every answer of a timeslice is an argument of the step, and so is
the address that the allocator hands out.
-/

namespace Condor.Timers

open Linked

/-- `TIMER_NEVER`, as a delay or as a period. -/
def timerNever : UInt32 := 0xffffffff

/-- `TIME_T_NEVER`, as a time. -/
def timeTNever : ℤ := 0x7fffffff

def intMax : ℤ := 2 ^ 31 - 1

/-- Conversion to `int`. -/
def toInt (x : ℤ) : ℤ := x.bmod (2 ^ 32)

/-- `Timer`. Of its timeslice the model keeps whether there is one. -/
structure Timer where
  when : ℤ
  periodStarted : ℤ
  period : UInt32
  id : ℤ
  timeslice : Bool
deriving DecidableEq, Repr

/-- What has become of a timer. -/
inductive Event where
  | created (id : ℤ)
  | cancelled (id : ℤ)
  | expired (id : ℤ)
deriving DecidableEq, Repr

/-- `TimerManager`; `history` is a record of the timers' lives that the code does not keep. -/
structure TimerManager where
  heap : Heap Timer
  timerIds : ℤ
  timerList : Option Addr
  listTail : Option Addr
  inTimeout : Option Addr
  didReset : Bool
  didCancel : Bool
  maxTimerEventsPerCycle : ℤ
  history : List Event

/-- The manager after its constructor and `reconfig`. -/
def TimerManager.new (max : ℤ) : TimerManager where
  heap := .empty
  timerIds := 0
  timerList := none
  listTail := none
  inTimeout := none
  didReset := false
  didCancel := false
  maxTimerEventsPerCycle := if max < 1 then intMax else max
  history := []

/-! ## The list -/

variable (m : TimerManager)

/-- `GetTimer`: the timer and the one before it. -/
def getTimer (id : ℤ) : Except Fault (Option Addr × Option Addr) :=
  seek m.heap (fun t => t.id == id) (m.heap.made + 1) m.timerList none

def goodRemoval (timer : Addr) : Option Addr → Except Fault Bool
  | some prev => do
    let c ← m.heap.deref (some prev)
    return c.next == some timer
  | none => return m.timerList == some timer

def removeTimer (timer : Addr) (prev : Option Addr) : Except Fault TimerManager := do
  if !(← goodRemoval m timer prev) then throw .gaveUp
  let c ← m.heap.deref (some timer)
  let first := if some timer = m.timerList then c.next else m.timerList
  let last := if some timer = m.listTail then prev else m.listTail
  let heap ← if prev.isSome then m.heap.setNext prev c.next else pure m.heap
  return { m with heap := heap, timerList := first, listTail := last }

def insertTimer (newTimer : Addr) : Except Fault TimerManager :=
  match m.timerList with
  | none => do
    let heap ← m.heap.setNext (some newTimer) none
    return { m with heap := heap, timerList := some newTimer, listTail := some newTimer }
  | some first => do
    let t ← m.heap.deref (some newTimer)
    let f ← m.heap.deref (some first)
    if t.val.when < f.val.when then
      let heap ← m.heap.setNext (some newTimer) (some first)
      return { m with heap := heap, timerList := some newTimer }
    else if t.val.when = timeTNever then
      let heap ← m.heap.setNext (some newTimer) none
      let heap ← heap.setNext m.listTail (some newTimer)
      return { m with heap := heap, listTail := some newTimer }
    else
      let (ptr, trail) ← seek m.heap (fun v => decide (t.val.when < v.when)) (m.heap.made + 1)
        (some first) none
      if trail.isNone then throw .gaveUp
      let heap ← m.heap.setNext (some newTimer) ptr
      let heap ← heap.setNext trail (some newTimer)
      return { m with
        heap := heap
        listTail := if trail = m.listTail then some newTimer else m.listTail }

def deleteTimer (timer : Addr) : Except Fault TimerManager := do
  return { m with heap := ← m.heap.free timer }

/-! ## The calls -/

def dueAfter (delta : UInt32) (now : ℤ) : ℤ :=
  if delta = timerNever then timeTNever else delta.toNat + now

/-- `NewTimer`. A timeslice is given by the time until its next run. -/
def newTimer (addr : Addr) (deltawhen : UInt32) (period : UInt32)
    (timeslice : Option UInt32) (now : ℤ) : Except Fault (TimerManager × ℤ) := do
  let t : Timer := {
    when := dueAfter (timeslice.getD deltawhen) now
    periodStarted := now
    period := period
    id := m.timerIds
    timeslice := timeslice.isSome }
  let m ← insertTimer { m with
    heap := m.heap.alloc addr t
    timerIds := toInt (m.timerIds + 1)
    history := m.history ++ [.created t.id] } addr
  return (m, t.id)

/-- The arguments of `ResetTimer` behind the timer's number, with the readings of the clock. A
timeslice is given by its next start time. -/
structure Reset where
  when : UInt32
  period : UInt32
  recomputeWhen : Bool
  newTimeslice : Option ℤ
  now : ℤ
  later : ℤ
deriving DecidableEq, Repr

/-- What `ResetTimer` makes of a timer; `none` when it leaves the timer alone, because the timer
has a timeslice. -/
def resetValue (r : Reset) (t : Timer) : Option Timer :=
  match r.newTimeslice with
  | some start => some { t with timeslice := true, when := start, period := r.period }
  | none =>
    if t.timeslice then none
    else if r.recomputeWhen then
      let due := t.periodStarted + r.period.toNat
      let waitTime := toInt (toInt due - toInt r.now)
      if (r.period.toNat : ℤ) < waitTime then
        some { t with
          periodStarted := r.later, when := r.later + r.period.toNat, period := r.period }
      else some { t with when := due, period := r.period }
    else some { t with periodStarted := r.now, when := dueAfter r.when r.now, period := r.period }

def resetTimer (id : ℤ) (r : Reset) : Except Fault (TimerManager × ℤ) := do
  if m.timerList.isNone then return (m, -1)
  match ← getTimer m id with
  | (none, _) => return (m, -1)
  | (some timer, trail) =>
    let c ← m.heap.deref (some timer)
    match resetValue r c.val with
    | none => return (m, 0)
    | some t =>
      let heap ← m.heap.setVal timer t
      let m ← removeTimer { m with heap := heap } timer trail
      let m ← insertTimer m timer
      return ({ m with didReset := m.didReset || decide (m.inTimeout = some timer) }, 0)

def cancelTimer (id : ℤ) : Except Fault (TimerManager × ℤ) := do
  if m.timerList.isNone then return (m, -1)
  match ← getTimer m id with
  | (none, _) => return (m, -1)
  | (some timer, trail) =>
    let m ← removeTimer m timer trail
    let m := { m with history := m.history ++ [.cancelled id] }
    if m.inTimeout = some timer then return ({ m with didCancel := true }, 0)
    else return (← deleteTimer m timer, 0)

/-! ## `Timeout` -/

/-- The local variables of a `Timeout` that is running a handler. -/
structure Frame where
  now : ℤ
  readyTimerIds : List ℤ
  numFires : ℤ
deriving DecidableEq, Repr

/-- The manager and the `Timeout` that is active, if one is. -/
structure Machine where
  manager : TimerManager
  frame : Option Frame

def collectReady (h : Heap Timer) (now : ℤ) : ℕ → Option Addr → List ℤ → Except Fault (List ℤ)
  | 0, _, _ => .error .endless
  | _ + 1, none, ready => .ok ready
  | n + 1, some a, ready => do
    let c ← h.deref (some a)
    if c.val.when ≤ now then collectReady h now n c.next (ready.insert c.val.id)
    else .ok ready

/-- The loop that skips timers that were not due when `Timeout` started. -/
def skipAdded (h : Heap Timer) (now : ℤ) (ready : List ℤ) :
    ℕ → Addr → Except Fault (Option (Addr × List ℤ))
  | 0, _ => .error .endless
  | n + 1, a => do
    let c ← h.deref (some a)
    if c.val.id ∈ ready then return some (a, ready.erase c.val.id)
    match c.next with
    | none => return none
    | some b =>
      let d ← h.deref (some b)
      if d.val.when ≤ now then skipAdded h now ready n b else return none

/-- The number of seconds to the first timer, as `Timeout` reports it. -/
def secondsToNext (empty now : ℤ) : Except Fault ℤ :=
  match m.timerList with
  | none => return empty
  | some first => do
    let c ← m.heap.deref (some first)
    return max 0 (toInt (c.val.when - now))

/-- The end of `Timeout`. -/
def finishTimeout (after : ℤ) : Except Fault (Machine × Option ℤ) := do
  let result ← secondsToNext m (-1) after
  return (⟨{ m with inTimeout := none }, none⟩, some result)

/-- The choice of the next timer to serve: the first one, or the first that was due at the start
when the number of calls is not limited. -/
def chooseTimer (f : Frame) (first : Addr) : Except Fault (Option (Addr × List ℤ)) :=
  if m.maxTimerEventsPerCycle = intMax then
    skipAdded m.heap f.now f.readyTimerIds (m.heap.made + 1) first
  else return some (first, f.readyTimerIds)

/-- The head of the main loop of `Timeout`, up to the call of a handler or the return. -/
def serve (f : Frame) (after : ℤ) : Except Fault (Machine × Option ℤ) :=
  match m.timerList with
  | none => finishTimeout m after
  | some first => do
    let c ← m.heap.deref (some first)
    if c.val.when ≤ f.now ∧ f.numFires < m.maxTimerEventsPerCycle then
      match ← chooseTimer m f first with
      | none => finishTimeout m after
      | some (timer, ready) =>
        return (⟨{ m with inTimeout := some timer, didReset := false, didCancel := false },
          some ⟨f.now, ready, f.numFires + 1⟩⟩, none)
    else finishTimeout m after

/-- `Timeout` up to the first handler; a `Timeout` inside a handler returns at once. -/
def timeout (x : Machine) (now after : ℤ) : Except Fault (Machine × Option ℤ) := do
  let m := x.manager
  if m.inTimeout.isSome then
    let result ← secondsToNext m 0 now
    return (x, some result)
  let ready ← if m.maxTimerEventsPerCycle = intMax then
      collectReady m.heap now (m.heap.made + 1) m.timerList []
    else pure []
  serve m ⟨now, ready, 0⟩ after

/-- The timer as `Timeout` renews it behind its handler; `none` for a one-time event. -/
def renewValue (t : Timer) (now : ℤ) (toNextRun : UInt32) : Option Timer :=
  if t.timeslice then some { t with periodStarted := now, when := now + toNextRun.toNat }
  else if 0 < t.period then some { t with periodStarted := now, when := dueAfter t.period now }
  else none

/-- What `Timeout` does with the timer it has served. -/
def settle (timer : Addr) (now : ℤ) (toNextRun : UInt32) : Except Fault TimerManager := do
  let c ← m.heap.deref (some timer)
  if m.didCancel then deleteTimer m timer
  else if m.didReset then return m
  else
    let (found, prev) ← getTimer m c.val.id
    if found != some timer then throw .gaveUp
    let m ← removeTimer m timer prev
    match renewValue c.val now toNextRun with
    | some t =>
      let heap ← m.heap.setVal timer t
      insertTimer { m with heap := heap } timer
    | none => deleteTimer { m with history := m.history ++ [.expired c.val.id] } timer

/-- The return of the running handler: `Timeout` settles the timer and goes on. Without a running
handler nothing returns. -/
def handlerReturns (x : Machine) (now : ℤ) (toNextRun : UInt32) (after : ℤ) :
    Except Fault (Machine × Option ℤ) :=
  match x.frame, x.manager.inTimeout with
  | some f, some timer => do
    let m ← settle x.manager timer now toNextRun
    serve m f after
  | _, _ => return (x, none)

/-- A step of daemon core: a call, by a handler or from outside, or the return of a handler. -/
inductive Call where
  | newTimer (addr : Addr) (deltawhen period : UInt32) (timeslice : Option UInt32) (now : ℤ)
  | resetTimer (id : ℤ) (r : Reset)
  | cancelTimer (id : ℤ)
  | timeout (now after : ℤ)
  | handlerReturns (now : ℤ) (toNextRun : UInt32) (after : ℤ)
deriving DecidableEq, Repr

/-- One step, with the answer to the caller when the call is over. -/
def step (x : Machine) : Call → Except Fault (Machine × Option ℤ)
  | .newTimer addr deltawhen period timeslice now => do
    let (m, r) ← newTimer x.manager addr deltawhen period timeslice now
    return ({ x with manager := m }, some r)
  | .resetTimer id r => do
    let (m, r) ← resetTimer x.manager id r
    return ({ x with manager := m }, some r)
  | .cancelTimer id => do
    let (m, r) ← cancelTimer x.manager id
    return ({ x with manager := m }, some r)
  | .timeout now after => timeout x now after
  | .handlerReturns now toNextRun after => handlerReturns x now toNextRun after

end Condor.Timers
