import Mathlib.Algebra.GroupWithZero.Nat
import Mathlib.Data.Fintype.Basic
import Mathlib.Data.Int.Basic

/-!
# DAGMan — the model of `condor_dagman`

A DAG has nodes `0, …, n - 1`. A node runs its PRE script, is submitted as a cluster of jobs, and
runs its POST script; it may be started again if it has failed. DAGMan learns of the jobs from the
events in a log, where it also writes the exits of its own scripts.

An assertion that fails, and any other exit of the process, is `none`. Only nodes of the type
`JOB` are modelled, without late materialization, and the DAG is never halted.
-/

namespace Condor.Dagman

open Function (update)

/-! ## The DAG -/

structure CondorID where
  cluster : ℤ
  proc : ℤ
  subproc : ℤ
deriving DecidableEq, Repr

def defaultCondorId : CondorID := ⟨-1, -1, -1⟩

/-- `Job::NOOP_NODE_PROCID`, the largest `int`. -/
def noopNodeProcId : ℤ := 2147483647

/-- `JobIsNoop`. -/
def CondorID.isNoop (id : CondorID) : Bool := id.cluster = 0 && id.proc = noopNodeProcId

/-- `GetIndexID`. -/
def CondorID.index (id : CondorID) : ℤ := if id.isNoop then id.subproc else id.cluster

/-- The place of an id in the tables for ids: which of the two, and where. -/
def CondorID.key (id : CondorID) : Bool × ℤ := (id.isNoop, id.index)

structure Spec (n : ℕ) where
  children : List (Fin n)
  /-- There is a PRE script. -/
  pre : Bool := false
  /-- There is a POST script. -/
  post : Bool := false
  preSkip : Option ℤ := none
  retryMax : ℤ := 0
  /-- The value of `UNLESS-EXIT`. -/
  retryAbortVal : Option ℤ := none
  /-- The value of `ABORT-DAG-ON`. -/
  abortDagVal : Option ℤ := none
  noop : Bool := false
  /-- The throttle of the node's category. -/
  throttle : Option ℕ := none
  effectivePriority : ℤ := 0
  /-- The node is marked `DONE`. -/
  preDone : Bool := false

/-- **A DAG file** with `n` nodes. -/
structure DagFile (n : ℕ) where
  node : Fin n → Spec n
  children_nodup : ∀ j, (node j).children.Nodup

variable {n : ℕ}

instance decidableMemNodes (j : Fin n) (l : List (Fin n)) : Decidable (j ∈ l) := inferInstance

/-- The parents of a node, in the order of their ids. -/
def DagFile.parents (D : DagFile n) (j : Fin n) : List (Fin n) :=
  (List.finRange n).filter fun p => j ∈ (D.node p).children

/-- Which bad events are allowed. -/
structure AllowEvents where
  almostAll : Bool := false
  termAbort : Bool := true
  runAfterTerm : Bool := false
  garbage : Bool := false
  execBeforeSubmit : Bool := true
  doubleTerminate : Bool := true
  duplicates : Bool := true

/-- The settings. -/
structure Config where
  /-- The limit of submitted nodes, or zero. -/
  maxJobs : ℕ := 0
  /-- The limits of the categories, where they are set. -/
  categoryMax : ℕ → Option ℕ := fun _ => none
  maxSubmitAttempts : ℤ := 6
  /-- The POST script is run even if the PRE script has failed. -/
  postRun : Bool := false
  putFailedJobsOnHold : Bool := false
  submitDepthFirst : Bool := false
  retryNodeFirst : Bool := false
  retrySubmitFirst : Bool := true
  abortOnScarySubmit : Bool := true
  allowEvents : AllowEvents := {}

/-! ## The state -/

/-- `Job::status_t`. -/
inductive Status where
  | notReady
  | ready
  | prerun
  | submitted
  | postrun
  | done
  | error
  | futile
deriving DecidableEq, Repr

/-- What changes of a node. The wait edge has a bit for each parent. -/
structure Job (n : ℕ) where
  status : Status
  wait : List (Fin n × Bool)
  numWaiting : ℤ
  parentsDone : Bool
  countedAsDone : Bool := false
  retries : ℤ := 0
  retryMax : ℤ
  submitTries : ℤ := 0
  retval : ℤ := -1
  /-- The PRE script is done. -/
  preScriptDone : Bool := false
  queuedNodeJobProcs : ℤ := 0
  numSubmittedProcs : ℤ := 0
  condorID : CondorID := defaultCondorId

/-- How a script or a job has exited. -/
inductive Exit where
  | exited (status : ℤ)
  | signaled (signal : ℤ)
deriving DecidableEq, Repr

/-- The exit is a normal one, with the value zero. -/
def Exit.isSuccess (e : Exit) : Bool := e = .exited 0

def Exit.retval : Exit → ℤ
  | .exited status => status
  | .signaled signal => 0 - signal

/-- The events that DAGMan acts on, those that it writes for scripts included. -/
inductive Event (n : ℕ) where
  | submit (id : CondorID) (node : Fin n)
  | terminated (id : CondorID) (exit : Exit)
  | aborted (id : CondorID)
  | postTerm (id : CondorID) (node : Fin n) (exit : Exit)
  | preSkip (id : CondorID) (node : Fin n)
deriving DecidableEq, Repr

structure JobInfo where
  submitCount : ℕ := 0
  abortCount : ℕ := 0
  termCount : ℕ := 0
  postScriptCount : ℕ := 0
deriving DecidableEq, Repr

def JobInfo.totalEndCount (i : JobInfo) : ℕ := i.abortCount + i.termCount

/-- **The state of DAGMan.** `preScripts` and `postScripts` run or wait, and `skips` and `posts` are
the events that it has written and not yet read. -/
structure State (n : ℕ) where
  jobs : Fin n → Job n
  readyQ : List (Fin n) := []
  /-- The jobs that a submit cycle puts back at its end. -/
  deferredJobs : List (Fin n) := []
  generation : ℤ := 0
  subPriority : Fin n → ℤ := fun _ => 0
  preScripts : List (Fin n) := []
  postScripts : List (Fin n) := []
  skips : List (CondorID × Fin n) := []
  posts : List (CondorID × Fin n × Exit) := []
  eventIDHash : Bool × ℤ → Option (Fin n) := fun _ => none
  jobHash : CondorID → JobInfo := fun _ => {}
  fakeID : ℤ := 0
  numJobsSubmitted : ℤ := 0
  currentJobs : ℕ → ℤ := fun _ => 0
  numNodesDone : ℤ := 0
  numNodesFailed : ℤ := 0
  numNodesFutile : ℤ := 0
  preRunNodeCount : ℤ := 0
  postRunNodeCount : ℤ := 0

def State.modify (s : State n) (j : Fin n) (f : Job n → Job n) : State n :=
  { s with jobs := update s.jobs j (f (s.jobs j)) }

def State.setStatus (s : State n) (j : Fin n) (status : Status) : State n :=
  s.modify j fun J => { J with status }

def State.setCondorID (s : State n) (j : Fin n) (condorID : CondorID) : State n :=
  s.modify j fun J => { J with condorID }

variable (D : DagFile n) (cfg : Config) (s : State n) (j : Fin n) (J : Job n) (a : AllowEvents)

def isWaiting : Bool := !(D.parents j).isEmpty && !J.parentsDone

def canSubmit : Bool := J.status = .ready && !isWaiting D j J

def doAbort : Bool := (D.node j).abortDagVal = some J.retval

def doRetry : Bool := !doAbort D j J && J.retries < J.retryMax

def Job.allProcsDone : Bool := J.queuedNodeJobProcs = 0

/-! ## Queues and counters -/

def State.prepend : State n :=
  { s with
    generation := s.generation + 1
    subPriority := update s.subPriority j (s.generation + 1)
    readyQ := s.readyQ ++ [j] }

def State.append : State n :=
  { s with
    generation := s.generation + 1
    subPriority := update s.subPriority j (-(s.generation + 1))
    readyQ := s.readyQ ++ [j] }

def jobSorter (a b : Fin n) : Bool :=
  (D.node a).effectivePriority < (D.node b).effectivePriority ||
    ((D.node a).effectivePriority = (D.node b).effectivePriority &&
      s.subPriority a < s.subPriority b)

/-- `DagPriorityQ::pop`. It takes a greatest node, which is the root of the heap as long as no node
is in the queue twice. -/
def State.pop : Option (Fin n × State n) :=
  match s.readyQ with
  | [] => none
  | a :: q =>
    let j := q.foldl (fun a b => if jobSorter D s a b then b else a) a
    some (j, { s with readyQ := s.readyQ.erase j })

def updateJobCounts (change : ℤ) : Option (State n) :=
  if s.numJobsSubmitted + change < 0 then none
  else match (D.node j).throttle with
    | none => some { s with numJobsSubmitted := s.numJobsSubmitted + change }
    | some k =>
      if s.currentJobs k + change < 0 then none
      else some { s with
        numJobsSubmitted := s.numJobsSubmitted + change
        currentJobs := update s.currentJobs k (s.currentJobs k + change) }

def decrementProcCount : Option (State n) :=
  let s := s.modify j fun J => { J with queuedNodeJobProcs := J.queuedNodeJobProcs - 1 }
  if (s.jobs j).queuedNodeJobProcs < 0 then none
  else if (s.jobs j).allProcsDone then updateJobCounts D s j (-1)
  else some s

/-! ## The moves of a node -/

def startNode (isRetry : Bool) : Option (State n) :=
  if !canSubmit D j (s.jobs j) then none
  else if (D.node j).pre && !(s.jobs j).preScriptDone then
    let s := s.setStatus j .prerun
    some { s with
      preRunNodeCount := s.preRunNodeCount + 1
      preScripts := s.preScripts ++ [j] }
  else if isRetry && cfg.retryNodeFirst then some (s.prepend j)
  else if cfg.submitDepthFirst then some (s.prepend j)
  else some (s.append j)

/-- `WaitEdge::MarkDone`: the bit of a parent is cleared, and the number of the others. -/
def markDone (p : Fin n) (J : Job n) : Job n :=
  if (p, true) ∈ J.wait then
    { J with
      wait := J.wait.map fun e => if e.1 = p then (p, false) else e
      numWaiting := J.numWaiting - 1 }
  else J

/-- `ParentComplete`: the only parent, or one of several with a wait edge, is done. -/
def parentComplete (j p : Fin n) (J : Job n) : Job n :=
  match D.parents j with
  | [] => J
  | [q] => if p = q then { J with parentsDone := true } else J
  | _ =>
    let J := markDone p J
    { J with parentsDone := J.numWaiting = 0 }

/-- `NotifyChildren`; children that wait no longer are started if `start`. -/
def notifyChildren (j : Fin n) (start : Bool) : List (Fin n) → State n → Option (State n)
  | [], s => some s
  | c :: cs, s => do
    let s := s.modify c (parentComplete D c j)
    if start && !isWaiting D c (s.jobs c) && (s.jobs c).status = .ready then
      let s ← startNode D cfg s c false
      notifyChildren j start cs s
    else notifyChildren j start cs s

def terminateJob (recovery bootstrap : Bool) : Option (State n) :=
  let s := s.setStatus j .done
  if (s.jobs j).countedAsDone then some s
  else
    let s := s.modify j fun J => { J with countedAsDone := true }
    let s := { s with numNodesDone := s.numNodesDone + 1 }
    if s.numNodesDone > (n : ℤ) then none
    else notifyChildren D cfg j (!(bootstrap || recovery)) (D.node j).children s

/-- The loop of `SetDescendantsToFutile` over the children; `rec` goes on with one of them. -/
def setChildrenToFutile (rec : State n → Fin n → Option (State n × ℤ)) :
    List (Fin n) → State n → ℤ → Option (State n × ℤ)
  | [], s, count => some (s, count)
  | c :: cs, s, count =>
    if (s.jobs c).status = .futile then setChildrenToFutile rec cs s count
    else if (D.node c).preDone then do
      let (s, m) ← rec s c
      setChildrenToFutile rec cs s (count + m)
    else if canSubmit D c (s.jobs c) then none
    else do
      let (s, m) ← rec (s.setStatus c .futile) c
      setChildrenToFutile rec cs s (count + 1 + m)

/-- `SetDescendantsToFutile`, with the number of nodes that have become futile. -/
def setDescendantsToFutile : ℕ → State n → Fin n → Option (State n × ℤ)
  | 0, _, _ => none
  | k + 1, s, j => setChildrenToFutile D (setDescendantsToFutile k) (D.node j).children s 0

/-- The descendants become futile, and they are counted. -/
def countFutile : Option (State n) := do
  let (s, m) ← setDescendantsToFutile D (n + 1) s j
  some { s with numNodesFutile := s.numNodesFutile + m }

def restartNode (recovery : Bool) : Option (State n) :=
  if (s.jobs j).status ≠ .error then none
  else if (D.node j).retryAbortVal = some (s.jobs j).retval then
    some { s with numNodesFailed := s.numNodesFailed + 1 }
  else
    let s := s.modify j fun J => { J with
      status := .ready
      retries := J.retries + 1
      numSubmittedProcs := 0
      preScriptDone := false }
    if (s.jobs j).retries > (s.jobs j).retryMax then none
    else if !recovery then startNode D cfg s j true
    else if (s.jobs j).condorID ≠ defaultCondorId then
      let key := ((D.node j).noop, (s.jobs j).condorID.index)
      if (s.eventIDHash key).isNone then none
      else some ({ s with eventIDHash := update s.eventIDHash key none }.setCondorID j
        defaultCondorId)
    else some (s.setCondorID j defaultCondorId)

/-- `RunPostScript`, for a node with a POST script. -/
def runPostScript : State n :=
  let s := s.setStatus j .postrun
  { s with
    postRunNodeCount := s.postRunNodeCount + 1
    postScripts := s.postScripts ++ [j] }

/-- `CheckForDagAbort`: DAGMan is shut down. -/
def checkForDagAbort : Option (State n) :=
  if doAbort D j (s.jobs j) then none else some s

/-! ## Which node an event is for -/

/-- `FindNodeByEventID`. The node may have no id, if it has been started again. -/
def findNodeByEventID (id : CondorID) : Option (Option (Fin n)) :=
  if id.cluster = -1 then some none
  else match s.eventIDHash id.key with
    | none => some none
    | some j =>
      let cluster := (s.jobs j).condorID.cluster
      if id.cluster ≠ cluster ∧ cluster ≠ -1 then none
      else if id.isNoop ≠ (D.node j).noop then none
      else some (some j)

/-- The node gets the id, and the table for ids gets the node. -/
def insertEventID (id : CondorID) (j : Fin n) : Option (State n) :=
  let s := s.setCondorID j id
  match s.eventIDHash id.key with
  | none => some { s with eventIDHash := update s.eventIDHash id.key (some j) }
  | some i => if i = j then some s else none

def sanityCheckSubmitEvent (J : Job n) (id : CondorID) : Option Bool :=
  if J.condorID = defaultCondorId then some true
  else if id.cluster = J.condorID.cluster then some true
  else if cfg.abortOnScarySubmit then none
  else some false

/-- `LogEventNodeLookup`: the node, if the event is for one, and whether a submit event is sane. -/
def logEventNodeLookup : Event n → Option (State n × Option (Fin n) × Bool)
  | .submit id j => do
    let sane ← sanityCheckSubmitEvent cfg (s.jobs j) id
    if id.isNoop ≠ (D.node j).noop then none
    else
      let s ← insertEventID s id j
      some (s, some j, sane)
  | .terminated id _ => do
    let j ← findNodeByEventID D s id
    some (s, j, false)
  | .aborted id => do
    let j ← findNodeByEventID D s id
    some (s, j, false)
  | .postTerm id node _ => do
    match ← findNodeByEventID D s id with
    | some j => some (s, some j, false)
    | none => some (s, if id.cluster = -1 then some node else none, false)
  | .preSkip id j => do
    let s ← insertEventID s id j
    some (s, some j, false)

/-! ## Which events are good -/

/-- `CheckEvents::check_event_result_t`. -/
inductive CheckResult where
  | okay
  | badEvent
  | error
  | warning
deriving DecidableEq, Repr

def AllowEvents.allowDuplicates : Bool := a.almostAll || a.duplicates

def AllowEvents.allowGarbage : Bool := a.almostAll || a.garbage

def AllowEvents.allowExecSubmit : Bool := a.almostAll || a.execBeforeSubmit

def badIf (allowed : Bool) : CheckResult := if allowed then .badEvent else .error

def checkJobSubmit (i : JobInfo) : CheckResult :=
  if i.totalEndCount ≠ 0 then badIf a.allowExecSubmit
  else if i.submitCount ≠ 1 then badIf a.allowDuplicates
  else .okay

def checkJobEnd (i : JobInfo) : CheckResult :=
  if i.postScriptCount ≠ 0 then badIf a.allowDuplicates
  else if i.totalEndCount ≠ 1 then
    badIf ((a.almostAll || a.termAbort) && i.abortCount = 1 && i.termCount = 1 ||
      (a.almostAll || a.doubleTerminate) && i.termCount = 2 || a.runAfterTerm || a.allowDuplicates)
  else if i.submitCount < 1 then
    if a.allowExecSubmit || a.allowGarbage then .warning else .error
  else .okay

/-- `CheckPostTerm`. A POST script may be run although all submissions have failed. -/
def checkPostTerm (id : CondorID) (i : JobInfo) : CheckResult :=
  if id = ⟨-1, 0, 0⟩ ∧ i.submitCount = 0 ∧ i.termCount = 0 ∧ i.postScriptCount ≥ 1 then .okay
  else if i.postScriptCount > 1 then badIf (a.allowDuplicates || a.allowGarbage)
  else if i.totalEndCount < 1 then badIf a.almostAll
  else if i.submitCount < 1 then badIf (a.allowDuplicates || a.allowGarbage)
  else .okay

def Event.id : Event n → CondorID
  | .submit id _ | .terminated id _ | .aborted id | .postTerm id _ _ | .preSkip id _ => id

def JobInfo.count (i : JobInfo) : Event n → JobInfo
  | .submit _ _ => { i with submitCount := i.submitCount + 1 }
  | .terminated _ _ => { i with termCount := i.termCount + 1 }
  | .aborted _ => { i with abortCount := i.abortCount + 1 }
  | .postTerm _ _ _ => { i with postScriptCount := i.postScriptCount + 1 }
  | .preSkip _ _ => i

/-- `CheckAnEvent`, with the event counted. -/
def checkAnEvent (i : JobInfo) : Event n → CheckResult
  | .submit _ _ => checkJobSubmit a i
  | .terminated _ _ | .aborted _ => checkJobEnd a i
  | .postTerm id _ _ => checkPostTerm a id i
  | .preSkip _ _ => .okay

/-- `EventSanityCheck`: the event is processed. -/
def CheckResult.isProcessed (r : CheckResult) : Bool := r = .okay || r = .warning

/-! ## Events -/

def processSubmitEvent (recovery sane : Bool) : Option (State n) :=
  if isWaiting D j (s.jobs j) then none
  else
    let counts := sane || (s.jobs j).status ≠ .submitted
    let s := if counts then s.modify j fun J => { J with
        queuedNodeJobProcs := J.queuedNodeJobProcs + 1
        numSubmittedProcs := J.numSubmittedProcs + 1 }
      else s
    if recovery then do
      let s ← if counts && (s.jobs j).numSubmittedProcs = 1 then updateJobCounts D s j 1 else some s
      some (s.setStatus j .submitted)
    else some s

def processJobProcEnd (recovery failed : Bool) : Option (State n) :=
  let J := s.jobs j
  if failed && !(D.node j).post then
    if doRetry D j J then
      if J.allProcsDone then restartNode D cfg s j recovery else some s
    else if cfg.putFailedJobsOnHold then
      if J.allProcsDone then
        restartNode D cfg (s.modify j fun J => { J with retryMax := J.retryMax + 1 }) j recovery
      else some s
    else if J.queuedNodeJobProcs = 0 then some { s with numNodesFailed := s.numNodesFailed + 1 }
    else some s
  else if J.allProcsDone then
    if (D.node j).post then
      if recovery then
        let s := s.setStatus j .postrun
        some { s with postRunNodeCount := s.postRunNodeCount + 1 }
      else some (runPostScript s j)
    else if J.status ≠ .error then terminateJob D cfg s j recovery false
    else some s
  else some s

/-- A job of the node has failed. The first one gives the node its return value. -/
def procFailed (retval : ℤ) : Option (State n) :=
  let s := if (s.jobs j).status ≠ .error then s.modify j fun J =>
    { J with status := .error, retval }
    else s
  if !(D.node j).post && !doRetry D j (s.jobs j) then countFutile D s j else some s

def dagErrorCondorJobAborted : ℤ := -1002

def processAbortEvent (recovery : Bool) : Option (State n) := do
  let s ← decrementProcCount D s j
  let s ← procFailed D s j dagErrorCondorJobAborted
  processJobProcEnd D cfg s j recovery true

def processTerminatedEvent (exit : Exit) (recovery : Bool) : Option (State n) := do
  let s ← decrementProcCount D s j
  let s ← if !exit.isSuccess then procFailed D s j exit.retval
    else if (s.jobs j).status ≠ .error then some (s.modify j fun J => { J with retval := 0 })
    else some s
  let s ← processJobProcEnd D cfg s j recovery (!exit.isSuccess)
  if (D.node j).post then some s else checkForDagAbort D s j

def processPostTermEvent (exit : Exit) (recovery : Bool) : Option (State n) := do
  let s ← if (s.jobs j).status = .postrun then
      some { s with postRunNodeCount := s.postRunNodeCount - 1 }
    else if recovery then some s else none
  let s ← if !exit.isSuccess then
      let s := s.modify j fun J => { J with status := .error, retval := exit.retval }
      if doRetry D j (s.jobs j) then restartNode D cfg s j recovery
      else do
        let s ← countFutile D s j
        some { s with numNodesFailed := s.numNodesFailed + 1 }
    else terminateJob D cfg (s.modify j fun J => { J with retval := 0 }) j recovery false
  checkForDagAbort D s j

def processEvent (recovery sane : Bool) : Event n → Option (State n)
  | .submit _ _ => processSubmitEvent D s j recovery sane
  | .terminated _ exit => processTerminatedEvent D cfg s j exit recovery
  | .aborted _ => processAbortEvent D cfg s j recovery
  | .postTerm _ _ exit => processPostTermEvent D cfg s j exit recovery
  | .preSkip _ _ => do
    let s ← terminateJob D cfg s j recovery false
    some (if recovery then s else { s with preRunNodeCount := s.preRunNodeCount - 1 })

/-- **`ProcessOneEvent`.** -/
def processOneEvent (e : Event n) (recovery : Bool) : Option (State n) := do
  match ← logEventNodeLookup D cfg s e with
  | (s, none, _) => some s
  | (s, some j, sane) =>
    let info := (s.jobHash e.id).count e
    let s := { s with jobHash := update s.jobHash e.id info }
    if (checkAnEvent cfg.allowEvents info e).isProcessed then processEvent D cfg s j recovery sane e
    else some s

/-! ## Scripts -/

/-- The next id for nodes that are not really submitted. -/
def State.nextFakeID : CondorID := ⟨0, noopNodeProcId, s.fakeID + 1⟩

def writePreSkipEvent : State n :=
  { s.setCondorID j s.nextFakeID with
    fakeID := s.fakeID + 1
    skips := s.skips ++ [(s.nextFakeID, j)] }

def preScriptReaper (exit : Exit) : Option (State n) :=
  if (s.jobs j).status ≠ .prerun then none
  else
    let s := { s with preRunNodeCount := s.preRunNodeCount - 1 }
    let s := s.modify j fun J => { J with retval := exit.retval }
    let done : Option (State n) :=
      if !exit.isSuccess then
        if (D.node j).preSkip = some (s.jobs j).retval then
          let s := writePreSkipEvent s j
          let s := { s with preRunNodeCount := s.preRunNodeCount + 1 }
          some (s.modify j fun J => { J with preScriptDone := true, retval := 0 })
        else if cfg.postRun && (D.node j).post then some (runPostScript s j)
        else if doRetry D j (s.jobs j) then restartNode D cfg (s.setStatus j .error) j false
        else do
          let s ← countFutile D (s.setStatus j .error) j
          some { s with numNodesFailed := s.numNodesFailed + 1 }
      else
        let s := s.setStatus j .ready
        if cfg.submitDepthFirst then some (s.prepend j) else some (s.append j)
    do
      let s ← done
      checkForDagAbort D s j

/-- `PostScriptReaper`, which only writes an event. The proc is needed for NOOP nodes only. -/
def postScriptReaper (exit : Exit) : Option (State n) :=
  if (s.jobs j).status ≠ .postrun then none
  else
    let id := (s.jobs j).condorID
    let id : CondorID := if (D.node j).noop then id else ⟨id.cluster, 0, 0⟩
    some { s with posts := s.posts ++ [(id, j, exit)] }

/-! ## Submissions -/

/-- `SubmitNodeJob` until the submission itself: the last id is forgotten. -/
def submitNodeJob : Option (State n) :=
  let id := (s.jobs j).condorID
  let key := ((D.node j).noop, id.index)
  let s := s.modify j fun J => { J with
    condorID := defaultCondorId
    submitTries := J.submitTries + 1 }
  if id.cluster = -1 then some s
  else if (s.eventIDHash key).isNone then none
  else some { s with eventIDHash := update s.eventIDHash key none }

def processSuccessfulSubmit (id : CondorID) : Option (State n) := do
  let s ← updateJobCounts D (s.setStatus j .submitted) j 1
  let s := s.setCondorID j id
  if id.isNoop ≠ (D.node j).noop then none
  else if (s.eventIDHash id.key).isSome then none
  else some { s with eventIDHash := update s.eventIDHash id.key (some j) }

def processFailedSubmit : Option (State n) :=
  if (s.jobs j).submitTries ≥ cfg.maxSubmitAttempts then
    let s := s.modify j fun J => { J with retries := J.retryMax }
    if (D.node j).post then some (runPostScript s j)
    else
      let s := s.setStatus j .error
      countFutile D { s with numNodesFailed := s.numNodesFailed + 1 } j
  else if cfg.retrySubmitFirst then some (s.prepend j)
  else some (s.append j)

/-! ## The verdict -/

def finishedRunning : Bool :=
  s.numJobsSubmitted = 0 && s.readyQ.isEmpty && s.preRunNodeCount + s.postRunNodeCount = 0

def doneSuccess : Bool := finishedRunning s && s.numNodesDone = (n : ℤ)

def doneFailed : Bool := finishedRunning s && s.numNodesFailed > 0

def doneCycle : Bool :=
  finishedRunning s && !doneSuccess s && s.numNodesFailed = 0

/-! ## The beginning -/

/-- The node as the parser leaves it, after `AdjustEdges` and `SetPreDoneNodes`. -/
def initialJob : Job n where
  status := if (D.node j).preDone then .done else .ready
  wait := (D.parents j).map fun p => (p, true)
  numWaiting := (D.parents j).length
  parentsDone := (D.parents j).isEmpty
  retryMax := (D.node j).retryMax

/-- The loop of `Bootstrap` over the nodes that are marked `DONE`. -/
def terminateDone : List (Fin n) → State n → Option (State n)
  | [], s => some s
  | j :: js, s =>
    if (s.jobs j).status = .done then do
      let s ← terminateJob D cfg s j false true
      terminateDone js s
    else terminateDone js s

/-- The last loop of `Bootstrap`. -/
def startReady : List (Fin n) → State n → Option (State n)
  | [], s => some s
  | j :: js, s =>
    if canSubmit D j (s.jobs j) then do
      let s ← startNode D cfg s j false
      startReady js s
    else startReady js s

/-- `Bootstrap` before the log is read. -/
def begin : Option (State n) := terminateDone D cfg (List.finRange n) { jobs := initialJob D }

/-- `Bootstrap` without recovery. -/
def bootstrap : Option (State n) := do
  let s ← begin D cfg
  startReady D cfg (List.finRange n) s

/-- `ProcessLogEvents` in recovery mode. -/
def processLog : List (Event n) → State n → Option (State n)
  | [], s => some s
  | e :: es, s => do
    let s ← processOneEvent D cfg s e true
    processLog es s

end Condor.Dagman
