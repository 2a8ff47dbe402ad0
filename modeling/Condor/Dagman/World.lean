import Condor.Dagman.Model

/-!
# DAGMan and its jobs

A run of DAGMan is a sequence of submit cycles, exits of scripts and events. The log is faithful:
an accepted cluster has a submit event for each of its jobs, then each of them terminates or is
aborted once, and the events that DAGMan writes for its scripts are read once.
-/

namespace Condor.Dagman

variable {n : ℕ}

/-- The jobs of a cluster without a submit event in the log, and those that have not ended. -/
structure Cluster where
  pending : List CondorID
  running : List CondorID
deriving DecidableEq, Repr

variable (c : Cluster)

def Cluster.isOver : Bool := c.pending.isEmpty && c.running.isEmpty

def Cluster.submit (id : CondorID) : Cluster :=
  if id ∈ c.pending then ⟨c.pending.erase id, id :: c.running⟩ else c

def Cluster.finish (id : CondorID) : Cluster := ⟨c.pending, c.running.erase id⟩

/-- The job may end: all of the cluster have been submitted. -/
def Cluster.mayEnd (id : CondorID) : Bool :=
  c.pending.isEmpty && c.running.contains id

/-- **DAGMan and its jobs**: the clusters that are not over, the cluster numbers, and the events so
far. -/
structure World (n : ℕ) where
  dag : State n
  clusters : Fin n → List Cluster := fun _ => []
  used : List ℤ := []
  log : List (Event n) := []

/-- The answer to a submission. -/
inductive Outcome where
  | accepted (cluster : ℤ) (procs : ℕ)
  | failed
deriving DecidableEq, Repr

variable (D : DagFile n) (cfg : Config)

/-! ## Submit cycles -/

variable (w : World n)

def World.setClusters (j : Fin n) (cs : List Cluster) : World n :=
  { w with clusters := Function.update w.clusters j cs }

def World.accept (j : Fin n) (ids : List CondorID) : World n :=
  w.setClusters j (⟨ids, []⟩ :: w.clusters j)

/-- An accepted submission. The cluster is new; a NOOP node gets an id of its own kind. -/
def submitAccepted (j : Fin n) (cluster : ℤ) (procs : ℕ) : Option (World n) := do
  let s ← submitNodeJob D w.dag j
  if (D.node j).noop then
    let s' ← processSuccessfulSubmit D { s with fakeID := s.fakeID + 1 } j s.nextFakeID
    some ({ w with dag := s' }.accept j [s.nextFakeID])
  else if 0 < cluster ∧ cluster ∉ w.used ∧ 0 < procs then do
    let s ← processSuccessfulSubmit D s j ⟨cluster, 0, 0⟩
    some ({ w with dag := s, used := cluster :: w.used }.accept j
      ((List.range procs).map fun p : ℕ => ⟨cluster, p, 0⟩))
  else none

def submitFailed (j : Fin n) : Option (World n) := do
  let s ← submitNodeJob D w.dag j
  let s ← processFailedSubmit D cfg s j
  some { w with dag := s }

def returnDeferred : World n :=
  { w with dag := { w.dag.deferredJobs.foldl State.prepend w.dag with deferredJobs := [] } }

/-- The throttle of the node's category does not let it through. -/
def isThrottled (s : State n) (j : Fin n) : Bool :=
  match (D.node j).throttle with
  | none => false
  | some k =>
    match cfg.categoryMax k with
    | none => false
    | some m => (m : ℤ) ≤ s.currentJobs k

/-- The loop of `SubmitReadyJobs`. It ends with the answers, for a limit that is not modelled. -/
def submitLoop : List Outcome → World n → Option (World n)
  | [], w => some w
  | o :: os, w =>
    match w.dag.pop D with
    | none => some w
    | some (j, s) =>
      if cfg.maxJobs ≠ 0 ∧ (cfg.maxJobs : ℤ) ≤ s.numJobsSubmitted then some w
      else if (s.jobs j).status ≠ .ready then none
      else if isThrottled D cfg s j then
        submitLoop os { w with dag := { s with deferredJobs := s.deferredJobs ++ [j] } }
      else match o with
        | .accepted cluster procs => do
          let w ← submitAccepted D { w with dag := s } j cluster procs
          submitLoop os w
        | .failed => submitFailed D cfg { w with dag := s } j

/-- **`SubmitReadyJobs`.** -/
def submitReadyJobs (w : World n) (outcomes : List Outcome) : Option (World n) :=
  (submitLoop D cfg outcomes w).map returnDeferred

/-! ## Runs -/

/-- What happens next. -/
inductive Label (n : ℕ) where
  | submit (outcomes : List Outcome)
  | preExit (j : Fin n) (exit : Exit)
  | postExit (j : Fin n) (exit : Exit)
  | event (e : Event n)
deriving DecidableEq, Repr

def World.ending (w : World n) (id : CondorID) : Option (Fin n) :=
  (List.finRange n).find? fun j => (w.clusters j).any fun c => c.mayEnd id

def World.finish (w : World n) (id : CondorID) : Option (World n) := do
  let j ← w.ending id
  some (w.setClusters j (((w.clusters j).map fun c => c.finish id).filter fun c => !c.isOver))

def World.deliver (w : World n) : Event n → Option (World n)
  | .submit id j =>
    if (w.clusters j).any fun c => c.pending.contains id then
      some (w.setClusters j ((w.clusters j).map fun c => c.submit id))
    else none
  | .terminated id _ | .aborted id => w.finish id
  | .postTerm id j exit =>
    if (id, j, exit) ∈ w.dag.posts then
      some { w with dag := { w.dag with posts := w.dag.posts.erase (id, j, exit) } }
    else none
  | .preSkip id j =>
    if (id, j) ∈ w.dag.skips then
      some { w with dag := { w.dag with skips := w.dag.skips.erase (id, j) } }
    else none

/-- **A step of a run**; there is none if it is not possible or if DAGMan exits. -/
def World.step (w : World n) : Label n → Option (World n)
  | .submit outcomes => submitReadyJobs D cfg w outcomes
  | .preExit j exit =>
    if j ∈ w.dag.preScripts then do
      let s := { w.dag with preScripts := w.dag.preScripts.erase j }
      let s ← preScriptReaper D cfg (s.modify j fun J => { J with preScriptDone := true }) j exit
      some { w with dag := s }
    else none
  | .postExit j exit =>
    if j ∈ w.dag.postScripts then do
      let s := { w.dag with postScripts := w.dag.postScripts.erase j }
      let s ← postScriptReaper D s j exit
      some { w with dag := s }
    else none
  | .event e => do
    let w ← w.deliver e
    let s ← processOneEvent D cfg w.dag e false
    some { w with dag := s, log := w.log ++ [e] }

def World.start : Option (World n) := (bootstrap D cfg).map fun s => { dag := s }

def World.steps : List (Label n) → World n → Option (World n)
  | [], w => some w
  | l :: ls, w => do
    let w ← w.step D cfg l
    World.steps ls w

/-- **A run of DAGMan** without recovery. -/
def World.run (ls : List (Label n)) : Option (World n) := do
  let w ← World.start D cfg
  World.steps D cfg ls w

/-! ## What a step can do

Whatever DAGMan does, it takes a node from the place where it has waited, changes it while it has
it in hand, and puts it into another place. Four kinds of moves are quirks of the code. A quirk is
allowed in a chain of moves only if `ok` says so; the same goes for the nodes that a submit cycle
puts back.
-/

open Function

def Descendant (D : DagFile n) : Fin n → Fin n → Prop :=
  Relation.TransGen fun p c => c ∈ (D.node p).children

/-- What has become of the node in hand: its descendants may have been made futile while it still
ran, or now; or it is skipped, and its id is not its own. -/
inductive Mark where
  | fine
  | doomed
  | marked
  | skipped
deriving DecidableEq, Repr

/-- The node that DAGMan has in hand. -/
inductive Hold (n : ℕ) where
  | free
  | held (j : Fin n) (m : Mark)
deriving DecidableEq, Repr

/-- **The quirks.** -/
inductive Quirk where
  /-- The last job of a cluster has succeeded after another one has failed. -/
  | stuck
  /-- The descendants become futile while jobs of the cluster are still running. -/
  | early
  /-- The node is started again on hold, although its descendants are futile. -/
  | onHold
  /-- The node is given up for its return value, but its descendants are not futile. -/
  | unlessExit
  /-- The node is put back until the end of a submit cycle, which is no fault. -/
  | deferred
deriving DecidableEq, Repr

/-- What is kept of a node while it is in hand: all that other nodes and the log depend on. -/
structure Kept (J' J : Job n) : Prop where
  wait : J'.wait = J.wait
  numWaiting : J'.numWaiting = J.numWaiting
  parentsDone : J'.parentsDone = J.parentsDone
  countedAsDone : J'.countedAsDone = J.countedAsDone
  queued : J'.queuedNodeJobProcs = J.queuedNodeJobProcs
  condorID : J'.condorID = J.condorID

def World.withDag (w : World n) (s : State n) : World n := { w with dag := s }

/-- The node has failed for good, and its descendants have become futile for that. -/
def isDoomed (D : DagFile n) (j : Fin n) (J : Job n) : Bool :=
  J.status = .error && !(D.node j).post && !doRetry D j J

def postID (D : DagFile n) (j : Fin n) (id : CondorID) : CondorID :=
  if (D.node j).noop then id else ⟨id.cluster, 0, 0⟩

variable (ok : Quirk → Prop)

/-- **The moves**, from a state of the system with a node in hand to another one. -/
inductive Move : World n → Hold n → World n → Hold n → Prop
  | log (w : World n) (h : Hold n) (es : List (Event n)) : Move w h { w with log := es } h
  | queue (w : World n) (q ds : List (Fin n)) (g : ℤ) (p : Fin n → ℤ)
      (hq : (q ++ ds).Perm (w.dag.readyQ ++ w.dag.deferredJobs)) (hd : ds = [] ∨ ok .deferred) :
      Move w .free (w.withDag { w.dag with
        readyQ := q, deferredJobs := ds, generation := g, subPriority := p }) .free
  | takeReady (w : World n) (j : Fin n) (hj : j ∈ w.dag.readyQ) :
      Move w .free (w.withDag { w.dag with readyQ := w.dag.readyQ.erase j }) (.held j .fine)
  | takePre (w : World n) (j : Fin n) (hj : j ∈ w.dag.preScripts)
      (hs : (w.dag.jobs j).status = .prerun) :
      Move w .free (w.withDag { w.dag with
        preScripts := w.dag.preScripts.erase j
        preRunNodeCount := w.dag.preRunNodeCount - 1 }) (.held j .fine)
  | takePost (w : World n) (id : CondorID) (j : Fin n) (x : Exit) (info : JobInfo)
      (hj : (id, j, x) ∈ w.dag.posts) (hs : (w.dag.jobs j).status = .postrun) :
      Move w .free (w.withDag { w.dag with
        posts := w.dag.posts.erase (id, j, x)
        jobHash := update w.dag.jobHash id info
        postRunNodeCount := w.dag.postRunNodeCount - 1 }) (.held j .fine)
  | dropPost (w : World n) (id : CondorID) (j : Fin n) (x : Exit) (info : JobInfo)
      (hj : (id, j, x) ∈ w.dag.posts) :
      Move w .free (w.withDag { w.dag with
        posts := w.dag.posts.erase (id, j, x)
        jobHash := update w.dag.jobHash id info }) .free
  | takeSkip (w : World n) (id : CondorID) (j : Fin n) (s : State n) (hj : (id, j) ∈ w.dag.skips)
      (hs : insertEventID { w.dag with
        skips := w.dag.skips.erase (id, j)
        preRunNodeCount := w.dag.preRunNodeCount - 1 } id j = some s) :
      Move w .free (w.withDag s) (.held j .skipped)
  | endLast (w : World n) (j : Fin n) (c : Cluster) (id : CondorID) (info : JobInfo) (s : State n)
      (hc : w.clusters j = [c]) (hend : c.mayEnd id = true) (hover : (c.finish id).isOver = true)
      (hs : decrementProcCount D { w.dag with
        jobHash := update w.dag.jobHash id info } j = some s) :
      Move w .free ((w.withDag s).setClusters j [])
        (.held j (if isDoomed D j (w.dag.jobs j) then .doomed else .fine))
  | endMore (w : World n) (j : Fin n) (c : Cluster) (id : CondorID) (info : JobInfo) (s : State n)
      (hc : w.clusters j = [c]) (hend : c.mayEnd id = true) (hover : (c.finish id).isOver = false)
      (hs : decrementProcCount D { w.dag with
        jobHash := update w.dag.jobHash id info } j = some s) :
      Move w .free ((w.withDag s).setClusters j [c.finish id]) .free
  | submitEvent (w : World n) (j : Fin n) (c : Cluster) (id : CondorID) (hc : w.clusters j = [c])
      (hp : id ∈ c.pending) :
      Move w .free ((w.withDag ({ w.dag with
          jobHash := update w.dag.jobHash id { submitCount := 1 } }.modify j fun J =>
        { J with
          condorID := id
          queuedNodeJobProcs := J.queuedNodeJobProcs + 1
          numSubmittedProcs := J.numSubmittedProcs + 1 })).setClusters j [c.submit id]) .free
  | touch (w : World n) (j : Fin n) (m : Mark) (f : Job n → Job n)
      (hf : Kept (f (w.dag.jobs j)) (w.dag.jobs j)) :
      Move w (.held j m) (w.withDag (w.dag.modify j f)) (.held j m)
  | fault (w : World n) (j : Fin n) (c : Cluster) (f : Job n → Job n) (hc : w.clusters j = [c])
      (hp : c.pending = []) (hf : Kept (f (w.dag.jobs j)) (w.dag.jobs j))
        (he : (w.dag.jobs j).status ≠ .error)
      (hs : (f (w.dag.jobs j)).status = (w.dag.jobs j).status ∨
        (f (w.dag.jobs j)).status = .error) :
      Move w .free (w.withDag (w.dag.modify j f)) .free
  | futile (w : World n) (j : Fin n) (m : Mark) (s : State n) (hm : m = .fine ∨ m = .doomed)
      (hs : countFutile D w.dag j = some s) :
      Move w (.held j m) (w.withDag s) (.held j .marked)
  | early (w : World n) (j : Fin n) (s : State n) (hc : w.clusters j ≠ [])
      (hd : isDoomed D j (w.dag.jobs j) = true) (hok : ok .early ∨ (D.node j).children = [])
      (hs : countFutile D w.dag j = some s) : Move w .free (w.withDag s) .free
  | enqueue (w : World n) (j : Fin n) (m : Mark) (g : ℤ) (p : Fin n → ℤ)
      (hs : (w.dag.jobs j).status = .ready)
      (hm : m = .fine ∨ m = .marked ∧ (ok .onHold ∨ (D.node j).children = [])) :
      Move w (.held j m) (w.withDag { w.dag with
        readyQ := w.dag.readyQ ++ [j], generation := g, subPriority := p }) .free
  | prerun (w : World n) (j : Fin n) (m : Mark)
      (hm : m = .fine ∨ m = .marked ∧ (ok .onHold ∨ (D.node j).children = [])) :
      Move w (.held j m) (w.withDag { w.dag.setStatus j .prerun with
        preRunNodeCount := w.dag.preRunNodeCount + 1
        preScripts := w.dag.preScripts ++ [j] }) .free
  | post (w : World n) (j : Fin n) :
      Move w (.held j .fine) (w.withDag (runPostScript w.dag j)) .free
  | postExit (w : World n) (j : Fin n) (x : Exit) (hj : j ∈ w.dag.postScripts)
      (hs : (w.dag.jobs j).status = .postrun) :
      Move w .free (w.withDag { w.dag with
        postScripts := w.dag.postScripts.erase j
        posts := w.dag.posts ++ [(postID D j (w.dag.jobs j).condorID, j, x)] }) .free
  | skip (w : World n) (j : Fin n) (hs : (w.dag.jobs j).status = .prerun) :
      Move w (.held j .fine) (w.withDag { writePreSkipEvent w.dag j with
        preRunNodeCount := w.dag.preRunNodeCount + 1 }) .free
  | fail (w : World n) (j : Fin n) (m : Mark) (hs : (w.dag.jobs j).status = .error ∨
        (w.dag.jobs j).status = .futile ∧ Descendant D j j)
      (hm : m = .marked ∨ m = .fine ∧ (ok .unlessExit ∨ (D.node j).children = [])) :
      Move w (.held j m) (w.withDag { w.dag with numNodesFailed := w.dag.numNodesFailed + 1 }) .free
  | stuck (w : World n) (j : Fin n) (m : Mark) (hm : m ≠ .skipped)
      (hs : (w.dag.jobs j).status = .error) (hok : ok .stuck) : Move w (.held j m) w .free
  | done (w : World n) (j : Fin n) (m : Mark) (s : State n) (hm : m = .fine ∨ m = .skipped)
      (hs : terminateJob D cfg w.dag j false false = some s) :
      Move w (.held j m) (w.withDag s) .free
  | forget (w : World n) (j : Fin n) (s : State n) (hs : submitNodeJob D w.dag j = some s) :
      Move w (.held j .fine) (w.withDag s) (.held j .fine)
  | accept (w : World n) (j : Fin n) (cluster : ℤ) (procs : ℕ) (w' : World n)
      (hs : submitAccepted D w j cluster procs = some w')
      (hmax : cfg.maxJobs = 0 ∨ w.dag.numJobsSubmitted < cfg.maxJobs)
      (hcat : isThrottled D cfg w.dag j = false) : Move w (.held j .fine) w' .free

/-- **A chain of moves.** -/
def Moves (w : World n) (h : Hold n) (w' : World n) (h' : Hold n) : Prop :=
  Relation.ReflTransGen
    (fun a b : World n × Hold n => Move D cfg ok a.1 a.2 b.1 b.2) (w, h) (w', h')

end Condor.Dagman
