import Mathlib.Algebra.GroupWithZero.Nat
import Mathlib.Algebra.BigOperators.Group.List.Basic
import Mathlib.Algebra.Group.Prod

/-!
# Process families — the model of `ProcFamilyMonitor`

The monitor keeps the processes of a machine in families. A family has a list of its members, linked
in both directions; the families form a tree with links to the parent, the first child and the next
sibling; two tables lead from pids to members and from root pids to families. All processes that
belong to no family of the tree are in a family of their own.

The heap has one function for each field. A tree node and the family that it holds have the same
address. Loops over links take as many steps as there have been addresses, and a run that wants
more, or fails an assertion, does not return. Times are pairs of the user and the system time.
Memory is not given back, and image sizes and snapshot intervals are not looked at.
-/

namespace Condor.Procd

open Function

abbrev Addr : Type := ℕ

abbrev Times : Type := ℕ × ℕ

structure ProcInfo where
  pid : ℤ
  ppid : ℤ
  birthday : ℤ
  times : Times
deriving DecidableEq, Repr

/-- What a family has been registered with. -/
structure Registration where
  rootPid : ℤ
  rootBirthday : ℤ
  watcherPid : ℤ
  maxSnapshotInterval : ℤ
deriving DecidableEq, Repr

/-- `ProcFamilyMonitor`, with the fields of its members, families and tree nodes. -/
structure Monitor where
  family : Addr → Addr
  procInfo : Addr → ProcInfo
  prev : Addr → Option Addr
  next : Addr → Option Addr
  stillAlive : Addr → Bool
  registration : Addr → Registration
  exited : Addr → Times
  memberList : Addr → Option Addr
  parent : Addr → Option Addr
  child : Addr → Option Addr
  sibling : Addr → Option Addr
  made : ℕ
  everybodyElse : Addr
  tree : Addr
  memberTable : ℤ → Option Addr
  familyTable : ℤ → Option Addr
  pidMappings : List ((ℤ × ℤ) × Addr)

namespace Monitor

variable (M : Monitor)

/-! ## One family -/

def pushFront (f a : Addr) : Monitor :=
  let M := { M with prev := update M.prev a none, next := update M.next a (M.memberList f) }
  let M := match M.memberList f with
    | some q => { M with prev := update M.prev q (some a) }
    | none => M
  { M with memberList := update M.memberList f (some a) }

variable (f : Addr)

/-- `ProcFamily::add_member`. The pid must not be in the table. -/
def addMember (pi : ProcInfo) : Option Monitor :=
  let a := M.made
  let M := pushFront { M with
    made := M.made + 1
    family := update M.family a f
    procInfo := update M.procInfo a pi
    stillAlive := update M.stillAlive a false } f a
  match M.memberTable pi.pid with
  | some _ => none
  | none => some { M with memberTable := update M.memberTable pi.pid (some a) }

/-- A member is taken out of the list that it is in, between `prev` and `next`. -/
def unlink (prev next : Option Addr) : Monitor :=
  let M := match prev with
    | some p => { M with next := update M.next p next }
    | none => { M with memberList := update M.memberList f next }
  match next with
  | some q => { M with prev := update M.prev q prev }
  | none => M

def moveToSubfamily (a sub : Addr) : Monitor :=
  let M := M.unlink (M.family a) (M.prev a) (M.next a)
  let M := { M with family := update M.family a sub }
  M.pushFront sub a

/-- `ProcFamilyMember::still_alive`. -/
def markAlive (a : Addr) (pi : ProcInfo) : Monitor :=
  { M with procInfo := update M.procInfo a pi, stillAlive := update M.stillAlive a true }

/-- The loop of `ProcFamily::remove_exited_processes`. The pid of a member must be in the table. -/
def removeExitedFrom (f : Addr) : ℕ → Option Addr → Option Addr → Monitor → Option Monitor
  | _, _, none, M => some M
  | 0, _, some _, _ => none
  | n + 1, prev, some a, M =>
    let next := M.next a
    if M.stillAlive a then
      removeExitedFrom f n (some a) next { M with stillAlive := update M.stillAlive a false }
    else
      let M := { M with exited := update M.exited f (M.exited f + (M.procInfo a).times) }
      match M.memberTable (M.procInfo a).pid with
      | none => none
      | some _ =>
        let M := { M with memberTable := update M.memberTable (M.procInfo a).pid none }
        removeExitedFrom f n prev next (M.unlink f prev next)

/-- `ProcFamily::remove_exited_processes`. -/
def removeExited : Option Monitor :=
  removeExitedFrom f M.made none (M.memberList f) M

/-- The loop of `fold_into_parent`: the members change their family; the last one is returned. -/
def reassign (p : Addr) : ℕ → Addr → Monitor → Option (Addr × Monitor)
  | 0, _, _ => none
  | n + 1, a, M =>
    let M := { M with family := update M.family a p }
    match M.next a with
    | some b => reassign p n b M
    | none => some (a, M)

def foldIntoParent (f p : Addr) : Option Monitor :=
  let M := { M with exited := update M.exited p (M.exited p + M.exited f) }
  match M.memberList f with
  | none => some M
  | some a =>
    match reassign p M.made a M with
    | none => none
    | some (b, M) =>
      let M := { M with next := update M.next b (M.memberList p) }
      let M := match M.next b with
        | some q => { M with prev := update M.prev q (some b) }
        | none => M
      let M := { M with memberList := update M.memberList p (M.memberList f) }
      some { M with memberList := update M.memberList f none }

/-- The loop of `aggregate_usage` over the members. -/
def sumTimes (M : Monitor) : ℕ → Option Addr → Option Times
  | _, none => some 0
  | 0, some _ => none
  | n + 1, some a => (M.sumTimes n (M.next a)).map ((M.procInfo a).times + ·)

/-- The CPU times of `ProcFamily::aggregate_usage`. -/
def aggregateUsage : Option Times :=
  (M.sumTimes M.made (M.memberList f)).map (· + M.exited f)

/-! ## The tree -/

def addChild (p f : Addr) : Monitor :=
  { M with
    parent := update M.parent f (some p)
    sibling := update M.sibling f (M.child p)
    child := update (update M.child f none) p (some f) }

/-- The first loop of `Tree::remove`: the children get another parent; the last one is returned. -/
def reparent (p : Option Addr) : ℕ → Addr → Monitor → Option (Addr × Monitor)
  | 0, _, _ => none
  | n + 1, c, M =>
    let M := { M with parent := update M.parent c p }
    match M.sibling c with
    | some d => reparent p n d M
    | none => some (c, M)

/-- The second loop of `Tree::remove`: the sibling before the node. -/
def findBefore (M : Monitor) (f : Addr) : ℕ → Addr → Option Addr
  | 0, _ => none
  | n + 1, c =>
    match M.sibling c with
    | none => none
    | some d => if d = f then some c else M.findBefore f n d

/-- The children of a node that is removed come before its siblings. -/
def liftChildren (f p : Addr) : Option Monitor :=
  match M.child f with
  | none => some M
  | some c =>
    match reparent (some p) M.made c M with
    | none => none
    | some (l, M) =>
      let M := { M with sibling := update M.sibling l (M.sibling f) }
      some { M with sibling := update M.sibling f (M.child f) }

/-- `Tree::remove`. -/
def removeNode : Option Monitor := do
  let p ← M.parent f
  let M ← M.liftChildren f p
  let c ← M.child p
  let M ← if c = f then some { M with child := update M.child p (M.sibling f) }
    else do
      let b ← M.findBefore f M.made c
      some { M with sibling := update M.sibling b (M.sibling f) }
  some { M with
    child := update M.child f none
    sibling := update M.sibling f none
    parent := update M.parent f none }

/-- A walk over a node, its descendants and its younger siblings with theirs. -/
def walk (act : Monitor → Addr → Option Monitor) : ℕ → Option Addr → Monitor → Option Monitor
  | _, none, M => some M
  | 0, some _, _ => none
  | n + 1, some c, M => do
    let M ← act M c
    let M ← walk act n (M.child c) M
    walk act n (M.sibling c) M

/-- `remove_exited_processes` of the tree. -/
def removeExitedTree : Option Monitor := do
  let M ← M.removeExited M.tree
  walk removeExited M.made (M.child M.tree) M

/-- The usage of a node, its descendants and its younger siblings with theirs. -/
def usageFrom (M : Monitor) : ℕ → Option Addr → Option Times
  | _, none => some 0
  | 0, some _ => none
  | n + 1, some c => do
    let own ← M.aggregateUsage c
    let below ← M.usageFrom n (M.child c)
    let beside ← M.usageFrom n (M.sibling c)
    some (own + below + beside)

def lookupFamily (pid : ℤ) (zeroMeansRoot : Bool) : Option Addr :=
  if zeroMeansRoot ∧ pid = 0 then some M.tree else M.familyTable pid

/-- The CPU times of `get_family_usage` for a family of the tree. -/
def familyUsage : Option Times := do
  let own ← M.aggregateUsage f
  let below ← M.usageFrom M.made (M.child f)
  some (own + below)

/-- `get_family_usage`; nothing if there is no such family. -/
def getFamilyUsage (pid : ℤ) : Option Times := do
  let f ← M.lookupFamily pid true
  M.familyUsage f

/-! ## Finding the family of a process -/

/-- The loop of `add_member_to_family`: `f` is above the node. -/
def isAbove (M : Monitor) (f : Addr) : ℕ → Addr → Option Bool
  | 0, _ => none
  | n + 1, node =>
    match M.parent node with
    | none => some false
    | some p => if p = f then some true else M.isAbove f n p

/-- `add_member_to_family`: whether the process has been added or moved, and the state. -/
def addMemberToFamily (f : Addr) (pi : ProcInfo) : Option (Bool × Monitor) :=
  match M.memberTable pi.pid with
  | none => (M.addMember f pi).map (true, ·)
  | some a =>
    if f = M.family a then some (false, M)
    else do
      let node ← M.familyTable (M.registration f).rootPid
      if ← M.isAbove (M.family a) (M.made + 1) node then some (true, M.moveToSubfamily a f)
      else some (false, M)

/-- `PIDTracker::check_process`. -/
def checkPid (pi : ProcInfo) : Option (Bool × Monitor) :=
  match M.pidMappings.find? fun m => decide (m.1 = (pi.pid, pi.birthday)) with
  | some m => (M.addMemberToFamily m.2 pi).map fun r => (true, r.2)
  | none => some (false, M)

/-- `ParentTracker::check_process`. -/
def checkParent (pi : ProcInfo) : Option (Bool × Monitor) :=
  match M.memberTable pi.ppid with
  | none => some (false, M)
  | some p =>
    if (M.registration (M.family p)).rootPid = 0 ∨ pi.birthday < (M.procInfo p).birthday then
      some (false, M)
    else M.addMemberToFamily (M.family p) pi

/-- `ProcFamilyTracker::find_processes`: whether a check has succeeded, and the state. -/
def findProcesses (check : Monitor → ProcInfo → Option (Bool × Monitor)) :
    List ProcInfo → Monitor → Option (Bool × Monitor)
  | [], M => some (false, M)
  | pi :: ps, M => do
    let (found, M) ← check M pi
    let (more, M) ← findProcesses check ps M
    some (found || more, M)

/-- `ParentTracker::find_processes`, which goes on as long as a check succeeds. -/
def findByParent (ps : List ProcInfo) : ℕ → Monitor → Option Monitor
  | 0, _ => none
  | n + 1, M => do
    let (keepChecking, M) ← findProcesses checkParent ps M
    if keepChecking then findByParent ps n M else some M

/-- The processes without member are added to the family of everybody else. -/
def addRest : List ProcInfo → Monitor → Option Monitor
  | [], M => some M
  | pi :: ps, M =>
    match M.memberTable pi.pid with
    | some _ => addRest ps M
    | none => do
      let M ← M.addMember M.everybodyElse pi
      addRest ps M

/-! ## Registration -/

/-- `unregister_subfamily` of a family of the tree. -/
def unregister (f : Addr) : Option Monitor := do
  let M := { M with pidMappings := M.pidMappings.eraseP fun m => decide (m.2 = f) }
  let _ ← M.familyTable (M.registration f).rootPid
  let M := { M with familyTable := update M.familyTable (M.registration f).rootPid none }
  let p ← M.parent f
  let M ← M.foldIntoParent f p
  M.removeNode f

def watcherGone (f : Addr) : Bool :=
  decide ((M.registration f).watcherPid ≠ 0) &&
    (M.memberTable (M.registration f).watcherPid).all fun a =>
      decide ((M.registration f).rootBirthday < (M.procInfo a).birthday)

mutual

/-- `delete_unwatched_families`: first below the family, and then the family itself. -/
def deleteUnwatched : ℕ → Addr → Monitor → Option Monitor
  | 0, _, _ => none
  | n + 1, f, M => do
    let M ← deleteUnwatchedFrom n (M.child f) M
    if M.watcherGone f then M.unregister f else some M

/-- The loop of `delete_unwatched_families` over the children; the next one is known before. -/
def deleteUnwatchedFrom : ℕ → Option Addr → Monitor → Option Monitor
  | _, none, M => some M
  | 0, some _, _ => none
  | n + 1, some c, M => do
    let next := M.sibling c
    let M ← deleteUnwatched n c M
    deleteUnwatchedFrom n next M

end

/-- The first loop of `snapshot`: the processes that are known are marked; the others remain. -/
def markSeen : List ProcInfo → Monitor → List ProcInfo × Monitor
  | [], M => ([], M)
  | pi :: ps, M =>
    if pi.pid = 0 then markSeen ps M
    else match M.memberTable pi.pid with
      | some a =>
        if (M.procInfo a).birthday = pi.birthday then markSeen ps (M.markAlive a pi)
        else
          let (rest, M) := markSeen ps M
          (pi :: rest, M)
      | none =>
        let (rest, M) := markSeen ps M
        (pi :: rest, M)

/-- **`snapshot`**, of the list of processes. -/
def snapshot (ps : List ProcInfo) : Option Monitor := do
  let (rest, M) := markSeen ps M
  let M ← M.removeExitedTree
  let M ← M.removeExited M.everybodyElse
  let (_, M) ← findProcesses checkPid rest M
  let M ← findByParent rest (rest.length * (M.made + rest.length + 2) + 1) M
  let M ← addRest rest M
  deleteUnwatched (2 * M.made + 1) M.tree M

/-- `proc_family_error_t`, of the requests that are modelled. -/
inductive ProcFamilyError where
  | success
  | badRootPid
  | badWatcherPid
  | badSnapshotInterval
  | processNotFamily
  | alreadyRegistered
  | familyNotFound
  | unregisterRoot
deriving DecidableEq, Repr

/-- A new family for the process of a member. -/
def newFamily (a : Addr) (r : Registration) : Option Monitor := do
  let f := M.made
  let M := { M with
    made := M.made + 1
    registration := update M.registration f r
    exited := update M.exited f 0
    memberList := update M.memberList f none
    pidMappings := ((r.rootPid, r.rootBirthday), f) :: M.pidMappings }
  let p ← M.familyTable (M.registration (M.family a)).rootPid
  let M := (M.addChild p f).moveToSubfamily a f
  match M.familyTable r.rootPid with
  | some _ => none
  | none => some { M with familyTable := update M.familyTable r.rootPid (some f) }

/-- **`register_subfamily`**, where `ps` are the processes in the snapshot that it takes. -/
def registerSubfamily (rootPid watcherPid maxSnapshotInterval : ℤ) (ps : List ProcInfo) :
    Option (ProcFamilyError × Monitor) :=
  if rootPid ≤ 0 then some (.badRootPid, M)
  else if watcherPid < 0 then some (.badWatcherPid, M)
  else if maxSnapshotInterval < -1 then some (.badSnapshotInterval, M)
  else do
    let M ← M.snapshot ps
    match M.memberTable rootPid with
    | none => some (.processNotFamily, M)
    | some a =>
      if M.family a = M.everybodyElse then some (.processNotFamily, M)
      else if M.lookupFamily rootPid false ≠ none then some (.alreadyRegistered, M)
      else do
        let M ← M.newFamily a ⟨rootPid, (M.procInfo a).birthday, watcherPid, maxSnapshotInterval⟩
        some (.success, M)

/-- **`unregister_subfamily`**. -/
def unregisterSubfamily (pid : ℤ) : Option (ProcFamilyError × Monitor) :=
  match M.lookupFamily pid false with
  | none => some (.familyNotFound, M)
  | some f =>
    if M.parent f = none then some (.unregisterRoot, M)
    else (M.unregister f).map (.success, ·)

/-- The loop of `ProcFamily::spree`: the pids that get the signal. -/
def spreeFrom (M : Monitor) : ℕ → Option Addr → Option (List ℤ)
  | _, none => some []
  | 0, some _ => none
  | n + 1, some a => (M.spreeFrom n (M.next a)).map ((M.procInfo a).pid :: ·)

def spree (f : Addr) : Option (List ℤ) := M.spreeFrom M.made (M.memberList f)

/-- The signals to a node, its descendants and its younger siblings with theirs. -/
def signalFrom (M : Monitor) : ℕ → Option Addr → Option (List ℤ)
  | _, none => some []
  | 0, some _ => none
  | n + 1, some c => do
    let own ← M.spree c
    let below ← M.signalFrom n (M.child c)
    let beside ← M.signalFrom n (M.sibling c)
    some (own ++ below ++ beside)

/-- **`signal_family`**, where `ps` are the processes in the snapshot that it takes. -/
def signalFamily (pid : ℤ) (ps : List ProcInfo) : Option (ProcFamilyError × List ℤ × Monitor) := do
  let M ← M.snapshot ps
  match M.lookupFamily pid true with
  | none => some (.familyNotFound, [], M)
  | some f => do
    let own ← M.spree f
    let below ← M.signalFrom M.made (M.child f)
    some (.success, own ++ below, M)

end Monitor

/-! ## Runs -/

/-- The state before the first snapshot: everybody else, and the root family. -/
def fresh (pid birthday maxSnapshotInterval : ℤ) : Monitor where
  family _ := 0
  procInfo _ := ⟨0, 0, 0, 0⟩
  prev _ := none
  next _ := none
  stillAlive _ := false
  registration := update (fun _ => ⟨0, 0, 0, -1⟩) 1 ⟨pid, birthday, 0, maxSnapshotInterval⟩
  exited _ := 0
  memberList _ := none
  parent _ := none
  child _ := none
  sibling _ := none
  made := 2
  everybodyElse := 0
  tree := 1
  memberTable _ := none
  familyTable := update (fun _ => none) pid (some 1)
  pidMappings := [((pid, birthday), 1)]

/-- The requests to the monitor. A registration takes a snapshot. -/
inductive Op where
  | snapshot (ps : List ProcInfo)
  | register (rootPid watcherPid maxSnapshotInterval : ℤ) (ps : List ProcInfo)
  | unregister (pid : ℤ)

def step (M : Monitor) : Op → Option Monitor
  | .snapshot ps => M.snapshot ps
  | .register rootPid watcherPid interval ps =>
    (M.registerSubfamily rootPid watcherPid interval ps).map Prod.snd
  | .unregister pid => (M.unregisterSubfamily pid).map Prod.snd

end Condor.Procd
