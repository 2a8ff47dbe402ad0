import Condor.Lib.CText
import Condor.Lib.Replaced

/-!
# Devices of a machine — the model of the device ids in `MachAttributes` and `CpuAttributes`

The machine has a table of devices for each resource tag. A device has an owner among the primary
slots and an owner among the backfill slots. A slot keeps the ids of its devices in lists of its
own, one for each tag. A partitionable slot shares its devices out to dynamic slots with the same
slot id and a positive sub-id.

Tags are known up to case, and are a parameter. So is `DevIdMatches`, which evaluates the constraint
of a request on a device.
-/

namespace Condor.Startd

/-- `FullSlotId`; 0 stands for no slot. -/
@[ext] structure FullSlotId where
  id : ℕ
  dynId : ℕ
deriving DecidableEq, Repr

structure NonFungibleRes where
  id : Text
  owner : FullSlotId
  bkowner : FullSlotId
deriving DecidableEq, Repr

namespace NonFungibleRes

/-- The owner among the primary or the backfill slots. -/
def ownerOf (e : NonFungibleRes) (backfill : Bool) : FullSlotId :=
  if backfill then e.bkowner else e.owner

def setOwner (e : NonFungibleRes) (backfill : Bool) (o : FullSlotId) : NonFungibleRes :=
  if backfill then { e with bkowner := o } else { e with owner := o }

end NonFungibleRes

/-- `MachAttributes`: the tags of the table, the devices for each tag, and the ids that are offline.
-/
structure MachAttributes (T : Type) where
  tags : List T
  ids : T → List NonFungibleRes
  offline : T → List Text

/-- A slot with its `CpuAttributes`: the quantities of resources, the constraints for them, and the
ids of the devices that are assigned. -/
structure Slot (T Q : Type) where
  slotId : ℕ
  subId : ℕ
  backfill : Bool
  slotres : List (T × ℤ)
  constraint : T → Option Q
  devIds : T → Option (List Text)

variable {T Q : Type} [DecidableEq T] (devIdMatches : T → ℕ → Q → Bool)

/-! ## The machine -/

namespace MachAttributes

variable (M : MachAttributes T)

def setIds (tag : T) (es : List NonFungibleRes) : MachAttributes T :=
  { M with ids := Function.update M.ids tag es }

/-- The device at an index can be assigned to a slot. A dynamic slot takes devices of its
partitionable slot, and a dynamic backfill slot none that a dynamic primary slot has. -/
def allocatable (tag : T) (request : Option Q) (assignTo assignToSub : ℕ)
    (backfill : Bool) (k : ℕ) : Bool :=
  match (M.ids tag)[k]? with
  | none => false
  | some e =>
    !(M.offline tag).contains e.id &&
    !(backfill && decide (0 < assignToSub) && decide (0 < e.owner.dynId)) &&
    decide (e.ownerOf backfill = ⟨if 0 < assignToSub then assignTo else 0, 0⟩) &&
    request.all (devIdMatches tag k)

/-- `AllocateDevId`: the id of the device, and the table. Backfill slots begin at the end of the
table. -/
def allocateDevId (tag : T) (request : Option Q) (assignTo assignToSub : ℕ)
    (backfill : Bool) : Option (Text × MachAttributes T) :=
  if assignTo = 0 ∨ tag ∉ M.tags then none
  else do
    let order := List.range (M.ids tag).length
    let k ← (if backfill then order.reverse else order).find?
      (M.allocatable devIdMatches tag request assignTo assignToSub backfill)
    let e ← (M.ids tag)[k]?
    pure (e.id, M.setIds tag ((M.ids tag).set k (e.setOwner backfill ⟨assignTo, assignToSub⟩)))

/-- The loop of `ReleaseDynamicDevId`. -/
def releaseFirst (id : Text) (o : FullSlotId) : List NonFungibleRes → Option (List NonFungibleRes)
  | [] => none
  | e :: es =>
    if e.id = id ∧ e.owner = o then some (e.setOwner false ⟨o.id, 0⟩ :: es)
    else if e.id = id ∧ e.bkowner = o then some (e.setOwner true ⟨o.id, 0⟩ :: es)
    else (releaseFirst id o es).map (e :: ·)

def releaseDynamicDevId (tag : T) (id : Text) (o : FullSlotId) : MachAttributes T :=
  if tag ∈ M.tags then
    match releaseFirst id o (M.ids tag) with
    | some es => M.setIds tag es
    | none => M
  else M

/-- The ids that are offline: those that are listed for the tag, or for one before it. -/
def offlineFrom (M : MachAttributes T) (param : T → List Text) : List T → List Text → T → List Text
  | [], _ => fun _ => []
  | tag :: tags, listed =>
    let listed := listed ++ param tag
    Function.update (M.offlineFrom param tags listed) tag
      (((M.ids tag).map NonFungibleRes.id).filter listed.contains)

/-- `ReconfigOfflineDevIds`, where `param` is the configuration. -/
def reconfigOfflineDevIds (param : T → List Text) : MachAttributes T :=
  { M with offline := M.offlineFrom param M.tags [] }

/-- `RefreshDevIds`: the ids of a slot's devices, and the number of those that are not offline. It
looks at the owner among the primary slots. -/
def refreshDevIds (tag : T) (assignTo assignToSub : ℕ) : List Text × ℕ :=
  if tag ∈ M.tags then
    let es := (M.ids tag).filter fun e =>
      decide (e.owner.id = assignTo ∧ (assignToSub = 0 ∨ e.owner.dynId = assignToSub))
    (es.map NonFungibleRes.id,
      (es.filter fun e => !(M.offline tag).contains e.id &&
        decide (e.owner.dynId = assignToSub)).length)
  else ([], 0)

end MachAttributes

/-! ## Slots -/

namespace Slot

/-- The loop of `bind_DevIds` over the devices for a tag: the table, and the ids that have been
bound. -/
def bindMany (s : Slot T Q) (tag : T) : ℕ → MachAttributes T → MachAttributes T × List Text
  | 0, M => (M, [])
  | n + 1, M =>
    match M.allocateDevId devIdMatches tag (s.constraint tag) s.slotId s.subId s.backfill with
    | none => s.bindMany tag n M
    | some (id, M) =>
      let (M, ids) := s.bindMany tag n M
      (M, id :: ids)

def addIds (s : Slot T Q) (tag : T) (ids : List Text) : Slot T Q :=
  if ids = [] then s
  else { s with devIds := Function.update s.devIds tag (some ((s.devIds tag).getD [] ++ ids)) }

/-- The loop of `bind_DevIds` over the tags: whether all devices have been bound, the table, and the
slot. -/
def bindTags (s : Slot T Q) : List (T × ℤ) → MachAttributes T → Bool × MachAttributes T × Slot T Q
  | [], M => (true, M, s)
  | (tag, assigned) :: rest, M =>
    if (s.devIds tag).any fun ids => decide (assigned = ids.length) then s.bindTags rest M
    else if tag ∈ M.tags then
      let (M, ids) := s.bindMany devIdMatches tag assigned.toNat M
      let s := s.addIds tag ids
      if (ids.length : ℤ) < assigned then (false, M, s) else s.bindTags rest M
    else s.bindTags rest M

def bindDevIds (s : Slot T Q) (M : MachAttributes T) : Bool × MachAttributes T × Slot T Q :=
  s.bindTags devIdMatches s.slotres M

def releaseAll (o : FullSlotId) (tag : T) (M : MachAttributes T) (ids : List Text) :
    MachAttributes T :=
  ids.foldr (fun id M => M.releaseDynamicDevId tag id o) M

/-- The loop of `unbind_DevIds` over the tags. -/
def unbindTags (s : Slot T Q) : List (T × ℤ) → MachAttributes T → MachAttributes T × Slot T Q
  | [], M => (M, s)
  | (tag, _) :: rest, M =>
    match s.devIds tag with
    | none => s.unbindTags rest M
    | some ids =>
      { s with devIds := Function.update s.devIds tag (some []) }.unbindTags rest
        (releaseAll ⟨s.slotId, s.subId⟩ tag M ids)

def unbindDevIds (s : Slot T Q) (M : MachAttributes T) : MachAttributes T × Slot T Q :=
  if s.subId = 0 then (M, s) else s.unbindTags s.slotres M

/-- `reconfig_DevIds`: the lists that there are, and their quantities. -/
def reconfigDevIds (M : MachAttributes T) (s : Slot T Q) : Slot T Q :=
  { s with
    slotres := s.slotres.map fun (tag, assigned) =>
      (tag, if (s.devIds tag).isSome then ((M.refreshDevIds tag s.slotId s.subId).2 : ℤ)
        else assigned)
    devIds := fun tag =>
      if tag ∈ s.slotres.map Prod.fst then
        (s.devIds tag).map fun _ => (M.refreshDevIds tag s.slotId s.subId).1
      else s.devIds tag }

end Slot

/-! ## The slots of a machine -/

/-- The machine and its slots. -/
structure Machine (T Q : Type) where
  mach : MachAttributes T
  slots : List (Slot T Q)

/-- The loop over the slots at start-up; the program ends if a device cannot be bound. -/
def bindAll : List (Slot T Q) → Machine T Q → Option (Machine T Q)
  | [], st => some st
  | s :: rest, st =>
    match s.bindDevIds devIdMatches st.mach with
    | (false, _, _) => none
    | (true, M, s) => bindAll rest ⟨M, s :: st.slots⟩

def startUp (M : MachAttributes T) (slots : List (Slot T Q)) : Option (Machine T Q) :=
  bindAll devIdMatches slots ⟨M, []⟩

/-- What becomes of the slots: a dynamic slot is made in a partitionable slot, a dynamic slot is
deleted, or the configuration is read again. -/
inductive Op (T Q : Type) where
  | create (slotId subId : ℕ) (slotres : List (T × ℤ)) (constraint : T → Option Q)
  | delete (slotId subId : ℕ)
  | reconfig (param : T → List Text)

namespace Machine

def slot? (st : Machine T Q) (slotId subId : ℕ) : Option (Slot T Q) :=
  st.slots.find? fun s => decide (s.slotId = slotId ∧ s.subId = subId)

/-- A dynamic slot is bound, and unbound if that fails. -/
def addSlot (st : Machine T Q) (s : Slot T Q) : Machine T Q :=
  match s.bindDevIds devIdMatches st.mach with
  | (true, M, s) => ⟨M, s :: st.slots⟩
  | (false, M, s) => { st with mach := (s.unbindDevIds M).1 }

/-- **One step.** The sub-id of a new slot is positive and not in use. -/
def step (st : Machine T Q) : Op T Q → Option (Machine T Q)
  | .create slotId subId slotres constraint => do
    let parent ← st.slot? slotId 0
    if 0 < subId ∧ st.slot? slotId subId = none then
      some (st.addSlot devIdMatches ⟨slotId, subId, parent.backfill, slotres, constraint,
      fun _ => none⟩)
    else none
  | .delete slotId subId => do
    let s ← st.slot? slotId subId
    if 0 < subId then
      some ⟨(s.unbindDevIds st.mach).1,
        st.slots.filter fun s => decide (¬(s.slotId = slotId ∧ s.subId = subId))⟩
    else none
  | .reconfig param =>
    let M := st.mach.reconfigOfflineDevIds param
    some ⟨M, st.slots.map (Slot.reconfigDevIds M)⟩

end Machine

end Condor.Startd
