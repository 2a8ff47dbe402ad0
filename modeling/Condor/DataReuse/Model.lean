import Condor.Lib.CText
import Condor.Lib.Tally
import Mathlib.Data.List.Sort

/-!
# The data reuse directory — the model of `DataReuseDirectory`

Processes share a directory of cached files and a log. Space is reserved in the log before a file
is stored, and every operation first reads what has been added to the log since the last one. The
lock on the log makes an operation atomic.

Times are nanoseconds since the epoch, the resolution of the system clock; the log has whole
seconds. What the operating system answers during an operation is the operation's `World`.
-/

namespace Condor.DataReuse

/-! ## The log -/

/-- The form of a user log: text, or ads in XML or in JSON. -/
inductive LogFormat where
  | text
  | xml
  | json
deriving DecidableEq, Repr

/-- The events of the directory's log, with the event clock where the reader uses it. -/
inductive Event where
  | reserveSpace (expiry : ℕ) (reserved : UInt64) (uuid tag : Text)
  | releaseSpace (uuid : Text)
  | fileComplete (clock : ℕ) (size : UInt64) (checksum checksumType uuid : Text)
  | fileUsed (clock : ℕ) (checksum checksumType tag : Text)
  | fileRemoved (size : UInt64) (checksum checksumType tag : Text)
deriving DecidableEq, Repr

def toTimeT (t : ℕ) : ℕ := t / 10 ^ 9

def fromTimeT (s : ℕ) : ℕ := s * 10 ^ 9

/-- What `ReadUserLog::readEvent` makes of a written event; `none` for `ULOG_RD_ERROR`. In the text
form the empty rest of the header line is taken for the first line of the body. -/
def readBack : LogFormat → Event → Option Event
  | .text, _ => none
  | _, .reserveSpace expiry reserved uuid tag =>
    some (.reserveSpace (fromTimeT (toTimeT expiry)) reserved uuid tag)
  | _, e => some e

/-- The events that a reader comes to. After an ad in JSON the parser gives back one character too
many: the file stays at the closing brace, from where there is no further event. -/
def LogFormat.visible : LogFormat → List Event → List Event
  | .json, log => log.take 1
  | _, log => log

/-! ## Errors -/

/-- An error that an operation pushes, with what its message says. -/
inductive Error where
  | noSpace (allocated reserved size : UInt64)
  | reservationNotWritten
  | unlinkFailed (reason : Text)
  | removalNotWritten
  | wrongTag (tag : Text)
  | releaseUnknown (uuid : Text)
  | completeUnknown (uuid : Text)
  | completeTooLarge (size : UInt64)
  | completeLate (checksum checksumType tag uuid : Text) (clock expiry : ℕ)
  | usedUnknown (checksum : Text)
  | removedUnknown (checksum : Text)
  | unsupportedType (checksumType : Text)
  | system (code : ℕ) (text : Text)
  | unknownReservation (uuid : Text)
  | insufficientSpace
  | sourceMismatch
  | completeNotWritten
  | renewUnknown (uuid : Text)
  | renewTag (existing requested : Text)
  | renewNotWritten
  | noSuchReservation (uuid : Text) (active : ℕ)
  | releaseNotWritten
  | noSuchFile (checksum checksumType tag : Text)
  | cachedMismatch
  | useNotWritten
deriving DecidableEq, Repr

/-! ## The state of a process -/

structure FileEntry where
  size : UInt64
  lastUse : ℕ
  checksum : Text
  checksumType : Text
  tag : Text
deriving DecidableEq, Repr

def FileEntry.is (e : FileEntry) (checksum checksumType tag : Text) : Bool :=
  e.checksumType == checksumType && e.checksum == checksum && e.tag == tag

structure SpaceReservationInfo where
  expiryTime : ℕ
  tag : Text
  reserved : UInt64
deriving DecidableEq, Repr

structure SpaceUtilization where
  used : UInt64
  written : UInt64
  deleted : UInt64
deriving DecidableEq, Repr

/-- A `DataReuseDirectory`; `position` is the number of events that its reader has passed. -/
structure Directory where
  reservedSpace : UInt64
  storedSpace : UInt64
  allocatedSpace : UInt64
  spaceReservations : AList fun _ : Text => SpaceReservationInfo
  contents : List FileEntry
  spaceUtilization : AList fun _ : Text => SpaceUtilization
  position : ℕ

variable (d : Directory)

/-- A new `DataReuseDirectory` before its first `UpdateState`. -/
def Directory.new (allocated : UInt64) : Directory where
  reservedSpace := 0
  storedSpace := 0
  allocatedSpace := allocated
  spaceReservations := ∅
  contents := []
  spaceUtilization := ∅
  position := 0

/-- The statistics of a tag are changed, from zero if there are none. -/
def Directory.count (tag : Text) (f : SpaceUtilization → SpaceUtilization) : Directory :=
  { d with spaceUtilization :=
    d.spaceUtilization.insert tag (f ((d.spaceUtilization.lookup tag).getD ⟨0, 0, 0⟩)) }

/-- The branch of `HandleEvent` for a completed file of a known reservation. -/
def handleComplete (r : SpaceReservationInfo) (clock : ℕ) (size : UInt64)
    (checksum checksumType uuid : Text) : Except Error Directory :=
  if r.reserved < size then .error (.completeTooLarge size)
  else if r.expiryTime < fromTimeT clock then
    .error (.completeLate checksum checksumType r.tag uuid clock (toTimeT r.expiryTime))
  else
    let d := { d with
      spaceReservations := d.spaceReservations.insert uuid { r with reserved := r.reserved - size }
      reservedSpace := d.reservedSpace - size }
    if d.contents.any fun e => e.is checksum checksumType r.tag then .ok d
    else .ok (Directory.count { d with
      contents := d.contents ++ [⟨size, clock, checksum, checksumType, r.tag⟩]
      storedSpace := d.storedSpace + size } r.tag fun u => { u with written := u.written + size })

/-- `HandleEvent`. An event that is refused changes nothing. -/
def handleEvent : Event → Except Error Directory
  | .reserveSpace expiry reserved uuid tag =>
    match d.spaceReservations.lookup uuid with
    | none => .ok { d with
        spaceReservations := d.spaceReservations.insert uuid ⟨expiry, tag, reserved⟩
        reservedSpace := d.reservedSpace + reserved }
    | some r =>
      if r.tag ≠ tag then .error (.wrongTag tag)
      else .ok { d with
        spaceReservations := d.spaceReservations.insert uuid { r with expiryTime := expiry } }
  | .releaseSpace uuid =>
    match d.spaceReservations.lookup uuid with
    | none => .error (.releaseUnknown uuid)
    | some r => .ok { d with
        spaceReservations := d.spaceReservations.erase uuid
        reservedSpace := d.reservedSpace - r.reserved }
  | .fileComplete clock size checksum checksumType uuid =>
    match d.spaceReservations.lookup uuid with
    | none => .error (.completeUnknown uuid)
    | some r => handleComplete d r clock size checksum checksumType uuid
  | .fileUsed clock checksum checksumType tag =>
    match d.contents.find? fun e => e.is checksum checksumType tag with
    | none => .error (.usedUnknown checksum)
    | some entry => .ok (Directory.count { d with
        contents := d.contents.replaceF fun e =>
          if e.is checksum checksumType tag then some { e with lastUse := max e.lastUse clock }
          else none } entry.tag fun u => { u with used := u.used + entry.size })
  | .fileRemoved size checksum checksumType tag =>
    if d.contents.any fun e => e.is checksum checksumType tag then
      .ok (Directory.count { d with
        contents := d.contents.eraseP fun e => e.is checksum checksumType tag
        storedSpace := d.storedSpace - size } tag fun u => { u with deleted := u.deleted + size })
    else .error (.removedUnknown checksum)

/-! ## Bringing the state up to date -/

/-- The form of the log, and `std::sort` by last use, which may order files of the same use in any
way. -/
structure Config where
  format : LogFormat
  sort : List FileEntry → List FileEntry
  sort_perm : ∀ l, (sort l).Perm l
  sort_sorted : ∀ l, (sort l).Pairwise fun a b => a.lastUse ≤ b.lastUse

variable (C : Config)

/-- What an operation returns: `true`, or `false` with the errors it has pushed. -/
abbrev Answer : Type := Except (List Error) Unit

/-- The loop of `UpdateState` over the events that have not been read. -/
def readEvents (C : Config) (d : Directory) : List Event → Answer × Directory
  | [] => (.ok (), d)
  | e :: es =>
    let d := { d with position := d.position + 1 }
    match readBack C.format e with
    | none => (.error [], d)
    | some e =>
      match handleEvent d e with
      | .error err => (.error [err], d)
      | .ok d => readEvents C d es

def unexpired (now : ℕ) (s : AList fun _ : Text => SpaceReservationInfo) :
    AList fun _ : Text => SpaceReservationInfo :=
  filterVals (fun r => !decide (r.expiryTime < now)) s

def updateState (now : ℕ) (log : List Event) (d : Directory) : Answer × Directory :=
  if log = [] then (.ok (), d)
  else match readEvents C d ((C.format.visible log).drop d.position) with
    | (.error errs, d) => (.error errs, d)
    | (.ok (), d) => (.ok (), { d with
        spaceReservations := unexpired now d.spaceReservations
        contents := C.sort d.contents })

/-! ## The operations -/

/-- The answers of the system: the clock, at `UpdateState` and later, and whether files can be
removed and the log written. -/
structure World where
  now : ℕ
  later : ℕ
  unlink : FileEntry → Except Text Unit
  write : Event → Bool

variable (w : World)

/-- The eviction loop of `ClearSpace`. -/
def evict (w : World) (size : UInt64) (d : Directory) (log : List Event) :
    List FileEntry → Answer × Directory × List Event
  | [] => (.error [], d, log)
  | e :: rest =>
    match w.unlink e with
    | .error reason => (.error [.unlinkFailed reason], d, log)
    | .ok () =>
      let d := { d with reservedSpace := d.reservedSpace - e.size, contents := rest }
      let event := .fileRemoved e.size e.checksum e.checksumType e.tag
      if !w.write event then (.error [.removalNotWritten], d, log)
      else if d.reservedSpace + size ≤ d.allocatedSpace then (.ok (), d, log ++ [event])
      else evict w size d (log ++ [event]) rest

def clearSpace (size : UInt64) (d : Directory) (log : List Event) :
    Answer × Directory × List Event :=
  if d.reservedSpace + size ≤ d.allocatedSpace then (.ok (), d, log)
  else evict w size d log d.contents

def writeEvent (e : Event) (err : Error) (d : Directory) (log : List Event) :
    Answer × Directory × List Event :=
  if w.write e then (.ok (), d, log ++ [e]) else (.error [err], d, log)

/-- The operation goes on when the state is up to date. -/
def afterUpdate (d : Directory) (log : List Event)
    (next : Directory → Answer × Directory × List Event) : Answer × Directory × List Event :=
  match updateState C w.now log d with
  | (.error errs, d) => (.error errs, d, log)
  | (.ok (), d) => next d

/-- `ReserveSpace`, with the identifier that `generateUUID` makes. -/
def reserveSpace (C : Config) (w : World) (size : UInt64) (time : UInt32) (tag uuid : Text)
    (d : Directory) (log : List Event) : Answer × Directory × List Event :=
  afterUpdate C w d log fun d =>
    let event := .reserveSpace (w.later + time.toNat * 10 ^ 9) size uuid tag
    if d.allocatedSpace < d.reservedSpace + size then
      match clearSpace w size d log with
      | (.error errs, d, log) =>
        (.error (errs ++ [.noSpace d.allocatedSpace d.reservedSpace size]), d, log)
      | (.ok (), d, log) => writeEvent w event .reservationNotWritten d log
    else writeEvent w event .reservationNotWritten d log

/-- `Renew`. The event that it writes has neither the identifier nor the tag nor the space. -/
def renew (lifetime : UInt32) (tag uuid : Text) (d : Directory)
    (log : List Event) : Answer × Directory × List Event :=
  afterUpdate C w d log fun d =>
    match d.spaceReservations.lookup uuid with
    | none => (.error [.renewUnknown uuid], d, log)
    | some r =>
      if r.tag ≠ tag then (.error [.renewTag r.tag tag], d, log)
      else
        let expiry := w.later + lifetime.toNat * 10 ^ 9
        writeEvent w (.reserveSpace expiry 0 [] []) .renewNotWritten
          { d with spaceReservations :=
            d.spaceReservations.insert uuid { r with expiryTime := expiry } } log

def releaseSpace (C : Config) (w : World) (uuid : Text) (d : Directory) (log : List Event) :
    Answer × Directory × List Event :=
  afterUpdate C w d log fun d =>
    match d.spaceReservations.lookup uuid with
    | none => (.error [.noSuchReservation uuid d.spaceReservations.keys.length], d, log)
    | some _ =>
      writeEvent w (.releaseSpace uuid) .releaseNotWritten
        { d with spaceReservations := d.spaceReservations.erase uuid } log

def isChecksumTypeSupported (checksumType : Text) : Bool := checksumType == "sha256".toList

/-- The file to be cached, as it is found on disk: its size and its digest. -/
structure Source where
  size : UInt64
  digest : Text
deriving DecidableEq, Repr

/-- `CacheFile`. `source` comes of opening the source file, `copied` of copying it, and `renamed` of
giving it its final name. -/
def cacheFile (source : Except Error Source)
    (copied renamed : Except Error Unit) (checksum checksumType uuid : Text) (d : Directory)
    (log : List Event) :
    Answer × Directory × List Event :=
  if !isChecksumTypeSupported checksumType then
    (.error [.unsupportedType checksumType], d, log)
  else match source with
    | .error err => (.error [err], d, log)
    | .ok file =>
      afterUpdate C w d log fun d =>
        match d.spaceReservations.lookup uuid with
        | none => (.error [.unknownReservation uuid], d, log)
        | some r =>
          if r.reserved < file.size then (.error [.insufficientSpace], d, log)
          else match copied with
            | .error err => (.error [err], d, log)
            | .ok () =>
              if file.digest ≠ checksum then (.error [.sourceMismatch], d, log)
              else match renamed with
                | .error err => (.error [err], d, log)
                | .ok () =>
                  writeEvent w
                    (.fileComplete (toTimeT w.later) file.size checksum checksumType uuid)
                    .completeNotWritten d log

/-- `RetrieveFile`. `copied` is what comes of copying the file out of the directory: its digest. -/
def retrieveFile (copied : Except Error Text)
    (checksum checksumType tag : Text) (d : Directory) (log : List Event) :
    Answer × Directory × List Event :=
  if !isChecksumTypeSupported checksumType then
    (.error [.unsupportedType checksumType], d, log)
  else
    afterUpdate C w d log fun d =>
      if !d.contents.any fun e => e.is checksum checksumType tag then
        (.error [.noSuchFile checksum checksumType tag], d, log)
      else match copied with
        | .error err => (.error [err], d, log)
        | .ok digest =>
          if digest ≠ checksum then (.error [.cachedMismatch], d, log)
          else writeEvent w (.fileUsed (toTimeT w.later) checksum checksumType tag) .useNotWritten
            d log

/-- The operations. -/
inductive Op where
  | reserveSpace (size : UInt64) (time : UInt32) (tag uuid : Text)
  | clearSpace (size : UInt64)
  | renew (lifetime : UInt32) (tag uuid : Text)
  | releaseSpace (uuid : Text)
  | cacheFile (source : Except Error Source) (copied renamed : Except Error Unit)
      (checksum checksumType uuid : Text)
  | retrieveFile (copied : Except Error Text) (checksum checksumType tag : Text)
  | updateState

/-- One operation on the state of a process and the log. -/
def perform (d : Directory) (log : List Event) : Op → Answer × Directory × List Event
  | .reserveSpace size time tag uuid => reserveSpace C w size time tag uuid d log
  | .clearSpace size => clearSpace w size d log
  | .renew lifetime tag uuid => renew C w lifetime tag uuid d log
  | .releaseSpace uuid => releaseSpace C w uuid d log
  | .cacheFile source copied renamed checksum checksumType uuid =>
    cacheFile C w source copied renamed checksum checksumType uuid d log
  | .retrieveFile copied checksum checksumType tag =>
    retrieveFile C w copied checksum checksumType tag d log
  | .updateState => afterUpdate C w d log fun d => (.ok (), d, log)

/-! ## Processes that share a log -/

/-- The processes, each with its own state, and their log. -/
structure System where
  process : ℕ → Directory
  log : List Event

/-- All processes before their first `UpdateState`, with no log. -/
def System.new (allocated : UInt64) : System := ⟨fun _ => .new allocated, []⟩

/-- One process performs an operation. -/
structure Step where
  process : ℕ
  world : World
  op : Op

/-- What the operation returns, and the system after it. -/
def System.step (s : System) (t : Step) : Answer × System :=
  let (answer, d, log) := perform C t.world (s.process t.process) s.log t.op
  (answer, ⟨Function.update s.process t.process d, log⟩)

def System.run (s : System) (steps : List Step) : System :=
  steps.foldl (fun s t => (s.step C t).2) s

end Condor.DataReuse
