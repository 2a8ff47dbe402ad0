import Condor.Lib.NetOrder

/-!
# CEDAR over TCP — the model of `ReliSock`

The bytes that are put wait in the buffer of `SndMsg` until it is full or the message ends. Then
they are a packet: a header, with the mark of the last packet and the length, and the body. In
non-blocking mode the kernel may take a part of the packet only; the packet is stashed, and if one
is stashed already the buffer is made larger. `RcvMsg` reads a packet, the body in one or in several
calls, and chains the packets until the message is complete.

There is neither encryption nor a digest, and the socket has no error. The answers of the kernel are
parameters: how much is written, or read, by the next calls in non-blocking mode. A call without a
result does not return: it waits for bytes that are not there, or an `ASSERT` fails.
-/

namespace Condor.Cedar

/-! ## Buffers -/

/-- `CONDOR_IO_BUF_SIZE`. -/
def ioBufSize : ℕ := 4096

/-- `NORMAL_HEADER_SIZE`. -/
def headerSize : ℕ := 5

/-- `Buf`, with the bytes that are used. -/
structure Buf where
  dta : List Byte := []
  maxSz : ℕ := ioBufSize
  pt : ℕ := 0
deriving DecidableEq, Repr

namespace Buf

variable (b : Buf)

def numUsed : ℕ := b.dta.length

def numUntouched : ℕ := b.numUsed - b.pt

def numFree : ℕ := b.maxSz - b.numUsed

def empty : Bool := b.numUsed = 0

def full : Bool := b.numUsed = b.maxSz

def consumed : Bool := b.pt = b.numUsed

def reset : Buf := { b with dta := [], pt := 0 }

def growBuf (newSz : ℕ) : Buf := if newSz < b.maxSz then b else { b with maxSz := newSz }

/-- `seek`; the bytes that come in are not set. -/
def seek (pos : ℕ) : Buf :=
  let pt := if pos < b.maxSz then pos else b.maxSz - 1
  { b with pt := pt, dta := b.dta ++ List.replicate (pt - b.numUsed) 0 }

def putMax (dta : List Byte) : ℕ × Buf :=
  let sz := min dta.length b.numFree
  (sz, { b with dta := b.dta ++ dta.take sz })

def putForce (dta : List Byte) : Buf :=
  let needed := dta.length - b.numFree
  let b := if 0 < needed then b.growBuf (b.maxSz + needed) else b
  { b with dta := b.dta ++ dta }

def getMax (sz : ℕ) : List Byte × Buf :=
  let sz := min sz b.numUntouched
  ((b.dta.drop b.pt).take sz, { b with pt := b.pt + sz })

end Buf

/-- `ChainBuf`: the buffers before `_curr`, and `_curr` with those after it. -/
structure ChainBuf where
  before : List Buf := []
  rest : List Buf := []
deriving DecidableEq, Repr

namespace ChainBuf

/-- `consumed`: the last buffer is. -/
def consumed (c : ChainBuf) : Bool :=
  match (c.before ++ c.rest).getLast? with
  | none => true
  | some tail => tail.consumed

/-- `put`; `_curr` is set for the first buffer only. -/
def put (c : ChainBuf) (dta : Buf) : ChainBuf :=
  if c.before = [] ∧ c.rest = [] then { c with rest := [dta] }
  else if c.rest = [] then { c with before := c.before ++ [dta] }
  else { c with rest := c.rest ++ [dta] }

/-- The loop of `get`. -/
def getLoop : List Buf → List Buf → ℕ → List Byte × ChainBuf
  | before, [], _ => ([], ⟨before, []⟩)
  | before, curr :: rest, sz =>
    let (bytes, curr) := curr.getMax sz
    if bytes.length = sz then (bytes, ⟨before, curr :: rest⟩)
    else
      let (more, c) := getLoop (before ++ [curr]) rest (sz - bytes.length)
      (bytes ++ more, c)

def get (c : ChainBuf) (sz : ℕ) : List Byte × ChainBuf := getLoop c.before c.rest sz

end ChainBuf

/-! ## The header -/

/-- `htonl`: the bytes as they are sent. -/
def htonl (n : BitVec 32) : List Byte := NetOrder.toNet 4 n.toNat

def ntohl (bs : List Byte) : BitVec 32 := BitVec.ofNat 32 (NetOrder.ofNet bs)

def header (last : Bool) (ns : BitVec 32) : List Byte := (if last then 1 else 0) :: htonl ns

/-! ## The sender -/

/-- `condor_write`: how much of `sz` bytes is written. A blocking call writes all of them. -/
def condorWrite (nonBlocking : Bool) (kernel : List ℕ) (sz : ℕ) : Option (ℕ × List ℕ) :=
  if sz = 0 then none
  else if nonBlocking then some (min (kernel.headD 0) sz, kernel.tail)
  else some (sz, kernel)

/-- `SndMsg`, with the mode of the socket, the answers of the kernel and what it has taken. -/
structure Sender where
  buf : Buf := {}
  outBuf : Option Buf := none
  nonBlocking : Bool := false
  hasBacklog : Bool := false
  kernel : List ℕ := []
  wire : List Byte := []
deriving DecidableEq, Repr

/-- `FALSE`, `TRUE`, 2 and 3. -/
inductive SndResult where
  | failed | sent | stashed | pending
deriving DecidableEq, Repr

namespace Sender

variable (s : Sender)

/-- `Buf::write`, of all that is untouched. -/
def write (b : Buf) : Option (ℕ × Buf × Sender) := do
  let (nw, kernel) ← condorWrite s.nonBlocking s.kernel b.numUntouched
  return (nw, { b with pt := b.pt + nw },
    { s with kernel := kernel, wire := s.wire ++ (b.dta.drop b.pt).take nw })

def finishPacket : Option (SndResult × Sender) :=
  match s.outBuf with
  | none => some (.sent, s)
  | some b => do
    let (_, b, s) ← s.write b
    if b.consumed then return (.sent, { s with outBuf := none })
    else if s.nonBlocking then return (.stashed, { s with outBuf := some b })
    else return (.failed, { s with outBuf := none })

/-- `Buf::flush` of the buffer, under the header. -/
def flush (hdr : List Byte) : Option (Option ℕ × Sender) :=
  if s.buf.maxSz < hdr.length then some (none, s)
  else do
    let b : Buf := { s.buf with dta := hdr ++ s.buf.dta.drop hdr.length, pt := 0 }
    let (nw, b, s) ← s.write b
    let b := if !s.nonBlocking || b.consumed then b.reset else b
    return (some nw, { s with buf := b })

def stashPacket : Sender := { s with outBuf := some s.buf, buf := {} }

/-- **`snd_packet`.** -/
def sndPacket (last : Bool) : Option (SndResult × Sender) := do
  let (result, s) ← s.finishPacket
  match result with
  | .stashed => return (.pending, s)
  | .sent =>
    let used := s.buf.numUsed
    let ns : BitVec 32 := BitVec.ofNat 32 used - BitVec.ofNat 32 headerSize
    let (result, s) ← s.flush (header last ns)
    match result with
    | none => return (.failed, s)
    | some nw =>
      if nw = used then return (.sent, s)
      else if s.nonBlocking then return (.stashed, s.stashPacket)
      else return (.failed, s)
  | _ => return (.failed, s)

/-- Bytes go into the buffer, behind the room for the header, as long as there is room. -/
def fill (dta : List Byte) : ℕ × Sender :=
  let b := if s.buf.empty then s.buf.seek headerSize else s.buf
  let (tw, b) := b.putMax dta
  (tw, { s with buf := b })

/-- The loop of `put_bytes_after_encryption`: the bytes that are put. -/
def putLoop : ℕ → Sender → List Byte → Option (ℕ × Sender)
  | 0, _, _ => none
  | n + 1, s, dta => do
    let (result, s) ← if s.buf.full then s.sndPacket false else some (.sent, s)
    match result with
    | .pending =>
      return (dta.length, { s with buf := s.buf.putForce dta, hasBacklog := true })
    | .failed => return (0, s)
    | _ =>
      let (tw, s) := s.fill dta
      if dta.length ≤ tw then return (tw, s)
      else
        let (nw, s) ← putLoop n s (dta.drop tw)
        return (tw + nw, s)

/-- **`put_bytes`**, where every round of the loop puts a byte or is the last one. -/
def putBytes (dta : List Byte) : Option (ℕ × Sender) := putLoop (dta.length + 1) s dta

def note (result : SndResult) : Sender :=
  if result = .stashed ∨ result = .pending then { s with hasBacklog := true } else s

/-- `end_of_message_internal`, for the sender. -/
def endOfMessage : Option (SndResult × Sender) :=
  if s.buf.empty then some (.failed, s)
  else do
    let (result, s) ← s.sndPacket true
    return (result, s.note result)

def finishEndOfMessage : Option (SndResult × Sender) := do
  let (result, s) ← if s.buf.numUsed ≠ 0 then s.sndPacket true else s.finishPacket
  return (result, s.note result)

end Sender

/-! ## The receiver -/

structure RcvMsg where
  partialPacket : Bool := false
  remainingReadLength : ℕ := 0
  mEnd : ℤ := 0
  lenT : BitVec 32 := 0
  tmp : Buf := {}
  ready : Bool := false
  buf : ChainBuf := {}
deriving DecidableEq, Repr

/-- `RcvMsg`, with the mode of the socket, the answers of the kernel and the bytes that are there.
-/
structure Receiver where
  msg : RcvMsg := {}
  nonBlocking : Bool := false
  kernel : List ℕ := []
  wire : List Byte := []
deriving DecidableEq, Repr

/-- `FALSE`, `TRUE` and 2. -/
inductive RcvResult where
  | failed | received | wouldBlock
deriving DecidableEq, Repr

def maxPacketSize : ℕ := 1024 * 1024

namespace Receiver

variable (r : Receiver)

/-- `condor_read`: the bytes that are read. A blocking call waits until all are there. -/
def condorRead (nonBlocking : Bool) (sz : ℕ) : Option (List Byte × Receiver) :=
  if sz = 0 then none
  else if nonBlocking then
    let nr := min (r.kernel.headD 0) sz
    some (r.wire.take nr, { r with kernel := r.kernel.tail, wire := r.wire.drop nr })
  else if r.wire.length < sz then none
  else some (r.wire.take sz, { r with wire := r.wire.drop sz })

/-- The part of `rcv_packet` from `read_packet` on. -/
def readPacket (len : ℕ) : Option (RcvResult × Receiver) :=
  if r.msg.tmp.numFree < len then some (.failed, r)
  else do
    let (bytes, r) ← r.condorRead r.nonBlocking len
    let tmp := { r.msg.tmp with dta := r.msg.tmp.dta ++ bytes }
    if bytes.length ≠ len then
      if r.nonBlocking then
        return (.wouldBlock, { r with msg := { r.msg with
          tmp := tmp, partialPacket := true, remainingReadLength := len - bytes.length } })
      else return (.failed, r)
    else
      return (.received, { r with msg := { r.msg with
        tmp := {}, buf := r.msg.buf.put tmp, ready := r.msg.ready || r.msg.mEnd ≠ 0 } })

/-- The mark of a header, as a `char`. -/
def endOf (hdr : List Byte) : ℤ := (hdr.headD 0).toInt

/-- The part of `rcv_packet` from `check_header` on. -/
def checkHeader (hdr : List Byte) : Option (RcvResult × Receiver) :=
  let lenT := ntohl hdr.tail
  let r := { r with msg := { r.msg with mEnd := endOf hdr, lenT := lenT } }
  if endOf hdr < 0 ∨ 10 < endOf hdr then some (.failed, r)
  else if (maxPacketSize : ℤ) < lenT.toInt then some (.failed, r)
  else if lenT.toInt ≤ 0 then some (.failed, r)
  else
    let len := lenT.toNat
    let r := { r with msg := { r.msg with tmp := ({} : Buf).growBuf (len + 1) } }
    r.readPacket len

/-- The part of `rcv_packet` for a new packet. The rest of a header is waited for. -/
def readHeader : Option (RcvResult × Receiver) := do
  let (hdr, r) ← r.condorRead r.nonBlocking headerSize
  if hdr = [] then return (.wouldBlock, r)
  if hdr.length = headerSize then r.checkHeader hdr
  else
    let filled := hdr ++ List.replicate (headerSize - hdr.length) 0
    let len := (ntohl filled.tail).toInt
    if endOf filled < 0 ∨ 10 < endOf filled ∨ len < 0 ∨ (maxPacketSize : ℤ) < len then
      return (.failed, { r with msg := { r.msg with mEnd := endOf filled } })
    else
      let (more, r) ← r.condorRead false (headerSize - hdr.length)
      r.checkHeader (hdr ++ more)

/-- **`rcv_packet`.** -/
def rcvPacket : Option (RcvResult × Receiver) :=
  if r.msg.partialPacket then
    { r with msg := { r.msg with partialPacket := false } }.readPacket r.msg.remainingReadLength
  else r.readHeader

/-- **`handle_incoming_packet`.** -/
def handleIncomingPacket : Option (RcvResult × Receiver) :=
  if r.msg.ready then some (.received, r) else r.rcvPacket

/-- The loop of `get_bytes`: packets are received until the message is complete. -/
def receiveLoop : ℕ → Receiver → Option (RcvResult × Receiver)
  | 0, _ => none
  | n + 1, r =>
    if r.msg.ready then some (.received, r)
    else do
      let (result, r) ← r.handleIncomingPacket
      match result with
      | .received => receiveLoop n r
      | _ => return (result, r)

/-- **`get_bytes`**, where every packet has a byte. -/
def getBytes (sz : ℕ) : Option (RcvResult × List Byte × Receiver) := do
  let (result, r) ← receiveLoop (r.wire.length + 2) r
  match result with
  | .received =>
    let (bytes, buf) := r.msg.buf.get sz
    return (.received, bytes, { r with msg := { r.msg with buf := buf } })
  | _ => return (result, [], r)

def peekEndOfMessage (m : RcvMsg) : Bool := m.ready && m.buf.consumed

/-- `end_of_message_internal`, for the receiver. -/
def readEndOfMessage (m : RcvMsg) : Bool × RcvMsg :=
  if m.ready then (m.buf.consumed, { m with ready := false, buf := {} }) else (false, m)

end Receiver

/-! ## The two ends -/

/-- The two ends, with the messages and the bytes that have been put and got. -/
structure Net where
  snd : Sender := {}
  rcv : RcvMsg := {}
  closing : Bool := false
  sent : List (List Byte) := []
  sending : List Byte := []
  got : List (List Byte) := []
  getting : List Byte := []
deriving DecidableEq, Repr

/-- A call, with the mode of the socket and the answers of the kernel. -/
inductive Op where
  | putBytes (nonBlocking : Bool) (kernel : List ℕ) (dta : List Byte)
  | endOfMessage (nonBlocking : Bool) (kernel : List ℕ)
  | finishEndOfMessage (kernel : List ℕ)
  | handleIncomingPacket (nonBlocking : Bool) (kernel : List ℕ)
  | getBytes (nonBlocking : Bool) (kernel : List ℕ) (sz : ℕ)
  | readEndOfMessage
deriving DecidableEq, Repr

namespace Net

def sender (net : Net) (nonBlocking : Bool) (kernel : List ℕ) : Sender :=
  { net.snd with nonBlocking := nonBlocking, kernel := kernel }

def receiver (net : Net) (nonBlocking : Bool) (kernel : List ℕ) : Receiver :=
  { msg := net.rcv, nonBlocking := nonBlocking, kernel := kernel, wire := net.snd.wire }

def setReceiver (net : Net) (r : Receiver) : Net :=
  { net with rcv := r.msg, snd := { net.snd with wire := r.wire } }

/-- A call: whether it has not failed, and what it leaves. -/
def step (net : Net) : Op → Option (Bool × Net)
  | .putBytes nonBlocking kernel dta => do
    let (nw, s) ← (net.sender nonBlocking kernel).putBytes dta
    return (nw = dta.length, { net with snd := s, sending := net.sending ++ dta })
  | .endOfMessage nonBlocking kernel => do
    let (result, s) ← (net.sender nonBlocking kernel).endOfMessage
    return (result ≠ .failed, { net with
      snd := s, sent := net.sent ++ [net.sending], sending := [], closing := result ≠ .sent })
  | .finishEndOfMessage kernel => do
    let (result, s) ← (net.sender true kernel).finishEndOfMessage
    return (result ≠ .failed, { net with snd := s, closing := result ≠ .sent })
  | .handleIncomingPacket nonBlocking kernel => do
    let (result, r) ← (net.receiver nonBlocking kernel).handleIncomingPacket
    return (result ≠ .failed, net.setReceiver r)
  | .getBytes nonBlocking kernel sz => do
    let (result, bytes, r) ← (net.receiver nonBlocking kernel).getBytes sz
    return (result ≠ .failed, { net.setReceiver r with getting := net.getting ++ bytes })
  | .readEndOfMessage =>
    let (ok, m) := Receiver.readEndOfMessage net.rcv
    some (ok, { net with rcv := m, got := net.got ++ [net.getting], getting := [] })

end Net

end Condor.Cedar
