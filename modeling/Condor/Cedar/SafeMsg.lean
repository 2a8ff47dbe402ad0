import Condor.Lib.NetOrder
import Condor.Lib.Paged

/-!
# CEDAR over UDP — the model of `_condorOutMsg` and `_condorInMsg`

A message is put into packets, which are sent with their numbers. The receiver files them in
directory pages, in whatever order they come, and reads the message when all of them are there.
There is no security header. `none` stands for a crash, or for a loop that does not end.
-/

namespace Condor.Cedar

/-! ## Sending -/

def safeMsgMaxPacketSize : ℤ := 60000

def safeMsgHeaderSize : ℤ := 25

def defaultSafeMsgFragmentSize : ℤ := 1000

/-- `_condorPacket`, of a message that is put; `curIndex` and `length` are the length of `data`. -/
structure OutPacket where
  data : List Byte := []
  fragmentSize : ℤ := defaultSafeMsgFragmentSize
  desiredFragmentSize : ℤ := defaultSafeMsgFragmentSize
deriving DecidableEq, Repr

variable (p : OutPacket)

namespace OutPacket

def usablePacketSize : ℤ := p.fragmentSize - safeMsgHeaderSize

def full : Bool := (p.data.length : ℤ) = p.usablePacketSize

def empty : Bool := p.data.isEmpty

/-- `putMax`: how many bytes were put, and the packet. -/
def putMax (dta : List Byte) : ℕ × OutPacket :=
  let left := p.usablePacketSize - p.data.length
  let len := if (dta.length : ℤ) > left then left.toNat else dta.length
  (len, { p with data := p.data ++ dta.take len })

def sanitizedMTU (mtu : ℤ) : ℤ :=
  let mtu := if mtu ≤ 0 then defaultSafeMsgFragmentSize else mtu
  let mtu := if mtu < safeMsgHeaderSize + 1 then safeMsgHeaderSize + 1 else mtu
  if mtu > safeMsgMaxPacketSize - safeMsgHeaderSize - 1 then
    safeMsgMaxPacketSize - safeMsgHeaderSize - 1
  else mtu

def setMTU (mtu : ℤ) : OutPacket :=
  let mtu := sanitizedMTU mtu
  if mtu ≠ p.desiredFragmentSize then
    if p.empty then { p with desiredFragmentSize := mtu, fragmentSize := mtu }
    else { p with desiredFragmentSize := mtu }
  else p

def reset : OutPacket := { p with data := [], fragmentSize := p.desiredFragmentSize }

end OutPacket

/-- `_condorOutMsg`: the packets from `headPacket` on, and `lastPacket`. -/
structure OutMsg where
  init : List OutPacket := []
  lastPacket : OutPacket := {}
  mtu : ℤ := defaultSafeMsgFragmentSize
deriving DecidableEq, Repr

variable (o : OutMsg)

structure Fragment where
  last : Bool
  seq : ℕ
  len : ℕ
  data : List Byte
deriving DecidableEq, Repr

inductive Sent where
  | nothing
  | short (data : List Byte)
  | long (fragments : List Fragment)
deriving DecidableEq, Repr

namespace OutMsg

def packets : List OutPacket := o.init ++ [o.lastPacket]

def addIfFull : OutMsg :=
  if o.lastPacket.full then
    { o with init := o.init ++ [o.lastPacket], lastPacket := OutPacket.setMTU {} o.mtu }
  else o

/-- The loop of `putn`, which puts a byte or more in every turn. -/
def putnLoop : ℕ → OutMsg → List Byte → Option OutMsg
  | _, o, [] => some o
  | 0, _, _ :: _ => none
  | fuel + 1, o, dta =>
    let o := o.addIfFull
    let (len, p) := o.lastPacket.putMax dta
    putnLoop fuel { o with lastPacket := p } (dta.drop len)

def putn (dta : List Byte) : Option OutMsg := putnLoop dta.length o dta

def setMTU (o : OutMsg) (mtu : ℤ) : OutMsg :=
  { o with mtu := mtu, lastPacket := o.lastPacket.setMTU mtu }

/-- `makeHeader` and `getHeader`: the number and the length are sent with sixteen bits. -/
def fragment (n : ℕ) (seqNo : ℕ) (data : List Byte) : Fragment :=
  ⟨seqNo + 1 = n, seqNo % 2 ^ 16, data.length % 2 ^ 16, data⟩

def fragments (bodies : List (List Byte)) : List Fragment :=
  bodies.mapIdx fun seqNo data => fragment bodies.length seqNo data

/-- `sendMsg`; `clearMsg` leaves the same message. -/
def sendMsg : Sent × OutMsg :=
  match o.packets with
  | [] => (.nothing, o)
  | headPacket :: _ =>
    if headPacket.empty then (.nothing, o)
    else
      (if o.init = [] then .short o.lastPacket.data else .long (fragments (o.packets.map (·.data))),
        { o with init := [], lastPacket := o.lastPacket.reset })

end OutMsg

/-! ## Receiving -/

def safeMsgNoOfDirEntry : ℕ := 41

instance : NeZero safeMsgNoOfDirEntry := ⟨by decide⟩

/-- `_condorDEntry`. -/
structure DEntry where
  dLen : ℕ := 0
  dGram : Option (List Byte) := none
deriving DecidableEq, Repr

/-- `_condorDirPage`, in the list of the pages. -/
structure DirPage where
  dirNo : ℕ
  dEntry : Fin safeMsgNoOfDirEntry → DEntry

def DirPage.new (num : ℕ) : DirPage := ⟨num, fun _ => {}⟩

/-- The sum of two numbers as an `int`. -/
def addInt (a b : ℤ) : ℤ := (a + b).bmod (2 ^ 32)

/-- `_condorInMsg`: the pages from `headDir` on, with the place of `curDir`. -/
structure InMsg where
  msgLen : ℕ
  lastNo : ℕ
  received : ℕ
  passed : ℤ
  pages : List DirPage
  curDir : ℕ
  curPacket : Fin safeMsgNoOfDirEntry
  curData : ℕ

variable (m : InMsg)

namespace InMsg

/-- The current page is the one with the number, which is made if need be. -/
def findDir : ℕ → InMsg → ℕ → Option InMsg
  | 0, _, _ => none
  | fuel + 1, m, destDirNo => do
    let page ← m.pages[m.curDir]?
    if destDirNo = page.dirNo then some m
    else if destDirNo > page.dirNo then
      if m.curDir + 1 < m.pages.length then findDir fuel { m with curDir := m.curDir + 1 } destDirNo
      else
        let m := { m with pages := m.pages ++ [DirPage.new (page.dirNo + 1)] }
        findDir fuel { m with curDir := m.curDir + 1 } destDirNo
    else if m.curDir = 0 then none
    else findDir fuel { m with curDir := m.curDir - 1 } destDirNo

def dirFuel (destDirNo : ℕ) : ℕ := m.pages.length + destDirNo + 1

def setEntry (k : Fin safeMsgNoOfDirEntry) (e : DEntry) : InMsg :=
  { m with
    pages := m.pages.modify m.curDir fun page =>
      { page with dEntry := Function.update page.dEntry k e } }

def index (seq : ℕ) : Fin safeMsgNoOfDirEntry := Fin.ofNat safeMsgNoOfDirEntry seq

/-- The data of a packet is copied to the current page. -/
def store (f : Fragment) : InMsg :=
  m.setEntry (index f.seq) ⟨f.len, some (f.data.take f.len)⟩

def new (f : Fragment) : Option InMsg := do
  let m : InMsg :=
    { msgLen := f.len, lastNo := if f.last then f.seq else 0, received := 1, passed := 0,
      pages := [DirPage.new 0], curDir := 0, curPacket := 0, curData := 0 }
  let m ← findDir (m.dirFuel (f.seq / safeMsgNoOfDirEntry)) m (f.seq / safeMsgNoOfDirEntry)
  return m.store f

def ready : Bool := m.lastNo ≠ 0 ∧ m.lastNo + 1 = m.received

def count (f : Fragment) : InMsg :=
  { m with
    msgLen := m.msgLen + f.len
    lastNo := if f.last then f.seq else m.lastNo
    received := m.received + 1 }

/-- `addPacket`: is the message complete now? -/
def addPacket (f : Fragment) : Option (Bool × InMsg) :=
  if m.ready then some (false, m)
  else do
    let m ← findDir (m.dirFuel (f.seq / safeMsgNoOfDirEntry)) m (f.seq / safeMsgNoOfDirEntry)
    let page ← m.pages[m.curDir]?
    if (page.dEntry (index f.seq)).dLen = 0 then
      let m := (m.store f).count f
      if m.lastNo + 1 = m.received then
        some (true, { m with curDir := 0, curPacket := 0, curData := 0 })
      else some (false, m)
    else some (false, m)

def addPackets : InMsg → List Fragment → Option (List Bool × InMsg)
  | m, [] => some ([], m)
  | m, f :: fs => do
    let (complete, m) ← m.addPacket f
    let (answers, m) ← addPackets m fs
    return (complete :: answers, m)

/-! ## Reading -/

def incrementCurData (n : ℕ) : Option InMsg := do
  let m := { m with curData := m.curData + n, passed := addInt m.passed n }
  let page ← m.pages[m.curDir]?
  let entry := page.dEntry m.curPacket
  if m.curData = entry.dLen then
    -- the data page is freed, and the directory page with its last one
    let m := m.setEntry m.curPacket { entry with dGram := none }
    if m.curPacket.val + 1 = safeMsgNoOfDirEntry then
      return { m with pages := m.pages.tail, curDir := 0, curPacket := 0, curData := 0 }
    else return { m with curPacket := m.curPacket + 1, curData := 0 }
  else return m

/-- The loop of `getn`, which gets a byte or more in every turn; `left` is `size - total`. -/
def getnLoop : ℕ → InMsg → ℕ → Option (List Byte × InMsg)
  | _, m, 0 => some ([], m)
  | 0, _, _ + 1 => none
  | fuel + 1, m, left => do
    let page ← m.pages[m.curDir]?
    let entry := page.dEntry m.curPacket
    let len := if left > entry.dLen - m.curData then entry.dLen - m.curData else left
    let dGram ← entry.dGram
    let piece := (dGram.drop m.curData).take len
    let m ← m.incrementCurData len
    let (pieces, m) ← getnLoop fuel m (left - len)
    return (piece ++ pieces, m)

/-- `getn`: the bytes, or none if there are not so many. -/
def getn (size : ℕ) : Option (Option (List Byte) × InMsg) :=
  if addInt m.passed size > m.msgLen then some (none, m)
  else do
    let (dta, m) ← getnLoop size m size
    return (some dta, m)

/-- Where `getPtr` finds the delimiter: in the current data page and not at its end, or later. -/
inductive Scan where
  | missing
  | piece (n : ℕ)
  | copy (n : ℕ)
deriving DecidableEq, Repr

/-- The loop of `getPtr`. -/
def scan (m : InMsg) (delim : Byte) : ℕ → ℕ → Fin safeMsgNoOfDirEntry → ℕ → ℕ → Bool → Option Scan
  | 0, _, _, _, _, _ => none
  | fuel + 1, tempDir, tempPkt, tempData, n, copyNeeded => do
    let page ← m.pages[tempDir]?
    let entry := page.dEntry tempPkt
    let dGram ← entry.dGram
    let msgbufsize := entry.dLen - tempData
    let msgbuf := (dGram.drop tempData).take msgbufsize
    match msgbuf.idxOf? delim with
    | some i =>
      let n := n + i
      let copyNeeded := copyNeeded || n = msgbufsize
      if copyNeeded then return .copy n else return .piece n
    | none =>
      let n := n + msgbufsize
      if tempPkt.val + 1 = safeMsgNoOfDirEntry then
        if tempDir + 1 < m.pages.length then scan m delim fuel (tempDir + 1) 0 0 n true
        else return .missing
      else if (page.dEntry (tempPkt + 1)).dGram = none then return .missing
      else scan m delim fuel tempDir (tempPkt + 1) 0 n true

def scanFuel : ℕ := safeMsgNoOfDirEntry * m.pages.length + 1

/-- `getPtr`: the bytes with the delimiter, if there is one. `getn` gets the length as an `int`. -/
def getPtr (delim : Byte) : Option (Option (List Byte) × InMsg) := do
  match ← m.scan delim m.scanFuel m.curDir m.curPacket m.curData 1 false with
  | .missing => return (none, m)
  | .piece n =>
    let page ← m.pages[m.curDir]?
    let dGram ← (page.dEntry m.curPacket).dGram
    let piece := (dGram.drop m.curData).take n
    let m ← m.incrementCurData n
    return (some piece, m)
  | .copy n => if n < 2 ^ 31 then m.getn n else none

end InMsg

end Condor.Cedar
