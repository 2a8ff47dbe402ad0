import Condor.Cedar.ReliSock
import Mathlib.Data.List.TakeWhile

/-!
# Typed values — the model of `Stream::put` and `Stream::get`

Integers are sent with eight bytes, the shorter ones with bytes of their sign in front, and strings
with their NUL, and with their length if there is encryption. The channel gives the bytes that were
put. The types are those of a system with `int` of four bytes and `long` of eight.
-/

namespace Condor.Cedar

variable (bs : List Byte) (encryption : Bool)

abbrev CString := { s : List Byte // (0 : Byte) ∉ s }

def cstring : CString :=
  ⟨bs.takeWhile (· ≠ 0), fun h => by simpa using List.mem_takeWhile_imp h⟩

/-- A value that is put. -/
inductive Value where
  | char (c : Byte)
  | int (i : BitVec 32)
  | uint (i : BitVec 32)
  | long (l : BitVec 64)
  | ulong (l : BitVec 64)
  | short (s : BitVec 16)
  | ushort (s : BitVec 16)
  | string (s : CString)
deriving DecidableEq

/-- The type of a value that is got. -/
inductive Kind where
  | char | int | uint | long | ulong | short | ushort | string
deriving DecidableEq, Repr

def Value.kind : Value → Kind
  | char _ => .char
  | int _ => .int
  | uint _ => .uint
  | long _ => .long
  | ulong _ => .ulong
  | short _ => .short
  | ushort _ => .ushort
  | string _ => .string

def intSize : ℕ := 8

/-- `sizeof(int)`. -/
def sizeofInt : ℕ := 4

def htonL (l : BitVec 64) : List Byte := NetOrder.toNet 8 l.toNat

def ntohL : BitVec 64 := BitVec.ofNat 64 (NetOrder.ofNet bs)

def signByte (i : BitVec 32) : Byte := if 0 ≤ i.toInt then 0 else 0xff

/-- The byte `'\255'`, which stands for a string that is `NULL`. -/
def binNullChar : Byte := 0xad

/-! ## Writing -/

/-- `put` of the four bytes of an integer, after padding bytes. -/
def putPadded (pad : BitVec 32 → Byte) (i : BitVec 32) : List Byte :=
  List.replicate (intSize - sizeofInt) (pad i) ++ htonl i

def putInt (i : BitVec 32) : List Byte := putPadded signByte i

def putUInt (i : BitVec 32) : List Byte := putPadded (fun _ => 0) i

def putLong (l : BitVec 64) : List Byte := htonL l

def putULong (l : BitVec 64) : List Byte := htonL l

def putShort (s : BitVec 16) : List Byte := putInt (s.signExtend 32)

def putUShort (s : BitVec 16) : List Byte := putUInt (s.zeroExtend 32)

/-- `put(char const *)`; the length is an `int`, and a negative number of bytes is not put. -/
def putString (s : List Byte) : Option (List Byte) :=
  let len : BitVec 32 := BitVec.ofNat 32 (s.length + 1)
  if len.toInt < 0 then none
  else some ((if encryption then putInt len else []) ++ (s ++ [0]).take len.toNat)

def put : Value → Option (List Byte)
  | .char c => some [c]
  | .int i => some (putInt i)
  | .uint i => some (putUInt i)
  | .long l => some (putLong l)
  | .ulong l => some (putULong l)
  | .short s => some (putShort s)
  | .ushort s => some (putUShort s)
  | .string s => putString encryption s.1

def putAll (encryption : Bool) : List Value → Option (List Byte)
  | [] => some []
  | v :: vs => do
    let bytes ← put encryption v
    let more ← putAll encryption vs
    return bytes ++ more

/-! ## Reading -/

/-- `get_bytes`, of so many bytes. -/
def takeBytes (n : ℕ) (bs : List Byte) : Option (List Byte × List Byte) :=
  if n ≤ bs.length then some (bs.take n, bs.drop n) else none

/-- `get` of an integer of four bytes; it fails if a padding byte is another one. -/
def getPadded (pad : BitVec 32 → Byte) (bs : List Byte) : Option (BitVec 32 × List Byte) := do
  let (padding, bs) ← takeBytes (intSize - sizeofInt) bs
  let (tmp, bs) ← takeBytes sizeofInt bs
  let i := ntohl tmp
  if padding.all (· = pad i) then some (i, bs) else none

def getInt : Option (BitVec 32 × List Byte) := getPadded signByte bs

def getUInt : Option (BitVec 32 × List Byte) := getPadded (fun _ => 0) bs

def getLong : Option (BitVec 64 × List Byte) := do
  let (l, bs) ← takeBytes 8 bs
  return (ntohL l, bs)

def getULong : Option (BitVec 64 × List Byte) := do
  let (l, bs) ← takeBytes 8 bs
  return (ntohL l, bs)

def getShort : Option (BitVec 16 × List Byte) := do
  let (i, bs) ← getInt bs
  return (i.setWidth 16, bs)

def getUShort : Option (BitVec 16 × List Byte) := do
  let (i, bs) ← getUInt bs
  return (i.setWidth 16, bs)

/-- `get_ptr` up to a NUL. -/
def getPtr : Option (CString × List Byte) :=
  match bs.dropWhile (· ≠ 0) with
  | [] => none
  | _ :: rest => some (cstring bs, rest)

/-- `get_string_ptr`: the string, or `NULL`. Without a positive length there is no first byte. -/
def getStringPtr (bs : List Byte) : Option (Option CString × List Byte) :=
  if encryption then do
    let (len, bs) ← getInt bs
    if len.toInt ≤ 0 then none
    else
      let (buf, bs) ← takeBytes len.toNat bs
      if buf.head? = some binNullChar then some (none, bs) else some (some (cstring buf), bs)
  else
    match bs with
    | [] => none
    | c :: rest =>
      if c = binNullChar then some (none, rest)
      else do
        let (s, bs) ← getPtr bs
        return (some s, bs)

/-- `get(std::string &)`. -/
def getString (bs : List Byte) : Option (CString × List Byte) := do
  let (ptr, bs) ← getStringPtr encryption bs
  return (ptr.getD (cstring []), bs)

def get (kind : Kind) (bs : List Byte) : Option (Value × List Byte) :=
  match kind with
  | .char => (takeBytes 1 bs).map fun r => (.char (r.1.headD 0), r.2)
  | .int => (getInt bs).map fun r => (.int r.1, r.2)
  | .uint => (getUInt bs).map fun r => (.uint r.1, r.2)
  | .long => (getLong bs).map fun r => (.long r.1, r.2)
  | .ulong => (getULong bs).map fun r => (.ulong r.1, r.2)
  | .short => (getShort bs).map fun r => (.short r.1, r.2)
  | .ushort => (getUShort bs).map fun r => (.ushort r.1, r.2)
  | .string => (getString encryption bs).map fun r => (.string r.1, r.2)

def getAll (encryption : Bool) : List Kind → List Byte → Option (List Value × List Byte)
  | [], bs => some ([], bs)
  | kind :: kinds, bs => do
    let (v, bs) ← get encryption kind bs
    let (vs, bs) ← getAll encryption kinds bs
    return (v :: vs, bs)

/-! ## Signed widths -/

/-- The signed types. -/
inductive Width where
  | short | int | long
deriving DecidableEq, Repr

def Width.bits : Width → ℕ
  | short => 16
  | int => 32
  | long => 64

def Width.Fits (w : Width) (i : ℤ) : Prop :=
  -(2 : ℤ) ^ (w.bits - 1) ≤ i ∧ i < (2 : ℤ) ^ (w.bits - 1)

instance Width.instDecidableFits (w : Width) (i : ℤ) : Decidable (w.Fits i) :=
  inferInstanceAs (Decidable (_ ∧ _))

/-- `put` for a signed type. -/
def putSigned : (w : Width) → BitVec w.bits → List Byte
  | .short, s => putShort s
  | .int, i => putInt i
  | .long, l => putLong l

/-- `get` for a signed type. -/
def getSigned : (w : Width) → List Byte → Option (BitVec w.bits × List Byte)
  | .short, bs => getShort bs
  | .int, bs => getInt bs
  | .long, bs => getLong bs

end Condor.Cedar
