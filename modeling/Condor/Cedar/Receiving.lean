import Condor.Cedar.Sending

/-!
# CEDAR over TCP — what the receiver reads

A packet that is read in parts is the same packet, and the bytes of the next one are not touched.

* `readPacket_spec`, `checkHeader_spec`, **`rcvPacket_spec`**: a call.
-/

namespace Condor.Cedar

open Packets List Nat Receiver Buf
open BitVec (ofNat)

variable {all : List (Packet Byte)} {got : List (List Byte)} {getting out rest : List Byte}
  {p : Packet Byte} {m : RcvMsg} {b : Buf} {c : ChainBuf} {result : RcvResult} {r' : Receiver}
  {len n sz : ℕ} (r : Receiver)

/-! ## The header -/

theorem ntohl_htonl (n : BitVec 32) : ntohl (htonl n) = n :=
  NetOrder.ofNat_ofNet_toNet (k := 4) n

theorem endOf_header (last : Bool) (ns : BitVec 32) :
    endOf (header last ns) = if last then 1 else 0 := by
  cases last <;> rfl

theorem header_inj {last last' : Bool} {ns ns' : BitVec 32}
    (h : header last ns = header last' ns') :
    last = last' ∧ ns = ns' := by
  obtain ⟨hlast, hns⟩ := cons.inj h
  refine ⟨?_, by rw [← ntohl_htonl ns, hns, ntohl_htonl]⟩
  revert hlast
  cases last <;> cases last' <;> decide

theorem ntohl_take_le (n : BitVec 32) (k : ℕ) :
    (ntohl ((htonl n).take k ++ replicate (4 - k) 0)).toNat ≤ n.toNat := by
  refine le_trans (mod_le _ _) (le_trans (NetOrder.ofNet_take_le 4 n.toNat k) ?_)
  exact mod_le _ _

theorem toNat_length {n : ℕ} (h : n < 2 ^ 31) :
    (ofNat 32 n).toNat = n ∧ (ofNat 32 n).toInt = n := by
  have hnat : (ofNat 32 n).toNat = n := by
    rw [BitVec.toNat_ofNat]
    omega
  exact ⟨hnat, by rw [BitVec.toInt_eq_toNat_of_lt (by omega), hnat]⟩

theorem toNat_of_fits {body : List Byte} (h : Fits body) :
    (ofNat 32 body.length).toNat = body.length :=
  (toNat_length (lt_of_le_of_lt h.2 (by decide))).1

/-! ## A packet in parts -/

def RcvMsg.pending (m : RcvMsg) : List Byte :=
  if m.partialPacket then header (m.mEnd ≠ 0) m.lenT ++ m.tmp.dta else []

theorem pending_of_part (h : m.partialPacket = true) :
    m.pending = header (m.mEnd ≠ 0) m.lenT ++ m.tmp.dta := if_pos h

theorem pending_of_whole (h : m.partialPacket = false) : m.pending = [] :=
  if_neg (by simp [h])

/-- What holds between two calls of the receiver. -/
def RcvOk (m : RcvMsg) : Prop :=
  m.partialPacket = true → 0 < m.remainingReadLength ∧ m.remainingReadLength ≤ m.tmp.numFree ∧
    m.tmp.dta.length + m.remainingReadLength = m.lenT.toNat ∧ m.tmp.pt = 0

theorem condorRead_nonBlocking (hsz : 0 < sz) :
    ∃ n kernel, n ≤ sz ∧ n ≤ r.wire.length ∧ r.condorRead true sz =
      some (r.wire.take n, { r with kernel := kernel, wire := r.wire.drop n }) := by
  have hread : r.condorRead true sz = some (r.wire.take (min (r.kernel.headD 0) sz),
      { r with kernel := r.kernel.tail, wire := r.wire.drop (min (r.kernel.headD 0) sz) }) := by
    rw [condorRead, if_neg (Nat.ne_of_gt hsz)]
    rfl
  have hle : min (r.kernel.headD 0) sz ≤ sz := Nat.min_le_right _ _
  generalize min (r.kernel.headD 0) sz = m at hread hle
  by_cases hm : m ≤ r.wire.length
  · exact ⟨m, _, hle, hm, hread⟩
  · have hlt := Nat.lt_of_not_le hm
    refine ⟨r.wire.length, r.kernel.tail, by omega, Nat.le_refl _, hread.trans ?_⟩
    rw [take_of_length_le (Nat.le_of_lt hlt), drop_eq_nil_of_le (Nat.le_of_lt hlt),
      take_length, drop_length]

theorem condorRead_blocking (hsz : 0 < sz) : (r.wire.length < sz ∧ r.condorRead false sz = none) ∨
    (sz ≤ r.wire.length ∧
      r.condorRead false sz = some (r.wire.take sz, { r with wire := r.wire.drop sz })) := by
  rw [condorRead, if_neg (Nat.ne_of_gt hsz)]
  by_cases h : r.wire.length < sz
  · exact .inl ⟨h, by simp [h]⟩
  · exact .inr ⟨Nat.le_of_not_lt h, by simp [h]⟩

theorem readPacket_spec (hlen : 0 < len) (hfree : len ≤ r.msg.tmp.numFree) :
    (r.readPacket len = none ∧ r.nonBlocking = false ∧ r.wire.length < len) ∨
    (∃ n kernel, (r.wire.take n).length < len ∧ r.nonBlocking = true ∧
      r.readPacket len = some (.wouldBlock, { r with
        kernel := kernel, wire := r.wire.drop n
        msg := { r.msg with
          tmp := { r.msg.tmp with dta := r.msg.tmp.dta ++ r.wire.take n }
          partialPacket := true, remainingReadLength := len - (r.wire.take n).length } })) ∨
    (∃ kernel, len ≤ r.wire.length ∧ r.readPacket len = some (.received, { r with
        kernel := kernel, wire := r.wire.drop len
        msg := { r.msg with
          tmp := {}, buf := r.msg.buf.put { r.msg.tmp with dta := r.msg.tmp.dta ++ r.wire.take len }
          ready := r.msg.ready || r.msg.mEnd ≠ 0 } })) := by
  unfold readPacket
  rw [if_neg (not_lt.mpr hfree)]
  cases hnb : r.nonBlocking with
  | true =>
    obtain ⟨n, kernel, hn, hle, hread⟩ := condorRead_nonBlocking r hlen
    have hlength : (r.wire.take n).length = n := length_take_of_le hle
    simp only [hread, Option.bind_eq_bind, Option.bind_some]
    by_cases hall : n = len
    · subst hall
      rw [if_neg (fun h => h hlength)]
      exact .inr (.inr ⟨kernel, hle, by simp [hnb]⟩)
    · rw [if_pos (fun h => hall (hlength.symm.trans h))]
      exact .inr (.inl ⟨n, kernel, hlength.symm ▸ lt_of_le_of_ne hn hall, trivial, by simp [hnb]⟩)
  | false =>
    rcases condorRead_blocking r hlen with ⟨hlt, hread⟩ | ⟨hle, hread⟩
    · exact .inl ⟨by simp [hread], rfl, hlt⟩
    · have hall : (r.wire.take len).length = len := by
        rw [length_take]
        omega
      simp only [hread, Option.bind_eq_bind, Option.bind_some]
      rw [if_neg (fun h => h hall)]
      exact .inr (.inr ⟨r.kernel, hle, by simp [hnb]⟩)

theorem checkHeader_spec (hp : Fits p.body) :
    r.checkHeader (header p.last (ofNat 32 p.body.length)) = { r with msg := { r.msg with
          mEnd := if p.last then 1 else 0, lenT := ofNat 32 p.body.length
          tmp := ({} : Buf).growBuf (p.body.length + 1) } }.readPacket p.body.length := by
  obtain ⟨hpos, hle⟩ := hp
  have hlen : ntohl (header p.last (ofNat 32 p.body.length)).tail =
      ofNat 32 p.body.length := ntohl_htonl _
  obtain ⟨hnat, hint⟩ := toNat_length (lt_of_le_of_lt hle (by decide))
  have hend : ¬ (endOf (header p.last (ofNat 32 p.body.length)) < 0 ∨
      10 < endOf (header p.last (ofNat 32 p.body.length))) := by
    rw [endOf_header]
    cases p.last <;> decide
  unfold checkHeader
  simp only [hlen, hnat]
  rw [if_neg hend, if_neg (by omega), if_neg (by omega), endOf_header]

theorem numFree_growBuf (n : ℕ) : n ≤ (({} : Buf).growBuf (n + 1)).numFree := by
  unfold growBuf
  split_ifs with h <;> simp only [numFree, numUsed, length_nil] at * <;> omega

/-- **What a call of `rcv_packet` comes to**, if the bytes begin a packet: it waits, it leaves a
part of the packet for later, or it takes it. -/
def Outcome (m : RcvMsg) (nonBlocking : Bool) (bytes : List Byte) (p : Packet Byte)
    (res : Option (RcvResult × Receiver)) : Prop :=
  (res = none ∧ (nonBlocking = false → bytes.length < (encode p).length)) ∨
  (∃ r, res = some (.wouldBlock, r) ∧ nonBlocking = true ∧ r.nonBlocking = true ∧ RcvOk r.msg ∧
    r.msg.pending ++ r.wire = bytes ∧ r.msg.ready = m.ready ∧ r.msg.buf = m.buf) ∨
  ∃ r b, res = some (.received, r) ∧ r.nonBlocking = nonBlocking ∧ r.msg.partialPacket = false ∧
    bytes = encode p ++ r.wire ∧ r.msg.ready = (m.ready || p.last) ∧ r.msg.buf = m.buf.put b ∧
    b.dta = p.body ∧ b.pt = 0

theorem take_eq_of_append {a b c d : List Byte} (h : a ++ b ++ c = d) (hn : n ≤ b.length) :
    a ++ b.take n = d.take (a.length + n) := by
  rw [← h, append_assoc, take_length_add_append, take_append_of_le_length hn]

theorem readBody_spec (hpart : r.msg.partialPacket = false)
    (hend : decide (r.msg.mEnd ≠ 0) = p.last) (hlenT : r.msg.lenT = ofNat 32 p.body.length)
    (hfits : Fits p.body) (hpt : r.msg.tmp.pt = 0) (hpos : 0 < len)
    (hfree : len ≤ r.msg.tmp.numFree) (hsum : r.msg.tmp.dta.length + len = p.body.length)
    (hbytes : r.msg.tmp.dta ++ r.wire ++ out = p.body ++ rest) : Outcome r.msg r.nonBlocking
      (header p.last (ofNat 32 p.body.length) ++ r.msg.tmp.dta ++ r.wire) p
      (r.readPacket len) := by
  have hnat := toNat_of_fits hfits
  rcases readPacket_spec r hpos hfree with ⟨hres, -, hlt⟩ | ⟨n, kernel, hlt, hnb, hres⟩ |
      ⟨kernel, hle, hres⟩
  · refine .inl ⟨hres, fun _ => ?_⟩
    simp only [encode, length_append]
    omega
  · refine .inr (.inl ⟨_, hres, hnb, hnb, ?_, ?_, rfl, rfl⟩)
    · intro _
      refine ⟨by simp only []; omega, ?_, ?_, hpt⟩
      · simp only [numFree, numUsed, length_append] at hfree ⊢
        omega
      · simp only [hlenT, length_append]
        omega
    · simp only [RcvMsg.pending, hlenT, hend]
      simp
  · refine .inr (.inr ⟨_, _, hres, rfl, hpart, ?_, by simp [← hend], rfl, ?_, hpt⟩)
    · have hbody := take_eq_of_append hbytes hle
      rw [hsum, take_left] at hbody
      simp [encode, ← hbody]
    · have hbody := take_eq_of_append hbytes hle
      rwa [hsum, take_left] at hbody

theorem checkHeader_outcome (hpart : r.msg.partialPacket = false)
    (hfits : Fits p.body) (hbytes : r.wire ++ out = p.body ++ rest) :
    Outcome r.msg r.nonBlocking (header p.last (ofNat 32 p.body.length) ++ r.wire) p
      (r.checkHeader (header p.last (ofNat 32 p.body.length))) := by
  have hnew : (({} : Buf).growBuf (p.body.length + 1)).dta = [] ∧
      (({} : Buf).growBuf (p.body.length + 1)).pt = 0 := by
    unfold growBuf
    split_ifs <;> exact ⟨rfl, rfl⟩
  rw [checkHeader_spec r hfits]
  have hbytes' : (({} : Buf).growBuf (p.body.length + 1)).dta ++ r.wire ++ out =
      p.body ++ rest := by
    rwa [hnew.1]
  have h := readBody_spec { r with msg := { r.msg with
      mEnd := if p.last then 1 else 0, lenT := ofNat 32 p.body.length
      tmp := ({} : Buf).growBuf (p.body.length + 1) } } hpart
    (by cases p.last <;> rfl) rfl hfits hnew.2 hfits.1 (numFree_growBuf _)
      (by simp [hnew.1]) hbytes'
  rw [hnew.1] at h
  exact h

theorem header_part_ok (hfits : Fits p.body) (hpos : 0 < n) (hn : n < headerSize) :
    let filled := (header p.last (ofNat 32 p.body.length)).take n ++ replicate (headerSize - n) 0
    ¬ (endOf filled < 0 ∨ 10 < endOf filled ∨ (ntohl filled.tail).toInt < 0 ∨
      (maxPacketSize : ℤ) < (ntohl filled.tail).toInt) := by
  obtain ⟨k, rfl⟩ := exists_eq_succ_of_ne_zero (ne_of_gt hpos)
  have hle := ntohl_take_le (ofNat 32 p.body.length) k
  have hnat := toNat_of_fits hfits
  have hmax := hfits.2
  have htail : ((header p.last (ofNat 32 p.body.length)).take (k + 1) ++
      replicate (headerSize - (k + 1)) 0).tail =
        (htonl (ofNat 32 p.body.length)).take k ++ replicate (4 - k) 0 := by
    rw [show headerSize - (k + 1) = 4 - k by unfold headerSize; omega]
    rfl
  have hend : endOf ((header p.last (ofNat 32 p.body.length)).take (k + 1) ++
      replicate (headerSize - (k + 1)) 0) = if p.last then 1 else 0 :=
    endOf_header p.last (ofNat 32 p.body.length)
  intro filled
  simp only [filled, htail, hend]
  generalize ntohl ((htonl (ofNat 32 p.body.length)).take k ++ replicate (4 - k) 0) = v at hle
  have hint : v.toInt = v.toNat :=
    BitVec.toInt_eq_toNat_of_lt (by unfold maxPacketSize at hmax; omega)
  cases p.last <;> simp <;> omega

theorem readHeader_spec (hpart : r.msg.partialPacket = false) (hfits : Fits p.body)
    (hbytes : r.wire ++ out = encode p ++ rest) :
    Outcome r.msg r.nonBlocking r.wire p r.readHeader := by
  have hhdr : ∀ n, n ≤ headerSize → n ≤ r.wire.length →
      r.wire.take n = (header p.last (ofNat 32 p.body.length)).take n := by
    intro n hn hle
    have h := take_eq_of_append (a := []) hbytes hle
    rw [length_nil, Nat.zero_add, encode, append_assoc,
      take_append_of_le_length (show n ≤ 5 from hn)] at h
    exact h
  -- the header is complete
  have hcheck : ∀ kernel, headerSize ≤ r.wire.length → Outcome r.msg r.nonBlocking r.wire p
      ({ r with kernel := kernel, wire := r.wire.drop headerSize }.checkHeader
        (r.wire.take headerSize)) := by
    intro kernel hle
    have htake : r.wire.take headerSize = header p.last (ofNat 32 p.body.length) :=
      hhdr headerSize (Nat.le_refl _) hle
    have hrest : r.wire.drop headerSize ++ out = p.body ++ rest := by
      rw [← take_append_drop headerSize r.wire, htake, append_assoc] at hbytes
      exact append_cancel_left hbytes
    have h := checkHeader_outcome { r with kernel := kernel, wire := r.wire.drop headerSize }
      hpart hfits hrest
    rwa [← htake, take_append_drop] at h
  have hsize : 0 < headerSize := by decide
  unfold readHeader
  cases hnb : r.nonBlocking with
  | false =>
    rcases condorRead_blocking r hsize with ⟨hlt, hread⟩ | ⟨hle, hread⟩
    · rw [hread]
      refine .inl ⟨rfl, fun _ => ?_⟩
      simp only [encode, length_append, length_header]
      unfold headerSize at hlt
      omega
    · have hlength : (r.wire.take headerSize).length = headerSize := length_take_of_le hle
      have hne : r.wire.take headerSize ≠ [] := fun h => by
        rw [h] at hlength
        exact absurd hlength (by decide)
      simp only [hread, Option.bind_eq_bind, Option.bind_some, if_neg hne, if_pos hlength]
      exact hnb ▸ hcheck r.kernel hle
  | true =>
    obtain ⟨n, kernel, hn, hle, hread⟩ := condorRead_nonBlocking r hsize
    have hlength : (r.wire.take n).length = n := length_take_of_le hle
    simp only [hread, Option.bind_eq_bind, Option.bind_some]
    by_cases hnone : r.wire.take n = []
    · -- nothing is there
      rw [if_pos hnone]
      refine .inr (.inl ⟨_, rfl, rfl, hnb, ?_, ?_, rfl, rfl⟩)
      · exact fun h => absurd (hpart.symm.trans h) (by decide)
      · have h := take_append_drop n r.wire
        rw [hnone] at h
        simpa [RcvMsg.pending, hpart] using h
    rw [if_neg hnone]
    by_cases hall : n = headerSize
    · rw [if_pos (hlength.trans hall), hall]
      exact hnb ▸ hcheck kernel (hall ▸ hle)
    · -- a part of the header is there, and the rest is waited for
      have hpos : 0 < n := Nat.pos_of_ne_zero fun h => hnone (by rw [h]; rfl)
      have hpart := header_part_ok hfits hpos (Nat.lt_of_le_of_ne hn hall)
      rw [← hhdr n hn hle] at hpart
      rw [if_neg (fun h => hall (hlength.symm.trans h)), hlength, if_neg hpart]
      rcases condorRead_blocking { r with kernel := kernel, wire := r.wire.drop n }
        (show 0 < headerSize - n by omega) with ⟨-, hmore⟩ | ⟨hmore, hmore'⟩
      · simp only [hmore]
        exact .inl ⟨rfl, fun h => by cases h⟩
      · have hsum : n + (headerSize - n) = headerSize := Nat.add_sub_cancel' hn
        rw [length_drop] at hmore
        simp only [hmore', Option.bind_some, drop_drop, ← take_add, hsum]
        exact hnb ▸ hcheck kernel (by omega)

/-- **`rcv_packet`** takes the packet that comes next. -/
theorem rcvPacket_spec (hok : RcvOk r.msg) (hfits : Fits p.body)
    (hbytes : r.msg.pending ++ r.wire ++ out = encode p ++ rest) :
    Outcome r.msg r.nonBlocking (r.msg.pending ++ r.wire) p r.rcvPacket := by
  unfold rcvPacket
  cases hpart : r.msg.partialPacket with
  | true =>
    obtain ⟨hpos, hfree, hsum, hpt⟩ := hok hpart
    rw [pending_of_part hpart, encode, append_assoc, append_assoc, append_assoc] at hbytes
    obtain ⟨hhdr, hrest⟩ := append_inj hbytes rfl
    obtain ⟨hend, hlenT⟩ := header_inj hhdr
    have hnat : r.msg.lenT.toNat = p.body.length := hlenT ▸ toNat_of_fits hfits
    rw [pending_of_part hpart, hhdr]
    exact readBody_spec { r with msg := { r.msg with partialPacket := false } } rfl hend hlenT hfits
      hpt hpos hfree (hsum.trans hnat) (by rw [append_assoc]; exact hrest)
  | false =>
    rw [pending_of_whole hpart] at hbytes ⊢
    exact readHeader_spec r hpart hfits hbytes

theorem rcvPacket_rejects {rest : List Byte}
    (hpart : r.msg.partialPacket = false) (hnb : r.nonBlocking = false) (hfits : ¬ Fits p.body)
    (hsmall : p.body.length < 2 ^ 31) (hwire : r.wire = encode p ++ rest) :
    ∃ r', r.rcvPacket = some (.failed, r') := by
  obtain ⟨-, hint⟩ := toNat_length hsmall
  have htake : r.wire.take headerSize = header p.last (ofNat 32 p.body.length) := by
    rw [hwire]
    rfl
  have hlen : ntohl (header p.last (ofNat 32 p.body.length)).tail =
      ofNat 32 p.body.length := ntohl_htonl _
  have hread : r.condorRead r.nonBlocking headerSize =
      some (r.wire.take headerSize, { r with wire := r.wire.drop headerSize }) := by
    rcases condorRead_blocking r (show 0 < headerSize by decide) with ⟨hlt, -⟩ | ⟨-, hread⟩
    · rw [hwire, length_append, encode, length_append, length_header] at hlt
      unfold headerSize at hlt
      omega
    · rwa [← hnb] at hread
  unfold rcvPacket readHeader checkHeader
  simp only [hpart, Bool.false_eq_true, if_false, hread, Option.bind_eq_bind,
    Option.bind_some, htake, hlen, hint]
  have hcase : p.body.length ≤ 0 ∨ maxPacketSize < p.body.length := by
    unfold Fits at hfits
    omega
  rw [if_neg (by cases p.last <;> simp [header]),
    if_pos (show (header p.last _).length = headerSize from rfl), endOf_header,
    if_neg (by cases p.last <;> decide)]
  by_cases hbig : (maxPacketSize : ℤ) < p.body.length
  · exact ⟨_, by rw [if_pos hbig]⟩
  · exact ⟨_, by rw [if_neg hbig, if_pos (by omega)]⟩

/-! ## The chain -/

def ChainBuf.unread (c : ChainBuf) : List Byte := c.rest.flatMap fun b => b.dta.drop b.pt

/-- What holds of a chain that is read. -/
structure ChainOk (c : ChainBuf) : Prop where
  before : ∀ b ∈ c.before, b.pt = b.dta.length
  first : ∀ b ∈ c.rest, b.pt ≤ b.dta.length
  later : ∀ b ∈ c.rest.tail, b.pt < b.dta.length

structure ChainNew (c : ChainBuf) : Prop where
  before : c.before = []
  rest : ∀ b ∈ c.rest, b.pt = 0 ∧ 0 < b.dta.length

theorem ChainNew.ok (h : ChainNew c) : ChainOk c where
  before := by simp [h.before]
  first b hb := by
    rw [(h.rest b hb).1]
    exact zero_le _
  later b hb := by
    obtain ⟨hpt, hlen⟩ := h.rest b (mem_of_mem_tail hb)
    rwa [hpt]

theorem ChainNew.put (h : ChainNew c) (hpt : b.pt = 0) (hlen : 0 < b.dta.length) :
    ChainNew (c.put b) ∧ (c.put b).unread = c.unread ++ b.dta := by
  have hput : c.put b = ⟨[], c.rest ++ [b]⟩ := by
    have hb := h.before
    unfold ChainBuf.put
    by_cases hrest : c.rest = []
    · rw [hb, hrest]
      rfl
    · rw [if_neg fun h => hrest h.2, if_neg hrest, hb]
  rw [hput]
  refine ⟨⟨rfl, fun b' hb' => ?_⟩, by simp [ChainBuf.unread, hpt]⟩
  rcases mem_append.mp hb' with hb' | hb'
  · exact h.rest b' hb'
  · rw [mem_singleton.mp hb']
    exact ⟨hpt, hlen⟩

theorem drop_eq_nil_iff (hb : b.pt ≤ b.dta.length) : b.dta.drop b.pt = [] ↔ b.consumed = true := by
  rw [List.drop_eq_nil_iff, consumed_iff]
  omega

theorem ChainOk.consumed_iff (h : ChainOk c) : c.consumed = true ↔ c.unread = [] := by
  obtain ⟨before, rest⟩ := c
  unfold ChainBuf.consumed ChainBuf.unread
  match rest with
  | [] =>
    simp only [append_nil, List.flatMap_nil, iff_true]
    cases hlast : before.getLast? with
    | none => rfl
    | some b => exact consumed_iff.mpr (h.before b (List.mem_of_getLast? hlast))
  | [b] => simpa using (drop_eq_nil_iff (h.first b mem_cons_self)).symm
  | b :: b' :: rest =>
    -- the last buffer has not been reached
    obtain ⟨t, ht⟩ : ∃ t, (b' :: rest).getLast? = some t :=
      ⟨_, List.getLast?_eq_some_getLast (by simp)⟩
    have hlast : (before ++ b :: b' :: rest).getLast? = some t := by
      rw [List.getLast?_append, List.getLast?_cons_cons, ht]
      rfl
    have hmem : t ∈ b' :: rest := List.mem_of_getLast? ht
    have hlt := h.later t hmem
    have hnot : t.consumed = false := by
      cases hc : t.consumed
      · rfl
      · exact absurd (consumed_iff.mp hc) (Nat.ne_of_lt hlt)
    simp only [hlast, hnot, Bool.false_eq_true, false_iff]
    intro hnil
    have hdrop := (List.flatMap_eq_nil_iff.mp hnil) t (List.mem_cons_of_mem _ hmem)
    exact absurd (List.drop_eq_nil_iff.mp hdrop) (Nat.not_le.mpr hlt)

/-- **`get`** gives the bytes that come next. -/
theorem getLoop_spec (before rest : List Buf) (sz : ℕ) (h : ChainOk ⟨before, rest⟩) :
    (ChainBuf.getLoop before rest sz).1 = (ChainBuf.unread ⟨before, rest⟩).take sz ∧
    (ChainBuf.getLoop before rest sz).2.unread = (ChainBuf.unread ⟨before, rest⟩).drop sz ∧
    ChainOk (ChainBuf.getLoop before rest sz).2 := by
  induction rest generalizing before sz with
  | nil =>
    exact ⟨by simp [ChainBuf.getLoop, ChainBuf.unread], by simp [ChainBuf.getLoop, ChainBuf.unread],
      h⟩
  | cons b rest ih =>
    have hb := h.first b mem_cons_self
    have hn : b.numUntouched = (b.dta.drop b.pt).length := by
      rw [length_drop]
      rfl
    have hunread : ∀ before b, ChainBuf.unread ⟨before, b :: rest⟩ =
        b.dta.drop b.pt ++ ChainBuf.unread ⟨before, rest⟩ := fun _ _ => by simp [ChainBuf.unread]
    have hlen : ((b.dta.drop b.pt).take (min sz b.numUntouched)).length =
        min sz b.numUntouched := by
      rw [length_take]
      omega
    simp only [ChainBuf.getLoop, getMax, hlen]
    by_cases hall : min sz b.numUntouched = sz
    · have hle : sz ≤ (b.dta.drop b.pt).length := by omega
      rw [if_pos hall, hall, hunread, hunread, take_append_of_le_length hle,
        drop_append_of_le_length hle]
      refine ⟨rfl, by rw [drop_drop], h.before, fun b' hb' => ?_, h.later⟩
      rcases mem_cons.mp hb' with rfl | hb'
      · rw [length_drop] at hle
        simp only []
        omega
      · exact h.first b' (mem_cons_of_mem _ hb')
    · -- the buffer is read to its end
      have hmin : min sz b.numUntouched = (b.dta.drop b.pt).length := by omega
      have hok : ChainOk ⟨before ++ [{ b with pt := b.pt + min sz b.numUntouched }], rest⟩ := by
        refine ⟨fun b' hb' => ?_, fun b' hb' => h.first b' (mem_cons_of_mem _ hb'),
          fun b' hb' => h.later b' (mem_of_mem_tail hb')⟩
        rcases mem_append.mp hb' with hb' | hb'
        · exact h.before b' hb'
        · rw [mem_singleton.mp hb', hmin, length_drop]
          simp only []
          omega
      obtain ⟨hbytes, hrest, hok'⟩ := ih _ (sz - min sz b.numUntouched) hok
      have hle : (b.dta.drop b.pt).length ≤ sz := by omega
      rw [if_neg hall, hunread]
      refine ⟨?_, ?_, hok'⟩
      · simp only [hbytes]
        rw [hmin, take_length, take_append, take_of_length_le hle]
        rfl
      · simp only [hrest]
        rw [hmin, drop_append, drop_eq_nil_of_le hle]
        rfl

/-! ## Messages -/

/-- The packets received make the messages that have been got and the one that is read or received.
-/
def Reads (received : List (Packet Byte)) (got : List (List Byte)) (getting : List Byte)
    (m : RcvMsg) :
    Prop :=
  if m.ready then
    ChainOk m.buf ∧ assemble ([], []) received = (got ++ [getting ++ m.buf.unread], [])
  else ChainNew m.buf ∧ getting = [] ∧ assemble ([], []) received = (got, m.buf.unread)

/-- **What holds of the receiver**: the packets that are not received are in the bytes under way. -/
def RcvGood (all : List (Packet Byte)) (got : List (List Byte)) (getting : List Byte) (m : RcvMsg)
    (stream : List Byte) : Prop :=
  ∃ received inflight, all = received ++ inflight ∧ Reads received got getting m ∧ RcvOk m ∧
    (∀ p ∈ inflight, Fits p.body) ∧ m.pending ++ stream = inflight.flatMap encode

theorem Reads.receive {received : List (Packet Byte)} {m m' : RcvMsg}
    (h : Reads received got getting m) (hready : m.ready = false) (hp : Fits p.body)
    (hb : b.dta = p.body) (hpt : b.pt = 0) (hbuf : m'.buf = m.buf.put b)
    (hready' : m'.ready = p.last) :
    Reads (received ++ [p]) got getting m' := by
  rw [Reads, hready] at h
  obtain ⟨hnew, hgetting, hreceived⟩ := h
  obtain ⟨hnew', hunread⟩ := hnew.put hpt (hb ▸ hp.1)
  rw [Reads, hready', assemble_append, hreceived, hbuf]
  cases hlast : p.last with
  | true => exact ⟨hnew'.ok, by simp [join, hlast, hunread, hb, hgetting]⟩
  | false => exact ⟨hnew', hgetting, by simp [join, hlast, hunread, hb]⟩

theorem RcvGood.more {stream : List Byte} (h : RcvGood all got getting m stream)
    {ps : List (Packet Byte)} (hps : ∀ p ∈ ps, Fits p.body) :
    RcvGood (all ++ ps) got getting m (stream ++ ps.flatMap encode) := by
  obtain ⟨received, inflight, hall, hreads, hok, hfits, hbytes⟩ := h
  refine ⟨received, inflight ++ ps, ?_, hreads, hok, ?_, ?_⟩
  · rw [hall, append_assoc]
  · exact fun p hp => (mem_append.mp hp).elim (hfits p) (hps p)
  · rw [← append_assoc, hbytes, flatMap_append]

theorem rcvPacket_nothing (hbytes : r.msg.pending ++ r.wire = []) : r.rcvPacket = none ∨
      r.nonBlocking = true ∧
      ∃ kernel, r.rcvPacket = some (.wouldBlock, { r with kernel := kernel }) := by
  obtain ⟨hpending, hwire⟩ := append_eq_nil_iff.mp hbytes
  have hpart : r.msg.partialPacket = false := by
    cases h : r.msg.partialPacket
    · rfl
    · rw [pending_of_part h] at hpending
      cases hpending
  unfold rcvPacket readHeader
  rw [if_neg (by simp [hpart])]
  have hsize : 0 < headerSize := by decide
  cases hnb : r.nonBlocking with
  | false =>
    rcases condorRead_blocking r hsize with ⟨-, hread⟩ | ⟨hle, -⟩
    · exact .inl (by rw [hread]; rfl)
    · rw [hwire] at hle
      exact absurd hle (by decide)
  | true =>
    obtain ⟨n, kernel, -, -, hread⟩ := condorRead_nonBlocking r hsize
    simp [hread, hwire, hnb]

/-- **A call of `rcv_packet`** keeps what holds of the receiver, and does not fail. -/
theorem rcvPacket_good (h : RcvGood all got getting r.msg (r.wire ++ out))
    (hready : r.msg.ready = false) (hrun : r.rcvPacket = some (result, r')) :
    RcvGood all got getting r'.msg (r'.wire ++ out) ∧
      (result = .wouldBlock ∧ r.nonBlocking = true ∨ result = .received) := by
  obtain ⟨received, inflight, hall, hreads, hok, hfits, hbytes⟩ := h
  cases inflight with
  | nil =>
    rw [← append_assoc] at hbytes
    obtain ⟨hnothing, -⟩ := append_eq_nil_iff.mp hbytes
    have hnext := rcvPacket_nothing r hnothing
    rw [hrun] at hnext
    obtain ⟨hnb, kernel, ⟨⟩⟩ := hnext.resolve_left (Option.some_ne_none _)
    exact ⟨⟨received, [], hall, hreads, hok, hfits, by rwa [← append_assoc]⟩, .inl ⟨rfl, hnb⟩⟩
  | cons p ps =>
    rw [← append_assoc] at hbytes
    have hnext := rcvPacket_spec r hok (hfits p mem_cons_self) hbytes
    rw [hrun] at hnext
    rcases hnext with ⟨⟨⟩, -⟩ | ⟨r1, ⟨⟩, hnb, -, hok1, hbytes1, hready1, hbuf1⟩ |
      ⟨r1, b, ⟨⟩, -, hpart1, hbytes1, hready1, hbuf1, hb, hpt⟩
    · refine ⟨⟨received, p :: ps, hall, ?_, hok1, hfits, ?_⟩, .inl ⟨rfl, hnb⟩⟩
      · rwa [Reads, hready1, hbuf1]
      · rw [← append_assoc, hbytes1, hbytes, flatMap_cons]
    · refine ⟨⟨received ++ [p], ps, ?_, ?_, ?_, fun q hq => hfits q (mem_cons_of_mem _ hq), ?_⟩,
        .inr rfl⟩
      · rw [hall, append_assoc]
        rfl
      · refine hreads.receive hready (hfits p mem_cons_self) hb hpt hbuf1 ?_
        rw [hready1, hready, Bool.false_or]
      · exact fun h => absurd (hpart1.symm.trans h) (by decide)
      · rw [hbytes1, append_assoc] at hbytes
        rw [pending_of_whole hpart1]
        exact append_cancel_left hbytes

theorem pending_lt (hok : RcvOk m) (hfits : Fits p.body)
    (hbytes : m.pending ++ out = encode p ++ rest) : m.pending.length < (encode p).length := by
  cases hpart : m.partialPacket with
  | false =>
    rw [pending_of_whole hpart, encode, length_append, length_header, length_nil]
    omega
  | true =>
    obtain ⟨hpos, -, hsum, -⟩ := hok hpart
    rw [pending_of_part hpart, encode, append_assoc, append_assoc] at hbytes
    obtain ⟨hhdr, -⟩ := append_inj hbytes rfl
    obtain ⟨-, hlenT⟩ := header_inj hhdr
    rw [hlenT, toNat_of_fits hfits] at hsum
    rw [pending_of_part hpart, encode, length_append, length_append, length_header, length_header]
    omega

/-- **Progress**: while a message is under way, a blocking call takes a packet. -/
theorem rcvPacket_progress (h : RcvGood all got getting r.msg r.wire)
    (hready : r.msg.ready = false) (hnb : r.nonBlocking = false)
    (hmore : (assemble ([], []) all).1 ≠ got) :
    ∃ r', r.rcvPacket = some (.received, r') ∧ r'.nonBlocking = false ∧
      r'.wire.length < r.wire.length := by
  obtain ⟨received, inflight, hall, hreads, hok, hfits, hbytes⟩ := h
  cases inflight with
  | nil =>
    rw [Reads, hready] at hreads
    rw [hall, append_nil, hreads.2.2] at hmore
    exact absurd rfl hmore
  | cons p ps =>
    have hp := hfits p mem_cons_self
    rw [flatMap_cons] at hbytes
    have hlt := pending_lt hok hp hbytes
    have hlen := congrArg length hbytes
    rw [length_append, length_append] at hlen
    have hbytes' : r.msg.pending ++ r.wire ++ [] = encode p ++ ps.flatMap encode := by
      rwa [append_nil]
    rcases rcvPacket_spec r hok hp hbytes' with ⟨-, hshort⟩ |
      ⟨r1, -, hnb', -⟩ | ⟨r1, b, hres, hnb1, -, hbytes1, -⟩
    · have := hshort hnb
      rw [length_append] at this
      omega
    · rw [hnb] at hnb'
      cases hnb'
    · refine ⟨r1, hres, hnb1.trans hnb, ?_⟩
      have hlen1 := congrArg length hbytes1
      rw [length_append, length_append] at hlen1
      omega

/-- **The loop of `get_bytes`** keeps what holds of the receiver. -/
theorem receiveLoop_good (h : RcvGood all got getting r.msg (r.wire ++ out))
    (hrun : receiveLoop n r = some (result, r')) :
    RcvGood all got getting r'.msg (r'.wire ++ out) ∧
      (result = .wouldBlock ∨ result = .received ∧ r'.msg.ready = true) := by
  induction n generalizing r with
  | zero => cases hrun
  | succ n ih =>
    rw [receiveLoop] at hrun
    cases hready : r.msg.ready with
    | true =>
      rw [if_pos hready] at hrun
      cases hrun
      exact ⟨h, .inr ⟨rfl, hready⟩⟩
    | false =>
      rw [if_neg (by simp [hready]), handleIncomingPacket, if_neg (by simp [hready])] at hrun
      obtain ⟨⟨result1, r1⟩, hcall, hrest⟩ := Option.bind_eq_some_iff.mp hrun
      obtain ⟨hgood, ⟨rfl, -⟩ | rfl⟩ := rcvPacket_good r h hready hcall
      · cases hrest
        exact ⟨hgood, .inl rfl⟩
      · exact ih r1 hgood hrest

/-- **A blocking call of `get_bytes` comes back** if there is a message under way. -/
theorem receiveLoop_progress (hn : r.wire.length + 1 < n)
    (h : RcvGood all got getting r.msg r.wire) (hnb : r.nonBlocking = false)
    (hmore : (assemble ([], []) all).1 ≠ got) : ∃ r', receiveLoop n r = some (.received, r') := by
  induction n generalizing r with
  | zero => omega
  | succ n ih =>
    rw [receiveLoop]
    cases hready : r.msg.ready with
    | true => exact ⟨r, rfl⟩
    | false =>
      obtain ⟨r1, hcall, hnb1, hlt⟩ := rcvPacket_progress r h hready hnb hmore
      have h' : RcvGood all got getting r.msg (r.wire ++ []) := by rwa [append_nil]
      have hgood := (rcvPacket_good r h' hready hcall).1
      rw [append_nil] at hgood
      obtain ⟨r', hrun⟩ := ih r1 (by omega) hgood hnb1
      refine ⟨r', ?_⟩
      simp only [handleIncomingPacket, hready, hcall]
      exact hrun

end Condor.Cedar
