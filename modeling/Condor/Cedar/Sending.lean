import Condor.Cedar.ReliSock
import Condor.Lib.Packets

/-!
# CEDAR over TCP — what the sender writes

Whatever the kernel takes of a packet, the rest of it is stashed, and nothing is written in between:
the bytes that are written and those that are stashed are packets, one after the other.
-/

namespace Condor.Cedar

open Packets List Option Nat Buf Sender

def encode (p : Packet Byte) : List Byte := header p.last (BitVec.ofNat 32 p.body.length) ++ p.body

@[simp] theorem length_header (last : Bool) (ns : BitVec 32) : (header last ns).length = 5 := rfl

def Fits (body : List Byte) : Prop := 0 < body.length ∧ body.length ≤ maxPacketSize

instance (body : List Byte) : Decidable (Fits body) := inferInstanceAs (Decidable (_ ∧ _))

/-- What is in the buffer behind the header. -/
def Buf.body (b : Buf) : List Byte := b.dta.drop headerSize

namespace Sender

def outRest (s : Sender) : List Byte := s.outBuf.elim [] fun b => b.dta.drop b.pt

def stream (s : Sender) : List Byte := s.wire ++ s.outRest

end Sender

/-- What holds between two calls of the sender. -/
structure SenderOk (s : Sender) : Prop where
  used : s.buf.dta = [] ∨ headerSize ≤ s.buf.dta.length
  room : s.buf.dta.length ≤ s.buf.maxSz
  size : ioBufSize ≤ s.buf.maxSz
  grown : s.buf.full = true ∨ s.buf.maxSz ≤ headerSize + maxPacketSize
  out : ∀ b, s.outBuf = some b → b.pt < b.dta.length

variable {b : Buf}

theorem Buf.consumed_iff : b.consumed = true ↔ b.pt = b.dta.length := decide_eq_true_iff

theorem Buf.full_iff : b.full = true ↔ b.dta.length = b.maxSz := decide_eq_true_iff

variable {s : Sender}

theorem stream_of_none (h : s.outBuf = none) : s.stream = s.wire := by
  simp [stream, outRest, h]

theorem stream_of_some (h : s.outBuf = some b) : s.stream = s.wire ++ b.dta.drop b.pt := by
  simp [stream, outRest, h]

theorem write_spec (s : Sender) (hb : b.pt < b.dta.length) :
    ∃ nw kernel, s.write b = some (nw, { b with pt := b.pt + nw },
        { s with kernel := kernel, wire := s.wire ++ (b.dta.drop b.pt).take nw }) ∧
      b.pt + nw ≤ b.dta.length ∧ (s.nonBlocking = false → b.pt + nw = b.dta.length) := by
  have hsz : b.numUntouched ≠ 0 := by
    unfold numUntouched numUsed
    omega
  unfold write condorWrite
  rw [if_neg hsz]
  unfold numUntouched numUsed at *
  cases s.nonBlocking with
  | true => exact ⟨_, _, rfl, by omega, nofun⟩
  | false => exact ⟨_, _, rfl, by omega, fun _ => by omega⟩

theorem written_append (b : Buf) (nw : ℕ) :
    (b.dta.drop b.pt).take nw ++ b.dta.drop (b.pt + nw) = b.dta.drop b.pt := by
  rw [← drop_drop, take_append_drop]

/-- **`finish_packet`** writes the stashed packet, or a part of it. -/
theorem finishPacket_spec (hs : SenderOk s) :
    ∃ result s', s.finishPacket = some (result, s') ∧ s'.buf = s.buf ∧
      s'.nonBlocking = s.nonBlocking ∧ s'.stream = s.stream ∧ SenderOk s' ∧
      (result = .sent ∧ s'.outBuf = none ∨ result = .stashed ∧ s'.outBuf.isSome) := by
  unfold finishPacket
  cases hout : s.outBuf with
  | none => exact ⟨_, s, rfl, rfl, rfl, rfl, hs, .inl ⟨rfl, hout⟩⟩
  | some b =>
    obtain ⟨nw, kernel, hwrite, hle, hall⟩ := write_spec s (hs.out b hout)
    have hbytes := written_append b nw
    simp only [hwrite, bind_eq_bind, bind_some]
    cases hdone : consumed { b with pt := b.pt + nw } with
    | true =>
      have hall : b.pt + nw = b.dta.length := consumed_iff.mp hdone
      rw [hall, drop_length, append_nil] at hbytes
      refine ⟨_, _, rfl, rfl, rfl, ?_, ⟨hs.used, hs.room, hs.size, hs.grown, nofun⟩,
        .inl ⟨rfl, rfl⟩⟩
      rw [stream_of_some hout, stream_of_none rfl, hbytes]
    | false =>
      have hne : b.pt + nw ≠ b.dta.length := fun h => by
        rw [consumed_iff.mpr h] at hdone
        cases hdone
      have hnb : s.nonBlocking = true := by
        cases h : s.nonBlocking
        · exact absurd (hall h) hne
        · rfl
      simp only [hnb]
      refine ⟨_, _, rfl, rfl, rfl, ?_, ⟨hs.used, hs.room, hs.size, hs.grown, ?_⟩, .inr ⟨rfl, rfl⟩⟩
      · rw [stream_of_some hout, stream_of_some rfl, append_assoc, hbytes]
      · intro b' hb'
        cases hb'
        exact lt_of_le_of_ne hle hne

theorem flush_spec (hdr : List Byte) (hroom : hdr.length ≤ s.buf.maxSz)
    (hne : hdr.length ≤ s.buf.dta.length) (hpos : 0 < s.buf.dta.length) :
    let bytes := hdr ++ s.buf.dta.drop hdr.length
    ∃ nw kernel, s.flush hdr = some (some nw, { s with
        kernel := kernel, wire := s.wire ++ bytes.take nw
        buf := if nw = bytes.length then s.buf.reset else { s.buf with dta := bytes, pt := nw } }) ∧
      nw ≤ bytes.length ∧ (s.nonBlocking = false → nw = bytes.length) := by
  intro bytes
  have hlen : bytes.length = s.buf.dta.length := by
    rw [List.length_append, List.length_drop]
    omega
  obtain ⟨nw, kernel, hwrite, hle, hall⟩ := write_spec s (b := { s.buf with dta := bytes, pt := 0 })
    (hlen ▸ hpos)
  simp only [zero_add] at hwrite hle hall
  refine ⟨nw, kernel, ?_, hle, hall⟩
  unfold flush
  rw [if_neg (not_lt.mpr hroom)]
  have hw : s.write { s.buf with dta := hdr ++ s.buf.dta.drop hdr.length, pt := 0 } = _ := hwrite
  simp only [hw, Option.bind_eq_bind, Option.bind_some, Option.pure_def, List.drop_zero]
  by_cases hdone : nw = bytes.length
  · rw [if_pos hdone, if_pos (by rw [consumed_iff.mpr hdone, Bool.or_true])]
    rfl
  · have hnb : s.nonBlocking = true := by
      cases h : s.nonBlocking
      · exact absurd (hall h) hdone
      · rfl
    have hrest : ¬ (consumed { s.buf with dta := bytes, pt := nw }) = true :=
      fun h => hdone (consumed_iff.mp h)
    rw [if_neg hdone, if_neg (by simpa [hnb] using hrest)]

theorem header_body (h : headerSize ≤ b.dta.length) (last : Bool) :
    header last (BitVec.ofNat 32 b.numUsed - BitVec.ofNat 32 headerSize) ++ b.dta.drop headerSize =
      encode ⟨last, b.body⟩ := by
  have hns : BitVec.ofNat 32 b.numUsed - BitVec.ofNat 32 headerSize =
      BitVec.ofNat 32 b.body.length := by
    rw [body, length_drop, numUsed]
    bv_omega
  rw [encode, hns, body]

/-- **`snd_packet`** adds the packet to the bytes that are under way, if no packet is stashed. -/
theorem sndPacket_spec (hs : SenderOk s) (last : Bool) (hne : headerSize ≤ s.buf.dta.length)
    (hfits : s.buf.body.length ≤ maxPacketSize) :
    ∃ result s', s.sndPacket last = some (result, s') ∧ s'.nonBlocking = s.nonBlocking ∧
      SenderOk s' ∧ (result = .pending ∧ s'.buf = s.buf ∧ s'.stream = s.stream ∨
       (result = .sent ∧ s'.outBuf = none ∨ result = .stashed) ∧ s'.buf.dta = [] ∧
        s'.stream = s.stream ++ encode ⟨last, s.buf.body⟩) := by
  obtain ⟨result, s1, hfinish, hbuf, hnb, hstream, hs1, hresult⟩ := finishPacket_spec hs
  unfold sndPacket
  simp only [hfinish, bind_eq_bind]
  rcases hresult with ⟨rfl, hout⟩ | ⟨rfl, -⟩
  · -- the buffer is written under its header
    have hmax : s1.buf.maxSz ≤ headerSize + maxPacketSize := by
      rcases hs.grown with hfull | hmax
      · rw [hbuf, ← of_decide_eq_true hfull]
        rw [body, length_drop] at hfits
        unfold numUsed
        omega
      · rwa [hbuf]
    have hroom : ¬ s1.buf.maxSz < 5 := by
      have := hs1.size
      unfold ioBufSize at this
      omega
    rw [← hbuf] at hne ⊢
    obtain ⟨nw, kernel, hflush, hle, hall⟩ := flush_spec
      (header last (BitVec.ofNat 32 s1.buf.numUsed - BitVec.ofNat 32 headerSize))
      (Nat.le_of_not_lt hroom) hne (Nat.lt_of_lt_of_le (by decide) hne)
    rw [show (header last _).length = headerSize from rfl, header_body hne] at hflush hle hall
    have hused : (encode ⟨last, s1.buf.body⟩).length = s1.buf.numUsed := by
      rw [← header_body hne, length_append, length_drop, length_header, numUsed]
      unfold headerSize at *
      omega
    rw [hused] at hflush hle hall
    simp only [hflush, bind_some]
    by_cases hdone : nw = s1.buf.numUsed
    · rw [if_pos hdone, if_pos hdone]
      refine ⟨_, _, rfl, hnb, ⟨.inl rfl, Nat.zero_le _, hs1.size, .inr hmax, hs1.out⟩,
        .inr ⟨.inl ⟨rfl, hout⟩, rfl, ?_⟩⟩
      rw [← hstream, stream_of_none hout, hdone, ← hused, take_length]
      exact stream_of_none hout
    · have hnonBlocking : s1.nonBlocking = true := by
        cases h : s1.nonBlocking
        · exact absurd (hall h) hdone
        · rfl
      have hnew : ioBufSize ≤ headerSize + maxPacketSize := by decide
      rw [if_neg hdone, if_neg hdone, if_pos hnonBlocking]
      refine ⟨_, _, rfl, hnb, ⟨.inl rfl, Nat.zero_le _, Nat.le_refl _, .inr hnew, ?_⟩,
        .inr ⟨.inr rfl, rfl, ?_⟩⟩
      · intro b hb
        cases hb
        exact hused.symm ▸ Nat.lt_of_le_of_ne hle hdone
      · rw [← hstream, stream_of_none hout, stream_of_some rfl]
        simp [stashPacket]
  · exact ⟨_, s1, rfl, hnb, hs1, .inl ⟨rfl, hbuf, hstream⟩⟩

/-! ## `put_bytes` -/

theorem seek_spec (hb : b.dta = []) (hsize : ioBufSize ≤ b.maxSz) :
    b.seek headerSize = { b with dta := replicate headerSize 0, pt := headerSize } := by
  have hlt : headerSize < b.maxSz := lt_of_lt_of_le (by decide) hsize
  simp [seek, hb, hlt, numUsed]

theorem putForce_spec (hfull : b.full = true) (dta : List Byte) :
    b.putForce dta = { b with dta := b.dta ++ dta, maxSz := b.maxSz + dta.length } := by
  have hfree : b.numFree = 0 := by
    rw [numFree, numUsed, full_iff.mp hfull, Nat.sub_self]
  unfold putForce
  rw [hfree]
  cases dta with
  | nil => simp
  | cons x dta =>
    simp [growBuf]

/-- **A buffer with room** is filled. -/
theorem fill_spec (hs : SenderOk s) (hroom : s.buf.full = false) (dta : List Byte) :
    ∃ tw s', s.fill dta = (tw, s') ∧ SenderOk s' ∧ s'.stream = s.stream ∧ s'.buf.dta ≠ [] ∧
      s'.buf.body = s.buf.body ++ dta.take tw ∧
      (tw = dta.length ∨ tw < dta.length ∧ 0 < tw ∧ s'.buf.body.length ≤ maxPacketSize) := by
  have hne : s.buf.dta.length ≠ s.buf.maxSz := fun h => by
    rw [full_iff.mpr h] at hroom
    cases hroom
  have hmax : s.buf.maxSz ≤ headerSize + maxPacketSize := hs.grown.resolve_left (by simp [hroom])
  -- the buffer with the header
  obtain ⟨b, hb, hbody, hused, hlt, hsz⟩ : ∃ b : Buf,
      (if s.buf.empty then s.buf.seek headerSize else s.buf) = b ∧ b.body = s.buf.body ∧
        headerSize ≤ b.dta.length ∧ b.dta.length < b.maxSz ∧ b.maxSz = s.buf.maxSz := by
    cases hempty : s.buf.empty with
    | true =>
      have hnil : s.buf.dta = [] := length_eq_zero_iff.mp (of_decide_eq_true hempty)
      refine ⟨_, rfl, ?_⟩
      rw [seek_spec hnil hs.size]
      refine ⟨by simp [body, hnil], by simp, ?_, rfl⟩
      simpa using lt_of_lt_of_le (by decide) hs.size
    | false =>
      have hnil : s.buf.dta ≠ [] := fun h => by simp [empty, numUsed, h] at hempty
      exact ⟨_, rfl, rfl, hs.used.resolve_left hnil, lt_of_le_of_ne hs.room hne, rfl⟩
  have hfree : b.numFree = b.maxSz - b.dta.length := rfl
  have hlen : (b.dta ++ dta.take (min dta.length b.numFree)).length =
      b.dta.length + min dta.length (b.maxSz - b.dta.length) := by
    rw [length_append, length_take]
    omega
  have hbody' : body { b with dta := b.dta ++ dta.take (min dta.length b.numFree) } =
      s.buf.body ++ dta.take (min dta.length b.numFree) := by
    rw [← hbody]
    exact drop_append_of_le_length hused
  refine ⟨min dta.length b.numFree,
    { s with buf := { b with dta := b.dta ++ dta.take (min dta.length b.numFree) } },
    by rw [fill, hb]; rfl,
    ⟨.inr (by simp only [hlen]; omega), by simp only [hlen]; omega, hsz ▸ hs.size,
      .inr (hsz ▸ hmax), hs.out⟩,
    rfl, ?_, hbody', ?_⟩
  · rw [← length_pos_iff, hlen]
    exact lt_of_lt_of_le (by decide) (le_trans hused (le_add_right _ _))
  · by_cases hall : dta.length ≤ b.numFree
    · exact .inl (min_eq_left hall)
    · refine .inr ⟨by omega, by omega, ?_⟩
      rw [body, length_drop, hlen]
      omega

variable {dta : List Byte}

/-- All data have been put, into the buffer and into packets. -/
def IsPut (s : Sender) (dta : List Byte) (r : Option (ℕ × Sender)) : Prop :=
  ∃ (s' : Sender) (ps : List (Packet Byte)), r = some (dta.length, s') ∧ SenderOk s' ∧
    s'.buf.dta ≠ [] ∧ (∀ p ∈ ps, p.last = false ∧ Fits p.body) ∧
    s'.stream = s.stream ++ ps.flatMap encode ∧
    ps.flatMap Packet.body ++ s'.buf.body = s.buf.body ++ dta

/-- **The loop of `put_bytes`** fills the buffer and adds packets to the bytes under way. -/
theorem putLoop_spec {n : ℕ} (hn : dta.length < n) (hs : SenderOk s)
    (hfull : s.buf.full = true → s.buf.body.length ≤ maxPacketSize) :
    IsPut s dta (putLoop n s dta) := by
  induction n generalizing s dta with
  | zero => exact absurd hn (Nat.not_lt_zero _)
  | succ n ih =>
    -- the rest of the round, after the packets that have been sent
    have hround : ∀ s1, SenderOk s1 → s1.buf.full = false → ∀ ps : List (Packet Byte),
        (∀ p ∈ ps, p.last = false ∧ Fits p.body) → s1.stream = s.stream ++ ps.flatMap encode →
        ps.flatMap Packet.body ++ s1.buf.body = s.buf.body →
        IsPut s dta (if dta.length ≤ (s1.fill dta).1 then some (s1.fill dta)
          else (putLoop n (s1.fill dta).2 (dta.drop (s1.fill dta).1)).bind fun r =>
            some ((s1.fill dta).1 + r.1, r.2)) := by
      intro s1 hs1 hroom ps hps hstream hbody
      obtain ⟨tw, s2, hfill, hs2, hstream2, hne, hbody2, htw⟩ := fill_spec hs1 hroom dta
      rw [hfill]
      rcases htw with rfl | ⟨hlt, hpos, hfits⟩
      · rw [if_pos (Nat.le_refl _)]
        refine ⟨s2, ps, rfl, hs2, hne, hps, hstream2.trans hstream, ?_⟩
        rw [hbody2, take_length, ← append_assoc, hbody]
      · rw [if_neg (Nat.not_le.mpr hlt)]
        have hless : (dta.drop tw).length < n := by
          rw [length_drop]
          omega
        obtain ⟨s', qs, hrun, hs', hne', hqs, hstream', hbody'⟩ := ih hless hs2 fun _ => hfits
        refine ⟨s', ps ++ qs, ?_, hs', hne', ?_, ?_, ?_⟩
        · simp only [hrun, bind_some, length_drop]
          rw [Nat.add_sub_cancel' (Nat.le_of_lt hlt)]
        · exact fun p hp => (mem_append.mp hp).elim (hps p) (hqs p)
        · rw [hstream', hstream2, hstream, flatMap_append, append_assoc]
        · rw [flatMap_append, append_assoc, hbody', hbody2, append_assoc,
            take_append_drop, ← append_assoc, hbody]
    rw [putLoop]
    cases hf : s.buf.full with
    | false =>
      exact hround s hs hf [] nofun (by simp) (by simp)
    | true =>
      have hlen := full_iff.mp hf
      have hne : headerSize ≤ s.buf.dta.length := hlen ▸ Nat.le_trans (by decide) hs.size
      have hpos : 0 < s.buf.body.length := by
        rw [body, length_drop, hlen]
        exact Nat.sub_pos_of_lt (Nat.lt_of_lt_of_le (by decide) hs.size)
      obtain ⟨result, s1, hsnd, -, hs1, hresult⟩ := sndPacket_spec hs false hne (hfull hf)
      simp only [hsnd, bind_eq_bind, bind_some]
      rcases hresult with ⟨rfl, hbuf, hstream⟩ | ⟨hsent, hbuf, hstream⟩
      · -- a packet is stashed already
        have hforce := putForce_spec (hbuf.symm ▸ hf) dta
        rw [hforce, hbuf]
        refine ⟨_, [], rfl, ⟨.inr ?_, ?_, ?_, .inl ?_, hs1.out⟩, ?_, nofun, ?_, ?_⟩
        · exact Nat.le_trans hne (by simp)
        · simp [hlen]
        · exact Nat.le_trans hs.size (Nat.le_add_right _ _)
        · rw [full_iff]
          simp [hlen]
        · exact fun h => by simp [(append_eq_nil_iff.mp h).1, headerSize] at hne
        · exact hstream.trans (append_nil _).symm
        · exact drop_append_of_le_length hne
      · have hroom : s1.buf.full = false := by
          cases h : s1.buf.full
          · rfl
          · have hzero := full_iff.mp h
            rw [hbuf] at hzero
            have hsize := hs1.size
            rw [← hzero] at hsize
            exact absurd hsize (by decide)
        have hresult := hround s1 hs1 hroom [⟨false, s.buf.body⟩] (by simpa using ⟨hpos, hfull hf⟩)
          (by simpa using hstream) (by simp [body, hbuf])
        rcases hsent with ⟨rfl, -⟩ | rfl <;> exact hresult

variable (dta) in
/-- **`put_bytes`** puts all bytes. -/
theorem putBytes_spec (hs : SenderOk s)
    (hfull : s.buf.full = true → s.buf.body.length ≤ maxPacketSize) :
    IsPut s dta (s.putBytes dta) :=
  putLoop_spec (lt_succ_self _) hs hfull

end Condor.Cedar
