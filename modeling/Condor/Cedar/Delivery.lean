import Condor.Cedar.Receiving

/-!
# CEDAR over TCP — messages arrive as they were put

A packet that the receiver does not take is one with an empty body, or with more than a megabyte.
There is an empty one if the message ends after nothing has been put behind a packet that was sent,
and a large one if the buffer has been made larger while the kernel was not ready. In all other
runs, whatever the modes and the answers of the kernel are, no call fails, and the messages that are
got are those that were put.

* **`run_delivers`**.
-/

namespace Condor.Cedar

open Packets List Receiver Buf Sender

namespace Op

variable {got : List (List Byte)} {s : Sender}

/-- An end of message is finished before the next message is put, a message is not empty, and it is
read to its end. -/
def Legal (net : Net) : Op → Prop
  | putBytes .. => net.closing = false
  | endOfMessage .. => net.closing = false ∧ net.sending ≠ []
  | finishEndOfMessage .. => net.closing = true
  | readEndOfMessage => peekEndOfMessage net.rcv = true
  | _ => True

def bySender : Op → Bool
  | putBytes .. | endOfMessage .. | finishEndOfMessage .. => true
  | _ => false

/-- The buffer makes a packet that the receiver takes, if the call makes it one. -/
def Fits (net : Net) : Op → Prop
  | putBytes .. => net.snd.buf.full = true → net.snd.buf.body.length ≤ maxPacketSize
  | endOfMessage .. => Cedar.Fits net.snd.buf.body
  | _ => True

end Op

/-- The states of runs with such calls. -/
inductive Run : Net → Prop
  | start : Run {}
  | step {net net' : Net} (op : Op) {ok : Bool} (hrun : Run net) (hlegal : op.Legal net)
      (hfits : op.Fits net) (hstep : net.step op = some (ok, net')) : Run net'

def bufPacket (net : Net) : List (Packet Byte) :=
  if net.snd.buf.dta = [] then [] else [⟨net.closing, net.snd.buf.body⟩]

/-- **What holds in every state**, with all packets that have been made. -/
structure Good (net : Net) (all : List (Packet Byte)) : Prop where
  sender : SenderOk net.snd
  receiver : RcvGood all net.got net.getting net.rcv net.snd.stream
  sent : assemble ([], []) (all ++ bufPacket net) = (net.sent, net.sending)
  closing : net.closing = true → net.sending = [] ∧ (net.snd.buf.dta = [] ∨ Fits net.snd.buf.body)
  idle : net.closing = false → net.snd.buf.dta = [] → net.snd.outBuf = none ∧ net.sending = []

theorem good_start : Good {} [] where
  sender := ⟨.inl rfl, Nat.zero_le _, Nat.le_refl _, .inr (by decide), nofun⟩
  receiver := ⟨[], [], rfl, ⟨⟨rfl, nofun⟩, rfl, rfl⟩, nofun, nofun, rfl⟩
  sent := rfl
  closing := nofun
  idle _ _ := ⟨rfl, rfl⟩

variable {got : List (List Byte)} {s : Sender} {net net' : Net} {all : List (Packet Byte)} {op : Op}
  {ok : Bool}

/-! ## The sender -/

theorem SenderOk.call (h : SenderOk s) (nonBlocking : Bool) (kernel : List ℕ) :
    SenderOk { s with nonBlocking := nonBlocking, kernel := kernel } :=
  ⟨h.used, h.room, h.size, h.grown, h.out⟩

theorem SenderOk.note (h : SenderOk s) (result : SndResult) : SenderOk (s.note result) := by
  unfold Sender.note
  split_ifs
  · exact ⟨h.used, h.room, h.size, h.grown, h.out⟩
  · exact h

@[simp] theorem note_buf (s : Sender) (result : SndResult) : (s.note result).buf = s.buf := by
  unfold note
  split_ifs <;> rfl

@[simp] theorem note_outBuf (s : Sender) (result : SndResult) :
    (s.note result).outBuf = s.outBuf := by
  unfold note
  split_ifs <;> rfl

@[simp] theorem note_stream (s : Sender) (result : SndResult) :
    (s.note result).stream = s.stream := by
  unfold note
  split_ifs <;> rfl

theorem Good.opened (h : Good net all) (hclosing : net.closing = false) :
    ∃ part, assemble ([], []) all = (net.sent, part) ∧ part ++ net.snd.buf.body = net.sending := by
  have hsent := h.sent
  rw [assemble_append] at hsent
  by_cases hbuf : net.snd.buf.dta = []
  · rw [bufPacket, if_pos hbuf] at hsent
    exact ⟨_, hsent, by simp [body, hbuf]⟩
  · rw [bufPacket, if_neg hbuf, assemble_inside (by simp [hclosing]), Prod.mk.injEq] at hsent
    refine ⟨(assemble ([], []) all).2, Prod.ext hsent.1 rfl, by simpa using hsent.2⟩

variable {kernel : List ℕ} {nonBlocking : Bool} {sz : ℕ}

section

variable (h : Good net all)
include h

theorem Good.putBytes {dta : List Byte} (hlegal : (Op.putBytes nonBlocking kernel dta).Legal net)
    (hfits : (Op.putBytes nonBlocking kernel dta).Fits net) :
    ∃ net' all', net.step (.putBytes nonBlocking kernel dta) = some (true, net') ∧
      Good net' all' := by
  obtain ⟨s', ps, hrun, hs', hne, hps, hstream, hbody⟩ :=
    putBytes_spec dta (h.sender.call nonBlocking kernel) hfits
  have hclosing : net.closing = false := hlegal
  obtain ⟨part, hall, hpart⟩ := h.opened hclosing
  have hput : (net.sender nonBlocking kernel).putBytes dta = _ := hrun
  refine ⟨{ net with snd := s', sending := net.sending ++ dta }, all ++ ps,
    by simp [Net.step, hput], hs', ?_, ?_, ?_, fun _ hbuf => absurd hbuf hne⟩
  · rw [hstream]
    exact h.receiver.more fun p hp => (hps p hp).2
  · have hinside : ∀ p ∈ ps, p.last = false := fun p hp => (hps p hp).1
    rw [assemble_append, assemble_append, hall, assemble_inside hinside, bufPacket, if_neg hne]
    simp only [assemble_cons, join, hclosing]
    rw [append_assoc, hbody, ← append_assoc]
    exact congrArg (fun l => (net.sent, l ++ dta)) hpart
  · exact fun h => absurd (hclosing.symm.trans h) (by decide)

theorem sndPacket_last (nonBlocking : Bool) (kernel : List ℕ)
    (hne : net.snd.buf.dta ≠ []) (hfits : Fits net.snd.buf.body) {sent : List (List Byte)}
    (hsent : assemble ([], []) (all ++ [⟨true, net.snd.buf.body⟩]) = (sent, [])) :
    ∃ result s', (net.sender nonBlocking kernel).sndPacket true = some (result, s') ∧
      result ≠ .failed ∧ ∃ all', Good { net with
        snd := s'.note result, sent := sent, sending := [], closing := result ≠ .sent } all' := by
  have hlen : headerSize ≤ net.snd.buf.dta.length := h.sender.used.resolve_left hne
  obtain ⟨result, s', hrun, -, hs', hresult⟩ :=
    sndPacket_spec (h.sender.call nonBlocking kernel) true hlen hfits.2
  refine ⟨result, s', hrun, ?_⟩
  rcases hresult with ⟨rfl, hbuf, hstream⟩ | ⟨hresult, hbuf, hstream⟩
  · refine ⟨by decide, all, hs'.note .pending, ?_, ?_, ?_, ?_⟩
    · rw [note_stream, hstream]
      exact h.receiver
    · simpa [bufPacket, hbuf, hne] using hsent
    · exact fun _ => ⟨rfl, .inr (by simpa [hbuf] using hfits)⟩
    · exact fun hclosing => by simp at hclosing
  · have hfailed : result ≠ .failed := by
      rcases hresult with ⟨rfl, -⟩ | rfl <;> decide
    refine ⟨hfailed, all ++ [⟨true, net.snd.buf.body⟩], hs'.note result, ?_, ?_, ?_, ?_⟩
    · have hps : ∀ p ∈ [(⟨true, net.snd.buf.body⟩ : Packet Byte)], Fits p.body := by
        simpa using hfits
      have hmore := h.receiver.more hps
      rw [flatMap_singleton] at hmore
      rw [note_stream, hstream]
      exact hmore
    · simpa [bufPacket, hbuf] using hsent
    · exact fun _ => ⟨rfl, .inl (by simp [hbuf])⟩
    · intro hclosing _
      have hsent' : result = .sent := by simpa using hclosing
      rcases hresult with ⟨-, hout⟩ | rfl
      · exact ⟨by simp [hout], rfl⟩
      · cases hsent'

theorem Good.endOfMessage (hlegal : (Op.endOfMessage nonBlocking kernel).Legal net)
    (hfits : (Op.endOfMessage nonBlocking kernel).Fits net) :
    ∃ net' all', net.step (.endOfMessage nonBlocking kernel) = some (true, net') ∧
      Good net' all' := by
  obtain ⟨hclosing, hsending⟩ := hlegal
  obtain ⟨part, hall, hpart⟩ := h.opened hclosing
  have hne : net.snd.buf.dta ≠ [] := fun hbuf => hsending (h.idle hclosing hbuf).2
  have hempty : (net.sender nonBlocking kernel).buf.empty = false :=
    decide_eq_false fun hlen => hne (length_eq_zero_iff.mp hlen)
  have hsent : assemble ([], []) (all ++ [⟨true, net.snd.buf.body⟩]) =
      (net.sent ++ [net.sending], []) := by
    simp [assemble_append, hall, join, hpart]
  obtain ⟨result, s', hrun, hfailed, all', hgood⟩ :=
    sndPacket_last h nonBlocking kernel hne hfits hsent
  exact ⟨_, all', by simp [Net.step, Sender.endOfMessage, hempty, hrun, hfailed], hgood⟩

theorem Good.finishEndOfMessage (hlegal : (Op.finishEndOfMessage kernel).Legal net) :
    ∃ net' all', net.step (.finishEndOfMessage kernel) = some (true, net') ∧ Good net' all' := by
  have hclosing : net.closing = true := hlegal
  obtain ⟨hsending, hbuf⟩ := h.closing hclosing
  by_cases hne : net.snd.buf.dta = []
  · -- the last packet is stashed
    obtain ⟨result, s', hrun, hbuf', -, hstream, hs', hresult⟩ :=
      finishPacket_spec (h.sender.call true kernel)
    have hused : (net.sender true kernel).buf.numUsed = 0 := length_eq_zero_iff.mpr hne
    have hcall : (net.sender true kernel).finishPacket = some (result, s') := hrun
    have hfailed : result ≠ .failed := by
      rcases hresult with ⟨rfl, -⟩ | ⟨rfl, -⟩ <;> decide
    refine ⟨{ net with snd := s'.note result, closing := result ≠ .sent }, all,
      by simp [Net.step, Sender.finishEndOfMessage, hused, hcall, hfailed], hs'.note result, ?_,
      ?_, ?_, ?_⟩
    · rw [note_stream, hstream]
      exact h.receiver
    · simpa [bufPacket, hbuf', hne] using h.sent
    · exact fun _ => ⟨hsending, .inl (by simp [hbuf', hne])⟩
    · intro hdone _
      have hsent : result = .sent := by simpa using hdone
      rcases hresult with ⟨-, hout⟩ | ⟨rfl, -⟩
      · exact ⟨by simp [hout], hsending⟩
      · cases hsent
  · have hused : (net.sender true kernel).buf.numUsed ≠ 0 := fun h => hne (length_eq_zero_iff.mp h)
    have hsent : assemble ([], []) (all ++ [⟨true, net.snd.buf.body⟩]) = (net.sent, []) := by
      simpa [bufPacket, hne, hclosing, hsending] using h.sent
    obtain ⟨result, s', hrun, hfailed, all', hgood⟩ :=
      sndPacket_last h true kernel hne (hbuf.resolve_left hne) hsent
    rw [← hsending] at hgood
    exact ⟨_, all', by simp [Net.step, Sender.finishEndOfMessage, hused, hrun, hfailed], hgood⟩

/-! ## The receiver -/

theorem Good.setReceiver {r : Receiver} {getting : List Byte}
    (hr : RcvGood all got getting r.msg (r.wire ++ net.snd.outRest)) :
    Good { net.setReceiver r with got := got, getting := getting } all where
  sender := ⟨h.sender.used, h.sender.room, h.sender.size, h.sender.grown, h.sender.out⟩
  receiver := hr
  sent := h.sent
  closing := h.closing
  idle := h.idle

theorem Good.handleIncomingPacket
    (hstep : net.step (.handleIncomingPacket nonBlocking kernel) = some (ok, net')) :
    ok = true ∧ Good net' all := by
  obtain ⟨⟨result, r⟩, hcall, hres⟩ := Option.bind_eq_some_iff.mp hstep
  cases hres
  cases hready : net.rcv.ready with
  | true =>
    rw [handleIncomingPacket,
      if_pos (show (net.receiver nonBlocking kernel).msg.ready = true from hready)] at hcall
    cases hcall
    exact ⟨rfl, h.setReceiver h.receiver⟩
  | false =>
    rw [handleIncomingPacket, if_neg (by simp [Net.receiver, hready])] at hcall
    obtain ⟨hgood, hresult⟩ :=
      rcvPacket_good (net.receiver nonBlocking kernel) h.receiver hready hcall
    refine ⟨?_, h.setReceiver hgood⟩
    rcases hresult with ⟨rfl, -⟩ | rfl <;> rfl

end

theorem RcvGood.get {r : Receiver} {getting out : List Byte}
    (h : RcvGood all got getting r.msg (r.wire ++ out)) (hready : r.msg.ready = true) (sz : ℕ) :
    RcvGood all got (getting ++ (r.msg.buf.get sz).1) { r.msg with buf := (r.msg.buf.get sz).2 }
      (r.wire ++ out) := by
  obtain ⟨received, inflight, hall, hreads, hok, hfits, hbytes⟩ := h
  rw [Reads, if_pos hready] at hreads
  obtain ⟨hget, hunread, hchain⟩ := getLoop_spec r.msg.buf.before r.msg.buf.rest sz hreads.1
  refine ⟨received, inflight, hall, ?_, hok, hfits, hbytes⟩
  rw [Reads, if_pos hready]
  refine ⟨hchain, ?_⟩
  have hbuf : (r.msg.buf.get sz).1 ++ (r.msg.buf.get sz).2.unread = r.msg.buf.unread := by
    have h1 : (r.msg.buf.get sz).1 = r.msg.buf.unread.take sz := hget
    have h2 : (r.msg.buf.get sz).2.unread = r.msg.buf.unread.drop sz := hunread
    rw [h1, h2, take_append_drop]
  rw [append_assoc, hbuf]
  exact hreads.2

theorem Good.getBytes (h : Good net all)
    (hstep : net.step (.getBytes nonBlocking kernel sz) = some (ok, net')) :
    ok = true ∧ Good net' all := by
  obtain ⟨⟨result, bytes, r⟩, hcall, hres⟩ := Option.bind_eq_some_iff.mp hstep
  cases hres
  obtain ⟨⟨result1, r1⟩, hloop, hget⟩ := Option.bind_eq_some_iff.mp hcall
  obtain ⟨hgood, rfl | ⟨rfl, hready⟩⟩ :=
    receiveLoop_good (net.receiver nonBlocking kernel) h.receiver hloop
  · cases hget
    exact ⟨rfl, h.setReceiver (by rw [append_nil]; exact hgood)⟩
  · cases hget
    exact ⟨rfl, h.setReceiver
      (hgood.get hready sz)⟩

theorem Good.readEndOfMessage (h : Good net all) (hlegal : Op.readEndOfMessage.Legal net)
    (hstep : net.step .readEndOfMessage = some (ok, net')) : ok = true ∧ Good net' all := by
  obtain ⟨hready, hconsumed⟩ := Bool.and_eq_true_iff.mp
    (show (net.rcv.ready && net.rcv.buf.consumed) = true from hlegal)
  obtain ⟨received, inflight, hall, hreads, hok, hfits, hbytes⟩ := h.receiver
  rw [Reads, if_pos hready] at hreads
  have hunread := hreads.1.consumed_iff.mp hconsumed
  rw [hunread, append_nil] at hreads
  simp only [Net.step, Receiver.readEndOfMessage, hready, hconsumed] at hstep
  cases hstep
  refine ⟨rfl, h.sender, ⟨received, inflight, hall, ?_, hok, hfits, hbytes⟩, h.sent,
    h.closing, h.idle⟩
  exact ⟨⟨rfl, fun _ h => by cases h⟩, rfl, hreads.2⟩

/-! ## Runs -/

/-- **A call** does not fail, and keeps what holds in every state. -/
theorem Good.step (h : Good net all) (hlegal : op.Legal net) (hfits : op.Fits net)
    (hstep : net.step op = some (ok, net')) : ok = true ∧ ∃ all', Good net' all' := by
  have hsender : (∃ net' all', net.step op = some (true, net') ∧ Good net' all') →
      ok = true ∧ ∃ all', Good net' all' := by
    rintro ⟨net1, all1, hrun, hgood⟩
    rw [hrun] at hstep
    cases hstep
    exact ⟨rfl, all1, hgood⟩
  cases op with
  | putBytes nonBlocking kernel dta => exact hsender (h.putBytes hlegal hfits)
  | endOfMessage nonBlocking kernel => exact hsender (h.endOfMessage hlegal hfits)
  | finishEndOfMessage kernel => exact hsender (h.finishEndOfMessage hlegal)
  | handleIncomingPacket nonBlocking kernel =>
    exact (h.handleIncomingPacket hstep).imp id fun h => ⟨all, h⟩
  | getBytes nonBlocking kernel sz => exact (h.getBytes hstep).imp id fun h => ⟨all, h⟩
  | readEndOfMessage => exact (h.readEndOfMessage hlegal hstep).imp id fun h => ⟨all, h⟩

theorem Run.good (h : Run net) : ∃ all, Good net all := by
  induction h with
  | start => exact ⟨[], good_start⟩
  | step op hrun hlegal hfits hstep ih =>
    obtain ⟨all, hgood⟩ := ih
    exact (hgood.step hlegal hfits hstep).2

/-- What has been got is what was put first. -/
theorem Good.got_first (h : Good net all) :
    (net.rcv.ready = true ∧ net.got ++ [net.getting ++ net.rcv.buf.unread] <+: net.sent) ∨
      net.rcv.ready = false ∧ net.getting = [] ∧ net.got <+: net.sent := by
  obtain ⟨received, inflight, hall, hreads, -, -, -⟩ := h.receiver
  have hsent := h.sent
  rw [hall, append_assoc, assemble_append] at hsent
  obtain ⟨more, hmore⟩ := assemble_extends (assemble ([], []) received) (inflight ++ bufPacket net)
  rw [hsent] at hmore
  cases hready : net.rcv.ready with
  | true =>
    rw [Reads, if_pos hready] at hreads
    rw [hreads.2] at hmore
    exact .inl ⟨rfl, more, hmore.symm⟩
  | false =>
    rw [Reads, if_neg (by simp [hready])] at hreads
    rw [hreads.2.2] at hmore
    exact .inr ⟨rfl, hreads.2.1, more, hmore.symm⟩

theorem Good.got_le (h : Good net all) : net.got <+: net.sent := by
  rcases h.got_first with ⟨-, hpre⟩ | ⟨-, -, hpre⟩
  · exact (prefix_append _ _).trans hpre
  · exact hpre

/-- A message is read to its end, in blocking mode. -/
def readMessage (sz : ℕ) (net : Net) : Option Net := do
  let (_, net) ← net.step (.getBytes false [] sz)
  let (_, net) ← net.step .readEndOfMessage
  return net

def readMessages (sz : ℕ) : ℕ → Net → Option Net
  | 0, net => some net
  | n + 1, net => do
    let net ← readMessage sz net
    readMessages sz n net

def Net.Idle (net : Net) : Prop := net.closing = false ∧ net.snd.buf.dta = []

section

variable (h : Good net all) (hidle : net.Idle) (hsz : ∀ m ∈ net.sent, m.length ≤ sz)
include h hidle hsz

/-- **A message that is under way is read.** -/
theorem Good.readMessage (hmore : net.got ≠ net.sent) :
    ∃ net', Cedar.readMessage sz net = some net' ∧ Good net' all ∧ net'.Idle ∧
      net'.sent = net.sent ∧ net'.got.length = net.got.length + 1 := by
  obtain ⟨hclosing, hbuf⟩ := hidle
  have hout : net.snd.outBuf = none := (h.idle hclosing hbuf).1
  have hall : (assemble ([], []) all).1 ≠ net.got := by
    have hsent := h.sent
    rw [bufPacket, if_pos hbuf, append_nil] at hsent
    rw [hsent]
    exact hmore.symm
  have hreceiver := h.receiver
  rw [stream_of_none hout] at hreceiver
  obtain ⟨r, hloop⟩ := receiveLoop_progress (net.receiver false [])
    (Nat.lt_succ_self (net.snd.wire.length + 1)) hreceiver rfl hall
  -- the message is complete
  obtain ⟨hgood, hres⟩ := receiveLoop_good (net.receiver false []) h.receiver hloop
  have hready : r.msg.ready = true := by
    rcases hres with hres | ⟨-, hready⟩
    · cases hres
    · exact hready
  have hmsg : r.msg.buf.unread.length ≤ sz := by
    rcases (h.setReceiver hgood).got_first with ⟨-, hpre⟩ | ⟨hnot, -⟩
    · have hmem := hsz _ (hpre.subset (mem_append_right _ (mem_singleton_self _)))
      exact Nat.le_trans (by simp [Net.setReceiver]) hmem
    · exact absurd (hready.symm.trans hnot) (by decide)
  -- it is read
  let net1 : Net := { net.setReceiver
    { r with msg := { r.msg with buf := (r.msg.buf.get sz).2 } } with
      getting := net.getting ++ (r.msg.buf.get sz).1 }
  have hget : net.step (.getBytes false [] sz) = some (true, net1) := by
    have hloop' : Receiver.receiveLoop ((net.receiver false []).wire.length + 2)
        (net.receiver false []) = some (.received, r) := hloop
    simp [Net.step, Receiver.getBytes, hloop', net1]
  have hgood1 := (h.getBytes hget).2
  -- to its end
  have hconsumed : (r.msg.buf.get sz).2.consumed = true := by
    obtain ⟨received, -, -, hreads, -⟩ := hgood
    rw [Reads, if_pos hready] at hreads
    obtain ⟨-, hunread, hchain⟩ := getLoop_spec r.msg.buf.before r.msg.buf.rest sz hreads.1
    have hnil : (r.msg.buf.get sz).2.unread = [] := hunread.trans (drop_eq_nil_of_le hmsg)
    exact hchain.consumed_iff.mpr hnil
  have hpeek : Receiver.peekEndOfMessage net1.rcv = true := by
    rw [Receiver.peekEndOfMessage, Bool.and_eq_true]
    exact ⟨hready, hconsumed⟩
  have hend : net1.step .readEndOfMessage = some (net1.rcv.buf.consumed, { net1 with
      rcv := { net1.rcv with ready := false, buf := {} }, got := net1.got ++ [net1.getting]
      getting := [] }) := by
    have hready1 : net1.rcv.ready = true := hready
    simp [Net.step, Receiver.readEndOfMessage, hready1]
  refine ⟨_, by simp [Cedar.readMessage, hget, hend], (hgood1.readEndOfMessage hpeek hend).2,
    ⟨hclosing, hbuf⟩, rfl, by simp [net1, Net.setReceiver]⟩

/-- **All messages are read.** -/
theorem Good.readMessages :
    ∃ net', Cedar.readMessages sz (net.sent.length - net.got.length) net = some net' ∧
      net'.got = net.sent := by
  generalize hn : net.sent.length - net.got.length = n
  induction n generalizing net with
  | zero => exact ⟨net, rfl, h.got_le.eq_of_length_le (by omega)⟩
  | succ n ih =>
    have hmore : net.got ≠ net.sent := fun h => by
      rw [h] at hn
      omega
    obtain ⟨net1, hread, hgood, hidle1, hsent, hgot⟩ := h.readMessage hidle hsz hmore
    obtain ⟨net', hrun, hgot'⟩ := ih hgood hidle1 (by rwa [hsent]) (by rw [hsent]; omega)
    exact ⟨net', by simp [Cedar.readMessages, hread, hrun], hgot'.trans hsent⟩

end

theorem Good.returns (h : Good net all) (hsender : op.bySender = true) (hlegal : op.Legal net)
    (hfits : op.Fits net) : ∃ net', net.step op = some (true, net') := by
  cases op with
  | putBytes nonBlocking kernel dta =>
    obtain ⟨net', -, hrun, -⟩ := h.putBytes hlegal hfits
    exact ⟨net', hrun⟩
  | endOfMessage nonBlocking kernel =>
    obtain ⟨net', -, hrun, -⟩ := h.endOfMessage hlegal hfits
    exact ⟨net', hrun⟩
  | finishEndOfMessage kernel =>
    obtain ⟨net', -, hrun, -⟩ := h.finishEndOfMessage hlegal
    exact ⟨net', hrun⟩
  | _ => cases hsender

/-- **Messages arrive as they were put**, and no call fails, in every run in which the buffers make
good packets. -/
theorem run_delivers (net : Net) (hrun : Run net) :
    (∀ op : Op, op.bySender = true → op.Legal net → op.Fits net →
      ∃ net', net.step op = some (true, net')) ∧
    (∀ (op : Op) (ok : Bool) (net' : Net), op.Legal net → op.Fits net →
      net.step op = some (ok, net') → ok = true) ∧
    net.got <+: net.sent ∧
    (net.getting = [] ∨ ∃ unread, net.got ++ [net.getting ++ unread] <+: net.sent) ∧
    (net.Idle → ∀ sz, (∀ m ∈ net.sent, m.length ≤ sz) →
      ∃ net', readMessages sz (net.sent.length - net.got.length) net = some net' ∧
        net'.got = net.sent) := by
  obtain ⟨all, hgood⟩ := hrun.good
  refine ⟨fun op hsender hlegal hfits => hgood.returns hsender hlegal hfits,
    fun op ok net' hlegal hfits hstep => (hgood.step hlegal hfits hstep).1, hgood.got_le, ?_,
    fun hidle sz hsz => hgood.readMessages hidle hsz⟩
  rcases hgood.got_first with ⟨-, hpre⟩ | ⟨-, hgetting, -⟩
  · exact .inr ⟨_, hpre⟩
  · exact .inl hgetting

/-- The kernel takes four bytes of a packet, and then the rest. -/
theorem run_delivers_stashed : ∃ net : Net, Run net ∧ net.sent = [[1, 2, 3]] ∧
    ∃ net', readMessages 3 1 net = some net' ∧ net'.got = [[1, 2, 3]] := by
  obtain ⟨net, hrun, hsent, hgot, hidle⟩ : ∃ net : Net, Run net ∧ net.sent = [[1, 2, 3]] ∧
      net.got = [] ∧ net.Idle := by
    have h₁ := Run.step (.putBytes true [] [1, 2, 3]) .start rfl nofun rfl
    have hfits : Cedar.Fits [1, 2, 3] := by decide
    have h₂ := Run.step (.endOfMessage true [4]) h₁ ⟨rfl, by decide⟩ hfits rfl
    have h3 := Run.step (.finishEndOfMessage [9]) h₂ rfl trivial rfl
    exact ⟨_, h3, rfl, rfl, rfl, rfl⟩
  obtain ⟨net', hread, hall⟩ := (run_delivers net hrun).2.2.2.2 hidle 3 (by simp [hsent])
  rw [hsent, hgot] at hread
  exact ⟨net, hrun, hsent, net', hread, hall.trans hsent⟩

/-! ## An empty packet -/

def filled (d : List Byte) : Net :=
  let b : Buf := { dta := replicate headerSize 0 ++ d, pt := headerSize }
  { snd := { buf := b }, sending := d }

def behind (d : List Byte) : Net :=
  let b : Buf := { dta := replicate headerSize 0, pt := headerSize }
  { snd := { buf := b, wire := encode ⟨false, d⟩ }, sending := d }

def ended (d : List Byte) : Net :=
  { snd := { wire := encode ⟨false, d⟩ ++ encode ⟨true, []⟩ }, sent := [d] }

variable {d : List Byte}

theorem step_filled (hlen : d.length = 4091) :
    ({} : Net).step (.putBytes false [] d) = some (true, filled d) := by
  have htake : d.take 4091 = d := take_of_length_le (Nat.le_of_eq hlen)
  simp only [Net.step, Net.sender, putBytes, putLoop]
  simp [fill, full, empty, numUsed, seek, putMax, numFree, hlen, htake, headerSize,
    ioBufSize, filled]

theorem step_behind (hlen : d.length = 4091) :
    (filled d).step (.putBytes false [] []) = some (true, behind d) := by
  have hwire : take 4096 (header false 4091#32 ++ d) = encode ⟨false, d⟩ := by
    rw [encode, hlen]
    exact take_of_length_le (by simp [hlen])
  simp [Net.step, Net.sender, putBytes, putLoop, fill, full, empty,
    numUsed, seek, putMax, hlen, headerSize, ioBufSize, filled,
    sndPacket, finishPacket, flush, write, condorWrite, numUntouched, reset, behind, hwire]

theorem step_ended : (behind d).step (.endOfMessage false []) = some (true, ended d) := by
  simp [Net.step, Net.sender, endOfMessage, empty, numUsed, headerSize, ioBufSize, behind,
    sndPacket, finishPacket, flush, write, condorWrite, numUntouched, reset, note, ended, encode,
    header, htonl, NetOrder.toNet]

/-- The first packet is received, and the second is not. -/
theorem step_rejected (hlen : d.length = 4091) :
    ∃ n n', (ended d).step (.handleIncomingPacket false []) = some (true, n) ∧
      n.step (.handleIncomingPacket false []) = some (false, n') := by
  have hfits : Fits d := by
    unfold Fits
    rw [hlen]
    decide
  have hbytes : ((ended d).receiver false []).msg.pending ++ ((ended d).receiver false []).wire ++
      [] = encode ⟨false, d⟩ ++ encode ⟨true, []⟩ := append_nil _
  rcases rcvPacket_spec ((ended d).receiver false []) nofun hfits hbytes with
    ⟨-, hshort⟩ | ⟨r, -, hnb, -⟩ | ⟨r, b, hres, hnb, hpart, hrest, hready, -⟩
  · have h := hshort rfl
    rw [show ((ended d).receiver false []).msg.pending ++ ((ended d).receiver false []).wire =
      encode ⟨false, d⟩ ++ encode ⟨true, []⟩ from rfl, length_append] at h
    omega
  · cases hnb
  · have hrest' : encode ⟨false, d⟩ ++ encode ⟨true, []⟩ = encode ⟨false, d⟩ ++ r.wire := hrest
    have hwire : r.wire = encode ⟨true, []⟩ := (append_cancel_left hrest').symm
    obtain ⟨r', hreject⟩ := rcvPacket_rejects
      (((ended d).setReceiver r).receiver false []) hpart rfl (by decide) (by decide)
      (hwire.trans (append_nil _).symm)
    refine ⟨(ended d).setReceiver r, ((ended d).setReceiver r).setReceiver r', ?_, ?_⟩
    · have hcall : ((ended d).receiver false []).handleIncomingPacket = some (.received, r) := hres
      simp [Net.step, hcall]
    · have hcall : (((ended d).setReceiver r).receiver false []).handleIncomingPacket =
          some (.failed, r') := by
        rw [handleIncomingPacket, if_neg (by simp [Net.receiver, Net.setReceiver, hready, ended])]
        exact hreject
      simp [Net.step, hcall]

/-- The buffer is filled to its end, and the message ends with an empty packet. -/
theorem empty_packet_rejected : ∃ n₁ n₂ n₃ n₄ n₅ : Net,
    ({} : Net).step (.putBytes false [] (replicate 4091 0)) = some (true, n₁) ∧
    n₁.step (.putBytes false [] []) = some (true, n₂) ∧
    n₂.step (.endOfMessage false []) = some (true, n₃) ∧ n₃.sent = [replicate 4091 0] ∧
    n₃.step (.handleIncomingPacket false []) = some (true, n₄) ∧
    n₄.step (.handleIncomingPacket false []) = some (false, n₅) := by
  have hlen : (replicate 4091 (0 : Byte)).length = 4091 := length_replicate
  obtain ⟨n₄, n₅, hfirst, hsecond⟩ := step_rejected hlen
  exact ⟨_, _, _, n₄, n₅, step_filled hlen, step_behind hlen, step_ended, rfl, hfirst, hsecond⟩

end Condor.Cedar
