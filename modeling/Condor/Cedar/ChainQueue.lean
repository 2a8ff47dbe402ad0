import Condor.Cedar.Receiving

/-!
# CEDAR over TCP — the chain is a queue

The chain of received buffers is read by `get`, `get_tmp` and `peek`. Each of them moves `_curr` at
another moment.

* **`runCalls_eq_queue`**.
-/

namespace Condor.Cedar

open List

/-! ## The calls -/

namespace Buf

variable (b : Buf)

def find (delim : Byte) : Option ℕ := (b.dta.drop b.pt).findIdx? (· == delim)

def peek : Option Byte := if b.empty || b.consumed then none else b.dta[b.pt]?

end Buf

namespace ChainBuf

variable (c : ChainBuf)

/-- The loop of `get_tmp` over the buffers behind `_curr`. -/
def findLoop (delim : Byte) : List Buf → ℕ → Option ℕ
  | [], _ => none
  | trav :: rest, nr =>
    match trav.find delim with
    | none => findLoop delim rest (nr + trav.numUntouched)
    | some tr => some (nr + tr)

/-- The bytes at `ptr`. -/
def getTmp (delim : Byte) : Option (List Byte) × ChainBuf :=
  match c.rest with
  | [] => (none, c)
  | curr :: rest =>
    match curr.find delim with
    | some tr =>
      let nr := curr.pt
      (some ((curr.dta.drop nr).take (tr + 1)),
        { c with rest := (curr.seek 0).seek (nr + tr + 1) :: rest })
    | none =>
      match findLoop delim rest curr.numUntouched with
      | none => (none, c)
      | some nr => (some (c.get (nr + 1)).1, (c.get (nr + 1)).2)

def peek : Option Byte × ChainBuf :=
  match c.rest with
  | [] => (none, c)
  | curr :: rest =>
    match curr.peek with
    | some ch => (some ch, c)
    | none => (rest.head?.bind Buf.peek, ⟨c.before ++ [curr], rest⟩)

end ChainBuf

inductive Call
  | get (sz : ℕ)
  | getTmp (delim : Byte)
  | peek
  | consumed

inductive Answer
  | bytes (dta : List Byte)
  | tmp (dta : Option (List Byte))
  | char (c : Option Byte)
  | flag (consumed : Bool)
deriving DecidableEq

def ChainBuf.call (c : ChainBuf) : Call → Answer × ChainBuf
  | .get sz => (.bytes (c.get sz).1, (c.get sz).2)
  | .getTmp delim => (.tmp (c.getTmp delim).1, (c.getTmp delim).2)
  | .peek => (.char c.peek.1, c.peek.2)
  | .consumed => (.flag c.consumed, c)

/-- The calls on a queue of bytes. -/
def queueCall (q : List Byte) : Call → Answer × List Byte
  | .get sz => (.bytes (q.take sz), q.drop sz)
  | .getTmp delim =>
    match q.findIdx? (· == delim) with
    | none => (.tmp none, q)
    | some i => (.tmp (some (q.take (i + 1))), q.drop (i + 1))
  | .peek => (.char q.head?, q)
  | .consumed => (.flag q.isEmpty, q)

/-- The answers to one call after the other. -/
def runCalls {σ : Type} (step : σ → Call → Answer × σ) : σ → List Call → List Answer
  | _, [] => []
  | s, call :: calls => (step s call).1 :: runCalls step (step s call).2 calls

/-! ## The chain and the queue -/

/-- The chain holds the queue, and no buffer is full. -/
structure Holds (c : ChainBuf) (q : List Byte) : Prop where
  ok : ChainOk c
  room : ∀ b ∈ c.rest, b.dta.length < b.maxSz
  unread : c.unread = q

variable {c : ChainBuf} {q : List Byte} {b : Buf} {before rest : List Buf} {delim : Byte}

theorem unread_cons : ChainBuf.unread ⟨before, b :: rest⟩ =
    b.dta.drop b.pt ++ ChainBuf.unread ⟨before, rest⟩ := by
  simp [ChainBuf.unread]

/-- `get` changes the positions only. -/
theorem room_getLoop (h : ∀ b ∈ rest, b.dta.length < b.maxSz) (sz : ℕ) :
    ∀ b ∈ (ChainBuf.getLoop before rest sz).2.rest, b.dta.length < b.maxSz := by
  induction rest generalizing before sz with
  | nil => simp [ChainBuf.getLoop]
  | cons b rest ih =>
    rw [forall_mem_cons] at h
    simp only [ChainBuf.getLoop]
    split
    · exact forall_mem_cons.mpr h
    · exact ih h.2 _

theorem Holds.get (h : Holds c q) (sz : ℕ) :
    (c.get sz).1 = q.take sz ∧ Holds (c.get sz).2 (q.drop sz) := by
  obtain ⟨hbytes, hunread, hok⟩ := getLoop_spec c.before c.rest sz h.ok
  rw [← h.unread]
  exact ⟨hbytes, hok, room_getLoop h.room sz, hunread⟩

theorem findLoop_eq (nr : ℕ) : ChainBuf.findLoop delim rest nr =
    ((ChainBuf.unread ⟨before, rest⟩).findIdx? (· == delim)).map (nr + ·) := by
  induction rest generalizing nr with
  | nil => rfl
  | cons b rest ih =>
    rw [unread_cons, findIdx?_append, ChainBuf.findLoop, Buf.find]
    cases (b.dta.drop b.pt).findIdx? (· == delim) with
    | some tr => rfl
    | none =>
      have hadd (i : ℕ) : nr + b.numUntouched + i = nr + (i + (b.dta.drop b.pt).length) := by
        rw [length_drop, Buf.numUntouched, Buf.numUsed]
        omega
      simp [ih, hadd, Function.comp_def]

theorem Holds.getTmp (h : Holds c q) (delim : Byte) :
    Answer.tmp (c.getTmp delim).1 = (queueCall q (.getTmp delim)).1 ∧
      Holds (c.getTmp delim).2 (queueCall q (.getTmp delim)).2 := by
  obtain ⟨before, rest⟩ := c
  have hq := h.unread
  cases rest with
  | nil =>
    subst hq
    exact ⟨rfl, h⟩
  | cons curr rest =>
    have hfind := @findIdx?_append _ (curr.dta.drop curr.pt) (ChainBuf.unread ⟨before, rest⟩)
      (· == delim)
    rw [← unread_cons, hq] at hfind
    rw [queueCall, hfind]
    unfold ChainBuf.getTmp Buf.find
    dsimp only
    cases hcurr : (curr.dta.drop curr.pt).findIdx? (· == delim) with
    | some tr =>
      -- the delimiter is in `_curr`; `seek` does not reach the end of the buffer
      obtain ⟨hlt, -⟩ := findIdx?_eq_some_iff_getElem.mp hcurr
      have hroom := h.room curr mem_cons_self
      have hseek : (curr.seek 0).seek (curr.pt + tr + 1) =
          { curr with pt := curr.pt + tr + 1 } := by
        rw [length_drop] at hlt
        have : curr.pt + tr + 1 < curr.maxSz := by omega
        have : 0 < curr.maxSz := by omega
        have : curr.pt + tr + 1 - curr.dta.length = 0 := by omega
        simp [Buf.seek, Buf.numUsed, *]
      rw [length_drop] at hlt
      dsimp only [Option.some_or]
      rw [hseek, ← hq, unread_cons, take_append_of_le_length (by rw [length_drop]; omega),
        drop_append_of_le_length (by rw [length_drop]; omega), drop_drop]
      refine ⟨rfl, ⟨h.ok.before, ?_, h.ok.later⟩, ?_, unread_cons⟩
      · refine forall_mem_cons.mpr ⟨?_, (forall_mem_cons.mp h.ok.first).2⟩
        dsimp only
        omega
      · exact forall_mem_cons.mpr ⟨hroom, (forall_mem_cons.mp h.room).2⟩
    | none =>
      have hn : curr.numUntouched = (curr.dta.drop curr.pt).length := by
        rw [length_drop]
        rfl
      rw [findLoop_eq, hn]
      cases (ChainBuf.unread ⟨before, rest⟩).findIdx? (· == delim) with
      | none => exact ⟨rfl, h⟩
      | some i =>
        obtain ⟨hbytes, hholds⟩ := h.get (i + (curr.dta.drop curr.pt).length + 1)
        simp only [Option.map_some]
        rw [Nat.add_comm _ i, hbytes]
        exact ⟨rfl, hholds⟩

theorem Buf.peek_eq : b.peek = (b.dta.drop b.pt).head? := by
  rw [head?_drop, Buf.peek]
  split
  · rename_i hend
    have hpt : b.dta.length ≤ b.pt := by
      rcases Bool.or_eq_true .. |>.mp hend with hempty | hconsumed
      · exact le_of_eq_of_le (of_decide_eq_true hempty) (Nat.zero_le _)
      · exact (of_decide_eq_true hconsumed).ge
    exact (getElem?_eq_none hpt).symm
  · rfl

theorem Holds.peek (h : Holds c q) : c.peek.1 = q.head? ∧ Holds c.peek.2 q := by
  obtain ⟨before, rest⟩ := c
  have hq := h.unread
  cases rest with
  | nil =>
    subst hq
    exact ⟨rfl, h⟩
  | cons curr rest =>
    have hcurr := h.ok.first curr mem_cons_self
    unfold ChainBuf.peek
    dsimp only
    rw [curr.peek_eq]
    rw [unread_cons] at hq
    cases hd : curr.dta.drop curr.pt with
    | cons ch s =>
      rw [hd] at hq
      subst hq
      exact ⟨rfl, h⟩
    | nil =>
      -- `_curr` goes on to the next buffer, which has not been read
      rw [hd, nil_append] at hq
      have hlen : curr.pt = curr.dta.length := by
        have := List.drop_eq_nil_iff.mp hd
        omega
      refine ⟨?_, ⟨?_, (forall_mem_cons.mp h.ok.first).2,
        fun b hb => h.ok.later b (mem_of_mem_tail hb)⟩, (forall_mem_cons.mp h.room).2, hq⟩
      · cases rest with
        | nil => rw [← hq]; rfl
        | cons b rest =>
          have hlt := h.ok.later b mem_cons_self
          rw [← hq, unread_cons, head?_append_of_ne_nil _ (by simp; omega), ← b.peek_eq]
          rfl
      · exact forall_mem_append.mpr ⟨h.ok.before, forall_mem_singleton.mpr hlen⟩

theorem Holds.call (h : Holds c q) (call : Call) :
    (c.call call).1 = (queueCall q call).1 ∧ Holds (c.call call).2 (queueCall q call).2 := by
  cases call with
  | get sz =>
    obtain ⟨hbytes, hholds⟩ := h.get sz
    exact ⟨congrArg Answer.bytes hbytes, hholds⟩
  | getTmp delim => exact h.getTmp delim
  | peek => exact ⟨congrArg Answer.char h.peek.1, h.peek.2⟩
  | consumed =>
    refine ⟨congrArg Answer.flag ?_, h⟩
    rw [Bool.eq_iff_iff, h.ok.consumed_iff, h.unread, List.isEmpty_iff]

theorem Holds.run (h : Holds c q) (calls : List Call) :
    runCalls ChainBuf.call c calls = runCalls queueCall q calls := by
  induction calls generalizing c q with
  | nil => rfl
  | cons call calls ih =>
    obtain ⟨hanswer, hholds⟩ := h.call call
    rw [runCalls, runCalls, hanswer, ih hholds]

theorem mem_put {b' : Buf} (hb : b' ∈ (c.put b).rest) : b' ∈ c.rest ∨ b' = b := by
  unfold ChainBuf.put at hb
  split_ifs at hb <;> simp_all

theorem Holds.put (h : Holds c q) (hnew : ChainNew c) {bufs : List Buf}
    (hbufs : ∀ b ∈ bufs, b.pt = 0 ∧ 0 < b.dta.length ∧ b.dta.length < b.maxSz) :
    Holds (bufs.foldl ChainBuf.put c) (q ++ bufs.flatMap Buf.dta) := by
  induction bufs generalizing c q with
  | nil => simpa using h
  | cons b bufs ih =>
    obtain ⟨⟨hpt, hpos, hroom⟩, hbufs⟩ := forall_mem_cons.mp hbufs
    obtain ⟨hnew', hunread⟩ := hnew.put hpt hpos
    rw [flatMap_cons, ← append_assoc]
    refine ih ⟨hnew'.ok, fun b' hb' => ?_, by rw [hunread, h.unread]⟩ hnew' hbufs
    rcases mem_put hb' with hb' | rfl
    · exact h.room b' hb'
    · exact hroom

/-- **The chain is one queue of bytes**, for every split into buffers and every order of calls. -/
theorem runCalls_eq_queue (bufs : List Buf)
    (hbufs : ∀ b ∈ bufs, b.pt = 0 ∧ 0 < b.dta.length ∧ b.dta.length < b.maxSz) (calls : List Call) :
    runCalls ChainBuf.call (bufs.foldl ChainBuf.put {}) calls =
      runCalls queueCall (bufs.flatMap Buf.dta) calls :=
  (Holds.put ⟨⟨by simp, by simp, by simp⟩, by simp, rfl⟩ ⟨rfl, by simp⟩ hbufs).run calls

theorem runCalls_eq_queue_two : runCalls ChainBuf.call
    ([{ dta := [1, 2] }, { dta := [3, 4] }].foldl ChainBuf.put {}) [.get 1, .getTmp 3, .peek] =
      [.bytes [1], .tmp (some [2, 3]), .char (some 4)] :=
  runCalls_eq_queue _ (by decide) _

end Condor.Cedar
