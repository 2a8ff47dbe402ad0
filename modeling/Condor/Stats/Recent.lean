import Mathlib.Algebra.BigOperators.Intervals

/-!
# Recent statistics

A `stats_entry_recent<int64_t>` keeps the amounts of the last time slots in a ring buffer and their
sum in `recent`.

- **`recent_is_window`**: whatever is called, `recent` and `value` are those of a sliding window.
-/

namespace Condor.Stats

open Nat Finset Function
/-! ## The ring buffer -/

/-- `pbuf` has `cAlloc` cells; it is NULL if there are none. -/
structure RingBuffer where
  cMax : ℕ
  cAlloc : ℕ
  ixHead : ℕ
  cItems : ℕ
  pbuf : ℕ → ℤ

namespace RingBuffer

-- `fresh` is what the cells hold that `new` returns
variable (b : RingBuffer) (fresh : ℕ → ℤ)

/-- `operator[](-i)`. -/
def item (i : ℕ) : ℤ := b.pbuf ((b.ixHead + b.cMax - i) % b.cMax)

def clear : RingBuffer := { b with ixHead := 0, cItems := 0 }

def sum : ℤ := ∑ i ∈ range b.cItems, b.item i

def quantized (cSize : ℕ) : ℕ := if cSize % 5 ≠ 0 then cSize + 5 - cSize % 5 else cSize

def mustCopy (cSize : ℕ) : Bool :=
  (cSize ≠ b.cMax ∧ b.cAlloc ≠ quantized cSize) ∨
    (0 < b.cItems ∧ (cSize ≤ b.ixHead ∨ b.ixHead + 1 < b.cItems))

/-- The copying loop of `SetSize`. -/
def copy (cSize cCopy : ℕ) : ℕ → ℤ :=
  (List.range cCopy).foldl (fun p i => update p ((cCopy - i) % cSize) (b.item i)) fresh

def setSize (cSize : ℕ) : RingBuffer :=
  if cSize = 0 then ⟨0, 0, 0, 0, fresh⟩
  else if b.mustCopy cSize then
    let cCopy := if b.cAlloc = 0 then 0 else min b.cItems cSize
    ⟨cSize, if b.cAlloc = 0 then cSize else quantized cSize, cCopy % cSize, cCopy,
      b.copy fresh cSize cCopy⟩
  else if cSize < b.cMax ∧ 0 < b.cItems then
    { b with cMax := cSize, ixHead := b.ixHead % cSize, cItems := min b.cItems cSize }
  else { b with cMax := cSize }

/-- The end of `PushZero`. -/
def pushed : RingBuffer :=
  { b with
    ixHead := (b.ixHead + 1) % b.cMax
    cItems := if b.cItems < b.cMax then b.cItems + 1 else b.cItems
    pbuf := update b.pbuf ((b.ixHead + 1) % b.cMax) 0 }

/-- There is no result after `EXCEPT`. -/
def pushZero : Option RingBuffer :=
  if b.cMax < b.cItems then none
  else some (if b.cAlloc = 0 then b.setSize fresh 2 else b).pushed

def added (val : ℤ) : RingBuffer :=
  { b with pbuf := update b.pbuf b.ixHead (b.pbuf b.ixHead + val) }

def add (val : ℤ) : Option RingBuffer :=
  if b.cAlloc = 0 ∨ b.cMax = 0 then none else some (b.added val)

/-- The loop of `AdvanceAccum`. -/
def advanceLoop : ℕ → RingBuffer → ℤ → Option (RingBuffer × ℤ)
  | 0, b, accum => some (b, accum)
  | n + 1, b, accum =>
    (b.pushZero fresh).bind fun b' => advanceLoop n b'
      (if b.cItems = b.cMax then accum + b.pbuf ((b.ixHead + 1) % b.cMax) else accum)

def advanceAccum (cAdvance : ℤ) : Option (RingBuffer × ℤ) :=
  if b.cMax = 0 then some (b, 0) else advanceLoop fresh cAdvance.toNat b 0

end RingBuffer

/-! ## The probe -/

structure Entry where
  value : ℤ
  recent : ℤ
  buf : RingBuffer

inductive Call where
  | add (val : ℤ)
  | set (val : ℤ)
  | advanceBy (cSlots : ℤ)
  | setWindowSize (size : ℕ)
  | clear
  | clearRecent

namespace Entry

variable (fresh : ℕ → ℤ) (e : Entry)

def new (cRecentMax : ℕ) : Entry := ⟨0, 0, ⟨cRecentMax, cRecentMax, 0, 0, fresh⟩⟩

def add (val : ℤ) : Option Entry :=
  if e.buf.cMax = 0 then some ⟨e.value + val, e.recent + val, e.buf⟩
  else
    (if e.buf.cItems = 0 then e.buf.pushZero fresh else some e.buf).bind fun b =>
      (b.add val).map fun b => ⟨e.value + val, e.recent + val, b⟩

/-- `AdvanceBy`, which is `AdvanceAndSub` here. -/
def advanceBy (cSlots : ℤ) : Option Entry :=
  if cSlots < e.buf.cMax then
    (e.buf.advanceAccum fresh cSlots).map fun r => ⟨e.value, e.recent - r.2, r.1⟩
  else some ⟨e.value, 0, e.buf.clear⟩

def setWindowSize (size : ℕ) : Entry :=
  if e.buf.cMax ≠ size then ⟨e.value, (e.buf.setSize fresh size).sum, e.buf.setSize fresh size⟩
  else e

def call : Call → Option Entry
  | .add val => e.add fresh val
  | .set val => e.add fresh (val - e.value)
  | .advanceBy cSlots => e.advanceBy fresh cSlots
  | .setWindowSize size => some (e.setWindowSize fresh size)
  | .clear => some ⟨0, 0, e.buf.clear⟩
  | .clearRecent => some ⟨e.value, 0, e.buf.clear⟩

/-- Each call comes with the memory that `new` returns in it. -/
def calls : List ((ℕ → ℤ) × Call) → Entry → Option Entry
  | [], e => some e
  | c :: cs, e => (e.call c.1 c.2).bind (calls cs)

end Entry

/-! ## The sliding window -/

/-- **A sliding window**: the amounts of the time slots by their age, and the total. -/
structure Window where
  size : ℕ
  slots : ℕ → ℤ
  total : ℤ

namespace Window

variable (w : Window)

def recent : ℤ := ∑ i ∈ range w.size, w.slots i

def add (val : ℤ) : Window :=
  ⟨w.size, fun i => w.slots i + if i = 0 then val else 0, w.total + val⟩

/-- Slots that are older than the window are forgotten. -/
def advance (k : ℕ) : Window :=
  { w with slots := fun i => if k ≤ i ∧ i < w.size then w.slots (i - k) else 0 }

def call : Call → Window
  | .add val => w.add val
  | .set val => w.add (val - w.total)
  | .advanceBy cSlots => w.advance cSlots.toNat
  | .setWindowSize size => { w with size, slots := fun i => if i < size then w.slots i else 0 }
  | .clear => ⟨w.size, fun _ => 0, 0⟩
  | .clearRecent => { w with slots := fun _ => 0 }

end Window

/-! ## The ring holds the slots -/

namespace RingBuffer

variable {b : RingBuffer} {i : ℕ}

/-- The head is a cell of the ring. -/
structure Valid (b : RingBuffer) : Prop where
  pos : 0 < b.cMax
  alloc : b.cMax ≤ b.cAlloc
  items : b.cItems ≤ b.cMax
  head : b.ixHead < b.cMax
  empty : b.cItems = 0 → b.ixHead = 0

/-- The amount of the slot of an age. -/
def slot (b : RingBuffer) (i : ℕ) : ℤ := if i < b.cItems then b.item i else 0

theorem cell_eq {h m : ℕ} (hh : h < m) (hi : i < m) :
    (h + m - i) % m = if i ≤ h then h - i else h + m - i := by
  split
  · rw [show h + m - i = h - i + m by omega, add_mod_right, mod_eq_of_lt (by omega)]
  · exact mod_eq_of_lt (by omega)

theorem next_eq {h m : ℕ} (hh : h ≤ m) : h % m = if h = m then 0 else h := by
  split
  case isTrue he => rw [he, mod_self]
  case isFalse he => exact mod_eq_of_lt (by omega)

variable (hb : b.Valid)
include hb

theorem Valid.clear : b.clear.Valid := ⟨hb.pos, hb.alloc, zero_le _, hb.pos, fun _ => rfl⟩

theorem item_zero : b.item 0 = b.pbuf b.ixHead := by
  rw [item, cell_eq hb.head hb.pos, if_pos (Nat.zero_le _), Nat.sub_zero]

theorem sum_eq : b.sum = ∑ i ∈ range b.cMax, b.slot i := by
  have hout : ∀ i ∈ range b.cMax, i ∉ range b.cItems → b.slot i = 0 :=
    fun i _ hi => if_neg (by simpa using hi)
  rw [← sum_subset (range_mono hb.items) hout]
  exact sum_congr rfl fun i hi => (if_pos (mem_range.mp hi)).symm

theorem cItems_pushed : b.pushed.cItems = min (b.cItems + 1) b.cMax := by
  have := hb.items
  simp only [pushed]
  split <;> omega

theorem Valid.pushed : b.pushed.Valid where
  pos := hb.pos
  alloc := hb.alloc
  items := (cItems_pushed hb).trans_le (min_le_right ..)
  head := mod_lt _ hb.pos
  empty h := by
    have := hb.pos
    rw [cItems_pushed hb] at h
    omega

theorem item_pushed (hi : i + 1 < b.cMax) : b.pushed.item (i + 1) = b.item i := by
  have hh := hb.head
  simp only [item, pushed, next_eq (succ_le_of_lt hh), cell_eq hh (lt_of_succ_lt hi)]
  rw [cell_eq (by split <;> omega) hi, update_of_ne (by split <;> split <;> omega)]
  congr 1
  split <;> split <;> split <;> omega

theorem slot_pushed : b.pushed.slot = fun i => if 1 ≤ i ∧ i < b.cMax then b.slot (i - 1)
    else 0 := by
  funext i
  rw [slot, cItems_pushed hb]
  obtain _ | i := i
  · rw [item_zero hb.pushed]
    simp [pushed]
  · simp only [slot, ← ite_and]
    refine if_ctx_congr ?_ (fun hi => item_pushed hb hi.1.2) fun _ => rfl
    omega

/-- What `AdvanceAccum` adds to `accum` is the oldest slot. -/
theorem sum_pushed : ∑ i ∈ range b.cMax, b.pushed.slot i +
      (if b.cItems = b.cMax then b.pbuf ((b.ixHead + 1) % b.cMax) else 0) =
        ∑ i ∈ range b.cMax, b.slot i := by
  have hle := hb.items
  obtain ⟨k, hk⟩ := exists_eq_succ_of_ne_zero hb.pos.ne'
  have hlast : b.slot k = if b.cItems = b.cMax then b.pbuf ((b.ixHead + 1) % b.cMax) else 0 := by
    rw [slot, item, show b.ixHead + b.cMax - k = b.ixHead + 1 by omega]
    exact if_congr (by omega) rfl rfl
  rw [← hlast, slot_pushed hb, hk, sum_range_succ', sum_range_succ _ k, if_neg (by omega), add_zero]
  congr 1
  exact sum_congr rfl fun i hi => if_pos ⟨by omega, by simpa using hi⟩

theorem pushZero_eq (fresh : ℕ → ℤ) : b.pushZero fresh = some b.pushed := by
  have halloc : b.cAlloc ≠ 0 := (hb.pos.trans_le hb.alloc).ne'
  rw [pushZero, if_neg hb.items.not_gt, if_neg halloc]

theorem slot_of_ge (hi : b.cMax ≤ i) : b.slot i = 0 := if_neg (hb.items.trans hi).not_gt

theorem advanceLoop_spec (fresh : ℕ → ℤ) (n : ℕ) (accum : ℤ) :
    ∃ b' accum', advanceLoop fresh n b accum = some (b', accum') ∧ b'.Valid ∧ b'.cMax = b.cMax ∧
      b'.slot = (fun i => if n ≤ i ∧ i < b.cMax then b.slot (i - n) else 0) ∧
      accum' + ∑ i ∈ range b.cMax, b'.slot i = accum + ∑ i ∈ range b.cMax, b.slot i := by
  induction n generalizing b accum with
  | zero =>
    refine ⟨b, accum, rfl, hb, rfl, funext fun i => ?_, rfl⟩
    split
    · rfl
    · exact slot_of_ge hb (by omega)
  | succ n ih =>
    have hsum := sum_pushed hb
    obtain ⟨b', accum', hrun, hb', hmax, hslot, haccum⟩ := ih hb.pushed
      (if b.cItems = b.cMax then accum + b.pbuf ((b.ixHead + 1) % b.cMax) else accum)
    change b'.slot = fun i => if n ≤ i ∧ i < b.cMax then b.pushed.slot (i - n) else 0 at hslot
    change accum' + ∑ i ∈ range b.cMax, _ = _ + ∑ i ∈ range b.cMax, _ at haccum
    refine ⟨b', accum', ?_, hb', hmax, ?_, ?_⟩
    · rw [advanceLoop, pushZero_eq hb, Option.bind_some, hrun]
    · rw [hslot, slot_pushed hb]
      funext i
      simp only [← ite_and]
      exact if_congr (by omega) rfl rfl
    · split at hsum <;> split at haccum <;> omega

/-! ### Adding -/

theorem Valid.added (val : ℤ) : (b.added val).Valid :=
  ⟨hb.pos, hb.alloc, hb.items, hb.head, hb.empty⟩

theorem add_eq (val : ℤ) : b.add val = some (b.added val) :=
  if_neg (not_or.mpr ⟨(hb.pos.trans_le hb.alloc).ne', hb.pos.ne'⟩)

theorem slot_added (hne : b.cItems ≠ 0) (val : ℤ) :
    (b.added val).slot = fun i => b.slot i + if i = 0 then val else 0 := by
  have hle := hb.items
  funext i
  obtain _ | i := i
  · have hpos : 0 < b.cItems := by omega
    rw [slot, slot, item_zero (hb.added val), item_zero hb]
    simp [RingBuffer.added, hpos]
  · rw [if_neg (by omega), add_zero]
    refine if_ctx_congr Iff.rfl (fun hi => ?_) fun _ => rfl
    simp only [item, RingBuffer.added, cell_eq hb.head (hi.trans_le hle)]
    exact update_of_ne (by split <;> omega) ..

/-! ### Another size -/

omit hb in
theorem foldl_update {f : ℕ → ℕ} {g : ℕ → ℤ} (p : ℕ → ℤ) {n : ℕ} (hi : i < n)
    (hf : ∀ j < n, f j = f i → j = i) :
    (List.range n).foldl (fun p j => update p (f j) (g j)) p (f i) = g i := by
  induction n with
  | zero => exact absurd hi (not_lt_zero i)
  | succ n ih =>
    rw [List.range_succ, List.foldl_append, List.foldl_cons, List.foldl_nil]
    by_cases hn : i = n
    · rw [hn, update_self]
    · rw [update_of_ne fun h => hn (hf n n.lt_succ_self h.symm).symm]
      exact ih (by omega) fun j hj => hf j (by omega)

omit hb in
theorem item_copy {a m c : ℕ} {fresh : ℕ → ℤ} (hm : 0 < m) (hc : c ≤ m) (hi : i < c) :
    item ⟨m, a, c % m, c, b.copy fresh m c⟩ i = b.item i := by
  have hcell (j : ℕ) : (c - j) % m = if c - j = m then 0 else c - j := next_eq (by omega)
  have hat : (c % m + m - i) % m = (c - i) % m := by
    rw [cell_eq (mod_lt c hm) (by omega), hcell, next_eq hc]
    split <;> split <;> split <;> omega
  simp only [item, hat]
  refine foldl_update fresh hi fun j hj h => ?_
  simp only [hcell] at h
  split at h <;> split at h <;> omega

theorem setSize_spec (fresh : ℕ → ℤ) {cSize : ℕ} (hpos : 0 < cSize) (hne : b.cMax ≠ cSize) :
    (b.setSize fresh cSize).Valid ∧ (b.setSize fresh cSize).cMax = cSize ∧
      (b.setSize fresh cSize).slot = fun i => if i < cSize then b.slot i else 0 := by
  have hh := hb.head
  have hle := hb.items
  have halloc : b.cAlloc ≠ 0 := (hb.pos.trans_le hb.alloc).ne'
  have hquant : cSize ≤ quantized cSize := by
    unfold quantized
    split <;> omega
  rw [setSize, if_neg hpos.ne']
  split
  case isTrue =>
    refine ⟨⟨hpos, hquant, min_le_right .., mod_lt _ hpos, fun h => ?_⟩, rfl, funext fun i => ?_⟩
    · exact (congrArg (· % cSize) h).trans (zero_mod _)
    · simp only [slot, ← ite_and]
      refine if_ctx_congr (by omega) (fun hi => ?_) fun _ => rfl
      exact item_copy hpos (min_le_right ..) (by omega)
  case isFalse hcopy =>
    -- the items are the cells from the head down, all below `cSize`
    simp only [mustCopy, decide_eq_true_eq] at hcopy
    have hfit : b.cItems = 0 ∧ b.ixHead = 0 ∨ b.ixHead < cSize ∧ b.cItems ≤ b.ixHead + 1 := by
      have := hb.empty
      omega
    have hsame : (if cSize < b.cMax ∧ 0 < b.cItems then
        { b with cMax := cSize, ixHead := b.ixHead % cSize, cItems := min b.cItems cSize }
      else { b with cMax := cSize }) = { b with cMax := cSize } := by
      split
      · rw [mod_eq_of_lt (by omega), min_eq_left (by omega)]
      · rfl
    rw [hsame]
    refine ⟨⟨hpos, by dsimp only; omega, by dsimp only; omega, by dsimp only; omega, hb.empty⟩, rfl,
      funext fun i => ?_⟩
    simp only [slot, ← ite_and]
    refine if_ctx_congr (by omega) (fun hi => ?_) fun _ => rfl
    have hcells : b.ixHead < cSize ∧ i < cSize ∧ i ≤ b.ixHead := by omega
    simp [item, cell_eq hh (hi.2.trans_le hle), cell_eq hcells.1 hcells.2.1, if_pos hcells.2.2]

end RingBuffer

/-! ## Runs -/

/-- The probe shows the window. -/
structure Shows (e : Entry) (w : Window) : Prop where
  valid : e.buf.Valid
  size : e.buf.cMax = w.size
  value : e.value = w.total
  recent : e.recent = w.recent
  slots : e.buf.slot = w.slots

/-- A window has a size. -/
def Call.Legal : Call → Prop
  | .setWindowSize size => 0 < size
  | _ => True

section

open RingBuffer

variable {e : Entry} {w : Window} (h : Shows e w)
include h

variable (fresh : ℕ → ℤ)

theorem Shows.add (val : ℤ) : ∃ e', e.add fresh val = some e' ∧ Shows e' (w.add val) := by
  -- the buffer has a current slot once it is not empty
  obtain ⟨b, hpush, hb, hmax, hne, hslots⟩ : ∃ b,
      (if e.buf.cItems = 0 then e.buf.pushZero fresh else some e.buf) = some b ∧ b.Valid ∧
      b.cMax = w.size ∧ b.cItems ≠ 0 ∧ b.slot = w.slots := by
    split
    case isTrue h0 =>
      have hpos := h.valid.pos
      refine ⟨_, pushZero_eq h.valid fresh, h.valid.pushed, h.size, by simp [pushed, h0, hpos], ?_⟩
      rw [slot_pushed h.valid, ← h.slots]
      funext i
      simp [slot, h0]
    case isFalse h0 => exact ⟨_, rfl, h.valid, h.size, h0, h.slots⟩
  refine ⟨⟨e.value + val, e.recent + val, b.added val⟩, ?_, hb.added val, hmax,
    congrArg (· + val) h.value, ?_, ?_⟩
  · rw [Entry.add, if_neg h.valid.pos.ne', hpush, Option.bind_some, add_eq hb]
    rfl
  · have hpos : w.size ≠ 0 := h.size ▸ h.valid.pos.ne'
    simp [Window.recent, Window.add, sum_add_distrib, h.recent, hpos]
  · rw [slot_added hb hne, hslots, Window.add]

theorem Shows.clear (value : ℤ) : Shows ⟨value, 0, e.buf.clear⟩ ⟨w.size, fun _ => 0, value⟩ :=
  ⟨h.valid.clear, h.size, rfl, by simp [Window.recent], rfl⟩

theorem Shows.advanceBy (cSlots : ℤ) :
    ∃ e', e.advanceBy fresh cSlots = some e' ∧ Shows e' (w.advance cSlots.toNat) := by
  rw [Entry.advanceBy]
  split
  case isTrue =>
    obtain ⟨b, accum, hrun, hb, hmax, hslot, haccum⟩ :=
      advanceLoop_spec h.valid fresh cSlots.toNat 0
    rw [h.slots, h.size] at hslot
    refine ⟨⟨e.value, e.recent - accum, b⟩, ?_, hb, hmax.trans h.size, h.value, ?_, hslot⟩
    · rw [advanceAccum, if_neg h.valid.pos.ne', hrun]
      rfl
    · have hrecent := h.recent
      rw [hslot, h.slots, h.size] at haccum
      simp only [Window.recent, Window.advance] at hrecent haccum ⊢
      omega
  case isFalse hge =>
    have hzero : w.advance cSlots.toNat = ⟨w.size, fun _ => 0, e.value⟩ := by
      have := h.size
      rw [Window.advance, h.value]
      congr
      funext i
      exact if_neg (by omega)
    rw [hzero]
    exact ⟨_, rfl, h.clear e.value⟩

theorem Shows.setWindowSize {size : ℕ} (hpos : 0 < size) :
    Shows (e.setWindowSize fresh size) (w.call (.setWindowSize size)) := by
  rw [Entry.setWindowSize]
  split
  case isTrue hne =>
    obtain ⟨hb, hmax, hslot⟩ := setSize_spec h.valid fresh hpos hne
    rw [h.slots] at hslot
    exact ⟨hb, hmax, h.value, by rw [sum_eq hb, hmax, hslot]; rfl, hslot⟩
  case isFalse he =>
    have he : w.size = size := h.size.symm.trans (Decidable.not_not.mp he)
    have hsame : w.call (.setWindowSize size) = w := by
      rw [Window.call, ← he]
      congr
      funext i
      split
      · rfl
      · rw [← h.slots, slot_of_ge h.valid (by rw [h.size]; omega)]
    rwa [hsame]

theorem Shows.call {c : Call} (hc : c.Legal) :
    ∃ e', e.call fresh c = some e' ∧ Shows e' (w.call c) := by
  cases c with
  | add val => exact h.add fresh val
  | set val =>
    rw [Entry.call, h.value]
    exact h.add fresh _
  | advanceBy cSlots => exact h.advanceBy fresh cSlots
  | setWindowSize size => exact ⟨_, rfl, h.setWindowSize fresh hc⟩
  | clear => exact ⟨_, rfl, h.clear 0⟩
  | clearRecent => exact ⟨_, rfl, h.value ▸ h.clear e.value⟩

theorem Shows.calls {cs : List ((ℕ → ℤ) × Call)} (hcs : ∀ c ∈ cs, c.2.Legal) :
    ∃ e', e.calls cs = some e' ∧ Shows e' ((cs.map Prod.snd).foldl Window.call w) := by
  induction cs generalizing e w with
  | nil => exact ⟨e, rfl, h⟩
  | cons c cs ih =>
    obtain ⟨e1, hcall, h1⟩ := h.call c.1 (hcs c List.mem_cons_self)
    obtain ⟨e2, hcalls, h2⟩ := ih h1 fun d hd => hcs d (List.mem_cons_of_mem c hd)
    exact ⟨e2, by rw [Entry.calls, hcall, Option.bind_some, hcalls], h2⟩

end

/-- **A probe is a sliding window**: no call fails, and after all of them `recent` is the sum of the
slots that are kept and `value` the total. -/
theorem recent_is_window {size : ℕ} (hpos : 0 < size) (fresh : ℕ → ℤ)
    (cs : List ((ℕ → ℤ) × Call)) (hcs : ∀ c ∈ cs, c.2.Legal) :
    ∃ e, (Entry.new fresh size).calls cs = some e ∧
      e.recent = ((cs.map Prod.snd).foldl Window.call ⟨size, fun _ => 0, 0⟩).recent ∧
      e.value = ((cs.map Prod.snd).foldl Window.call ⟨size, fun _ => 0, 0⟩).total := by
  have hnew : Shows (Entry.new fresh size) ⟨size, fun _ => 0, 0⟩ :=
    ⟨⟨hpos, le_rfl, zero_le _, hpos, fun _ => rfl⟩, rfl, rfl, by simp [Window.recent, Entry.new],
      rfl⟩
  obtain ⟨e, hrun, h⟩ := hnew.calls hcs
  exact ⟨e, hrun, h.recent, h.value⟩

theorem recent_is_window_shrunk : ∃ e, (Entry.new Int.ofNat 3).calls
      [(Int.ofNat, .add 5), (Int.ofNat, .advanceBy 1), (Int.ofNat, .add 7),
        (Int.ofNat, .setWindowSize 1)] = some e ∧ e.recent = 7 ∧ e.value = 12 :=
  recent_is_window (by decide) _ _ (by simp [Call.Legal])

end Condor.Stats
