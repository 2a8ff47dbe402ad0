import Mathlib.Data.List.Nodup
import Mathlib.Data.List.Infix

/-!
# Linked lists in a heap

A heap of cells that carry a value and the address of the next cell. Programs over it can fail:
they may follow a null or a freed pointer, go around a cycle, or give up on purpose.

* **`seek_chain`**: what the walk finds; `chain_link`, `chain_unlink`: a cell is put between two
  parts of a chain, or taken out.
-/

namespace Condor.Linked

open List

abbrev Addr : Type := ℕ

/-- A cell: a value and the pointer to the next cell, `none` for the null pointer. -/
structure Cell (A : Type) where
  val : A
  next : Option Addr
deriving DecidableEq, Repr

/-- How a program on the heap fails. -/
inductive Fault where
  /-- A null pointer or a pointer to a freed cell was followed. -/
  | badPointer
  /-- A walk took more steps than there have ever been cells. -/
  | endless
  /-- The program stopped itself. -/
  | gaveUp
deriving DecidableEq, Repr

/-- The cells in use, and how many cells have been allocated so far. -/
structure Heap (A : Type) where
  cell : Addr → Option (Cell A)
  made : ℕ

variable {A : Type}

namespace Heap

def empty : Heap A := ⟨fun _ => none, 0⟩

def deref (h : Heap A) : Option Addr → Except Fault (Cell A)
  | none => .error .badPointer
  | some a => match h.cell a with
    | none => .error .badPointer
    | some c => .ok c

def put (h : Heap A) (a : Addr) (c : Option (Cell A)) : Heap A :=
  { h with cell := Function.update h.cell a c }

def setVal (h : Heap A) (a : Addr) (v : A) : Except Fault (Heap A) := do
  let c ← h.deref (some a)
  return h.put a (some { c with val := v })

def setNext (h : Heap A) (p : Option Addr) (q : Option Addr) : Except Fault (Heap A) := do
  let c ← h.deref p
  return match p with
    | none => h
    | some a => h.put a (some { c with next := q })

def alloc (h : Heap A) (a : Addr) (v : A) : Heap A :=
  { h.put a (some ⟨v, none⟩) with made := h.made + 1 }

def free (h : Heap A) (a : Addr) : Except Fault (Heap A) := do
  let _ ← h.deref (some a)
  return h.put a none

section

variable (h : Heap A)
include h

@[simp] theorem made_put (a : Addr) (c : Option (Cell A)) : (h.put a c).made = h.made := rfl

@[simp] theorem made_alloc (a : Addr) (v : A) : (h.alloc a v).made = h.made + 1 := rfl

@[simp] theorem cell_put_self (a : Addr) (c : Option (Cell A)) : (h.put a c).cell a = c := by
  simp [put]

theorem cell_put_of_ne {a b : Addr} (hab : b ≠ a) (c : Option (Cell A)) :
    (h.put a c).cell b = h.cell b := by
  simp [put, hab]

@[simp] theorem cell_alloc_self (a : Addr) (v : A) : (h.alloc a v).cell a = some ⟨v, none⟩ := by
  simp [alloc]

theorem cell_alloc_of_ne {a b : Addr} (hab : b ≠ a) (v : A) : (h.alloc a v).cell b = h.cell b := by
  simp [alloc, cell_put_of_ne _ hab]

end

variable {h : Heap A} {c : Cell A} {a : Addr}

section

variable (hc : h.cell a = some c)
include hc

theorem deref_some : h.deref (some a) = .ok c := by
  simp [deref, hc]

theorem setVal_some (v : A) : h.setVal a v = .ok (h.put a (some { c with val := v })) := by
  simp [setVal, deref_some hc, bind, Except.bind, pure, Except.pure]

theorem setNext_some
    (q : Option Addr) : h.setNext (some a) q = .ok (h.put a (some { c with next := q })) := by
  simp [setNext, deref_some hc, bind, Except.bind, pure, Except.pure]

theorem free_some : h.free a = .ok (h.put a none) := by
  simp [free, deref_some hc, bind, Except.bind, pure, Except.pure]

end

end Heap

/-! ## Chains -/

/-- Following the links from `p` goes through the addresses `l` and arrives at `q`. -/
def Chain (h : Heap A) : Option Addr → List Addr → Option Addr → Prop
  | p, [], q => p = q
  | p, a :: l, q => p = some a ∧ ∃ c, h.cell a = some c ∧ Chain h c.next l q

variable {h h' : Heap A} {p q : Option Addr} {l l1 l2 : List Addr} {a : Addr}

theorem chain_append : Chain h p (l1 ++ l2) q ↔ ∃ r, Chain h p l1 r ∧ Chain h r l2 q := by
  induction l1 generalizing p with
  | nil => simp [Chain]
  | cons b l1 ih =>
    simp only [cons_append, Chain, ih]
    constructor
    · rintro ⟨hp, c, hc, r, h1, h2⟩
      exact ⟨r, ⟨hp, c, hc, h1⟩, h2⟩
    · rintro ⟨r, ⟨hp, c, hc, h1⟩, h2⟩
      exact ⟨hp, c, hc, r, h1, h2⟩

/-- **Frame rule.** A chain depends on the links of its own cells only. -/
theorem Chain.congr (hl : Chain h p l q)
    (heq : ∀ a ∈ l, (h'.cell a).map Cell.next = (h.cell a).map Cell.next) : Chain h' p l q := by
  induction l generalizing p with
  | nil => exact hl
  | cons b l ih =>
    obtain ⟨hp, c, hc, hl⟩ := hl
    have hb := heq b mem_cons_self
    rw [hc, Option.map_some, Option.map_eq_some_iff] at hb
    obtain ⟨c', hc', hn⟩ := hb
    refine ⟨hp, c', hc', ?_⟩
    rw [hn]
    exact ih hl fun a ha => heq a (mem_cons_of_mem b ha)

theorem Chain.head (hl : Chain h p l none) : p = l.head? := by
  cases l with
  | nil => exact hl
  | cons b l => exact hl.1

theorem Chain.cell (hl : Chain h p l q) (ha : a ∈ l) : ∃ c, h.cell a = some c := by
  induction l generalizing p with
  | nil => simp at ha
  | cons b l ih =>
    obtain ⟨-, c, hc, hl⟩ := hl
    rcases mem_cons.mp ha with rfl | ha
    · exact ⟨c, hc⟩
    · exact ih hl ha

theorem Chain.unique {l' : List Addr} (h1 : Chain h p l none) (h2 : Chain h p l' none) :
    l = l' := by
  induction l generalizing p l' with
  | nil =>
    cases l' with
    | nil => rfl
    | cons b l' => cases h1.symm.trans h2.1
  | cons a l ih =>
    cases l' with
    | nil => cases h1.1.symm.trans h2
    | cons b l' =>
      obtain ⟨rfl, c, hc, hl⟩ := h1
      obtain ⟨hb, d, hd, hl'⟩ := h2
      cases hb
      rw [hc] at hd
      cases hd
      rw [ih hl hl']

theorem Chain.next (hl : Chain h p (l1 ++ a :: l2) none) {c : Cell A} (hc : h.cell a = some c) :
    c.next = l2.head? := by
  obtain ⟨r, -, -, c', hc', hl2⟩ := chain_append.mp hl
  rw [hc] at hc'
  rw [Option.some.inj hc']
  exact hl2.head

theorem chain_link {t : Addr} {ct ca : Cell A} (hl : Chain h p (l1 ++ t :: l2) none)
    (hca : h.cell a = some ca) (hn : (l1 ++ t :: l2).Nodup)
    (ha : a ∉ l1 ++ t :: l2) (hnext : ca.next = l2.head?) :
    Chain (h.put t (some { ct with next := some a })) p (l1 ++ t :: a :: l2) none := by
  have hat : a ≠ t := fun e => ha (by simp [e])
  have hdisj := nodup_append.mp hn
  have hcons := nodup_cons.mp hdisj.2.1
  obtain ⟨r, hl1, hr, c, -, hl2⟩ := chain_append.mp hl
  refine chain_append.mpr ⟨r, hl1.congr fun b hb => ?_, hr, _, h.cell_put_self t _, rfl, ca, ?_, ?_⟩
  · rw [h.cell_put_of_ne (hdisj.2.2 b hb t mem_cons_self)]
  · rw [h.cell_put_of_ne hat, hca]
  · rw [hnext, ← hl2.head]
    refine hl2.congr fun b hb => ?_
    rw [h.cell_put_of_ne fun e : b = t => hcons.1 (e ▸ hb)]

theorem chain_unlink {t : Addr} {ct ca : Cell A} (hl : Chain h p (l1 ++ t :: a :: l2) none)
    (hca : h.cell a = some ca) (hn : (l1 ++ t :: a :: l2).Nodup) :
    Chain (h.put t (some { ct with next := ca.next })) p (l1 ++ t :: l2) none := by
  have hdisj := nodup_append.mp hn
  have hcons := nodup_cons.mp hdisj.2.1
  obtain ⟨r, hl1, hr, c, -, -, ca', hca', hl2⟩ := chain_append.mp hl
  rw [hca] at hca'
  cases hca'
  refine chain_append.mpr ⟨r, hl1.congr fun b hb => ?_, hr, _, h.cell_put_self t _, ?_⟩
  · rw [h.cell_put_of_ne (hdisj.2.2 b hb t mem_cons_self)]
  · refine hl2.congr fun b hb => ?_
    rw [h.cell_put_of_ne fun e : b = t => hcons.1 (mem_cons_of_mem a (e ▸ hb))]

theorem eq_getLast?_iff (hn : (l1 ++ a :: l2).Nodup) :
    some a = (l1 ++ a :: l2).getLast? ↔ l2 = [] := by
  have ha := (nodup_cons.mp (nodup_append.mp hn).2.1).1
  rw [getLast?_append_cons]
  cases l2 with
  | nil => simp
  | cons b l2 =>
    have hlast := getLast?_eq_some_getLast (cons_ne_nil b l2)
    rw [getLast?_cons_cons, hlast]
    simp only [Option.some.injEq, reduceCtorEq, iff_false]
    intro he
    exact ha (he ▸ getLast_mem (cons_ne_nil b l2))

/-! ## Walking along a list -/

/-- The walk along a list until a cell meets a test: this cell, or null, and the cell before it. -/
def seek (h : Heap A) (stop : A → Bool) :
    ℕ → Option Addr → Option Addr → Except Fault (Option Addr × Option Addr)
  | 0, _, _ => .error .endless
  | _ + 1, none, trail => .ok (none, trail)
  | n + 1, some a, trail => do
    let c ← h.deref (some a)
    if stop c.val then .ok (some a, trail) else seek h stop n c.next (some a)

def Heap.meets (h : Heap A) (stop : A → Bool) (a : Addr) : Bool :=
  (h.cell a).any fun c => stop c.val

/-- **What the walk finds**: the first cell of the chain that meets the test. -/
theorem seek_chain {stop : A → Bool} {n : ℕ} (hl : Chain h p l none) (hn : l.length < n)
    (trail : Option Addr) :
    seek h stop n p trail = .ok ((l.dropWhile fun a => !h.meets stop a).head?,
        ((l.takeWhile fun a => !h.meets stop a).getLast?).or trail) := by
  induction l generalizing p n trail with
  | nil =>
    cases n with
    | zero => simp at hn
    | succ n => rw [hl.head]; rfl
  | cons b l ih =>
    cases n with
    | zero => simp at hn
    | succ n =>
      obtain ⟨rfl, c, hc, hl⟩ := hl
      simp only [seek, Heap.deref_some hc, bind, Except.bind]
      cases hstop : stop c.val with
      | true => simp [Heap.meets, hc, hstop]
      | false =>
        have hb : h.meets stop b = false := by simp [Heap.meets, hc, hstop]
        simp only [Bool.false_eq_true, ih hl (by simpa using hn), hb, Bool.not_false,
          dropWhile_cons_of_pos, takeWhile_cons_of_pos]
        cases l.takeWhile fun a => !h.meets stop a with
        | nil => rfl
        | cons d w => simp [getLast?_cons]

end Condor.Linked
