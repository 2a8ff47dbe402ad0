import Mathlib.Data.Int.ConditionallyCompleteOrder
import Mathlib.Data.List.TakeWhile
import Mathlib.Data.List.TakeDrop

/-!
# Range sets — the model of `ranger`

`ranger<T>` keeps a set of elements as a forest of half-open ranges `[start, stop)`, stored in a
`std::set` that is ordered by the right ends. The forest is modelled by the list of its ranges in
the order of the set; an iterator is a position in that list, and a mutation through an iterator
is a replacement of the element at that position.
-/

namespace Condor.Ranger

variable {α : Type*} [LinearOrder α]

/-- `ranger<T>::range`: the elements `x` with `start ≤ x < stop`. -/
structure Range (α : Type*) where
  start : α
  stop : α
deriving DecidableEq, Repr

def Range.toSet (r : Range α) : Set α := Set.Ico r.start r.stop

/-- `lower_bound(x)`: the ranges before the first one with `x ≤ stop`, and the others. -/
def lowerBound (f : List (Range α)) (x : α) : List (Range α) × List (Range α) :=
  f.span fun e => decide (e.stop < x)

/-- `upper_bound(x)`: the ranges before the first one with `x < stop`, and the others. -/
def upperBound (f : List (Range α)) (x : α) : List (Range α) × List (Range α) :=
  f.span fun e => decide (e.stop ≤ x)

/-- `std::set::insert`: nothing happens when a range with the same right end is present. -/
def setInsert (r : Range α) : List (Range α) → List (Range α)
  | [] => [r]
  | e :: f =>
    if e.stop < r.stop then e :: setInsert r f
    else if r.stop < e.stop then r :: e :: f
    else e :: f

variable (f : List (Range α))

/-- `ranger::insert(range)`, with the position of the returned iterator. -/
def insert (r : Range α) : List (Range α) × ℕ :=
  let (pre, rest) := lowerBound f r.start
  let (mid, post) := rest.span fun e => decide (e.start ≤ r.stop)
  match mid.head?, mid.getLast? with
  | some front, some back =>
    -- the last affected range is widened in place, the affected ones before it are erased
    let minStart := min front.start r.start
    let back' : Range α :=
      { start := if minStart < back.start then minStart else back.start
        stop := if back.stop < r.stop then r.stop else back.stop }
    (pre ++ back' :: post, pre.length)
  | _, _ => (setInsert r f, pre.length)

/-- `ranger::erase(range)`, with the position of the returned iterator. -/
def erase (r : Range α) : List (Range α) × ℕ :=
  let (pre, rest) := upperBound f r.start
  let (mid, post) := rest.span fun e => decide (e.start < r.stop)
  match mid.head?, mid.getLast? with
  | some front, some back =>
    if front.start < r.start ∧ r.stop < front.stop then
      -- split a single range
      (setInsert ⟨r.stop, back.stop⟩ (pre ++ ⟨front.start, r.start⟩ :: (mid.tail ++ post)),
        pre.length + 1)
    else
      let left := if front.start < r.start then [⟨front.start, r.start⟩] else []
      let right := if r.stop < back.stop then [⟨r.stop, back.stop⟩] else []
      (pre ++ left ++ right ++ post, pre.length + left.length)
  | _, _ => (f, pre.length)

/-- `ranger::find`: the position of the first range ending after `x`, and whether it has `x`. -/
def find (x : α) : ℕ × Bool :=
  let (pre, rest) := upperBound f x
  match rest with
  | [] => (pre.length, false)
  | e :: _ => (pre.length, decide (e.start ≤ x))

def contains (x : α) : Bool := (find f x).2

/-! ## Single elements of a `ranger<int>` -/

/-- The largest `int`. -/
def intMax : ℤ := 2 ^ 31 - 1

/-- The smallest `int`. -/
def intMin : ℤ := -2 ^ 31

/-- `e + 1` on `int`, with the wrap-around of 32 bits. -/
def intSucc (e : ℤ) : ℤ := (e + 1 - intMin) % 2 ^ 32 + intMin

/-- `ranger<int>::insert(element_type)`. -/
def insertElem (f : List (Range ℤ)) (e : ℤ) : List (Range ℤ) × ℕ := insert f ⟨e, intSucc e⟩

/-- `ranger<int>::erase(element_type)`. -/
def eraseElem (f : List (Range ℤ)) (e : ℤ) : List (Range ℤ) × ℕ := erase f ⟨e, intSucc e⟩

/-! ## The invariant -/

/-- A forest of non-empty ranges, in increasing order and with a gap between any two. -/
structure Separated (f : List (Range α)) : Prop where
  nonempty : ∀ e ∈ f, e.start < e.stop
  gaps : f.Pairwise fun a b => a.stop < b.start

def elems : Set α := {x | ∃ e ∈ f, x ∈ e.toSet}

end Condor.Ranger
