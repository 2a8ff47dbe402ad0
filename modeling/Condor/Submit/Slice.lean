import Condor.Lib.CText
import Mathlib.Tactic.Linarith
import Mathlib.Tactic.Ring

/-!
# Slices of queue items

`condor_submit` takes a slice `[x:y:z]` of the items of a queue statement. Three methods compute
with it; a Python slice selects the items that are meant. The bounds, the step, the number of items
and all that is computed from them are of type `int`: a computation that overflows has no result.

- **`agree_iff`**: when all of them agree.
-/

namespace Condor.Submit

open List Option

/-! ## Computations with `int` -/

/-- The number is an `int`. -/
def IsInt (x : ℤ) : Prop := -2 ^ 31 ≤ x ∧ x < 2 ^ 31

instance (x : ℤ) : Decidable (IsInt x) := inferInstanceAs (Decidable (_ ∧ _))

/-- The result of an operation on `int`, unless it overflows. -/
def int (x : ℤ) : Option ℤ := if IsInt x then some x else none

theorem int_bind_eq_some {α : Type} {x : ℤ} {f : ℤ → Option α} {r : α} :
    (int x).bind f = some r ↔ IsInt x ∧ f x = some r := by
  by_cases hx : IsInt x <;> simp [int, hx]

theorem isInt_toInt (b : BitVec 32) : IsInt b.toInt := ⟨b.le_toInt, b.toInt_lt⟩

/-! ## The slice -/

/-- `qslice`. A bound is there if its bit of `flags` is set. -/
structure QSlice where
  initialized : Bool
  start : Option (BitVec 32)
  stop : Option (BitVec 32)
  step : Option (BitVec 32)

/-- `(int)strtol(str, &pend, 10)` and the text at `pend`. -/
def strtol (str : Text) : Option (BitVec 32) × Text :=
  let s := str.dropWhile isSpace
  let digits := if s.head? = some '-' ∨ s.head? = some '+' then s.tail else s
  let n : ℤ := Nat.ofDigitChars 10 (digits.takeWhile Char.isDigit) 0
  let val := max (-2 ^ 63) (min (if s.head? = some '-' then -n else n) (2 ^ 63 - 1))
  if digits.head?.any Char.isDigit then
    (some (BitVec.ofInt 32 val), digits.dropWhile Char.isDigit)
  else (none, str)

namespace QSlice

/-- The slice, and the text that is returned. -/
def set (str : Text) : QSlice × Text :=
  let unset := (⟨false, none, none, none⟩, str)
  match str with
  | '[' :: p =>
    match strtol p with
    | (x, ']' :: p) => (⟨true, x, none, none⟩, ']' :: p)
    | (x, ':' :: p) =>
      match strtol p with
      | (y, ']' :: p) => (⟨true, x, y, none⟩, ']' :: p)
      | (y, ':' :: p) =>
        match strtol p with
        | (z, ']' :: p) => (⟨true, x, y, z⟩, p)
        | _ => unset
      | _ => unset
    | _ => unset
  | _ => unset

variable (q : QSlice) (len : ℤ)

/-- A negative bound counts from the end. The sum does not overflow, as the length is not negative.
-/
def shift (b : BitVec 32) : ℤ := if b.toInt < 0 then b.toInt + len else b.toInt

/-- `is`. -/
def lower : ℤ := (q.start.map (shift len)).getD 0

/-- `ie` of `selected` and `length_for`. -/
def upper : ℤ := (q.stop.map (shift len)).getD len

/-- `im`. -/
def stride : ℤ := (q.step.map BitVec.toInt).getD 1

/-- There is no result after `ASSERT(0)`. -/
def translate (ix : ℤ) : Option (ℤ × Bool) :=
  if !q.initialized then some (ix, 0 ≤ ix ∧ ix < len)
  else if q.stride ≤ 0 then none
  else do
    let ie ← if q.stop.isSome then int (q.lower len + q.upper len) else some len
    let offset ← int (ix * q.stride)
    let iy ← int (q.lower len + offset)
    some (iy, q.lower len ≤ iy ∧ iy < ie)

def selected (ix : ℤ) : Option Bool :=
  if !q.initialized then some (0 ≤ ix ∧ ix < len)
  else if q.lower len ≤ ix ∧ ix < q.upper len then
    match q.step with
    | none => some true
    | some step => do
      let offset ← int (ix - q.lower len)
      some (offset.tmod step.toInt = 0)
  else some false

/-- `ret`, divided by the step. -/
def divided (ret : ℤ) : Option ℤ :=
  match q.step with
  | none => some ret
  | some step =>
    if 1 < step.toInt then do
      let sum ← int (ret + step.toInt)
      let sum ← int (sum - 1)
      some (sum.tdiv step.toInt)
    else some ret

def lengthFor : Option ℤ :=
  if !q.initialized then some len
  else do
    let ret ← int (q.upper len - q.lower len)
    let ret ← q.divided ret
    some (min (max 0 ret) len)

/-! ## The items that are meant -/

/-- The number of steps that stay below `a`. -/
def steps (a : ℤ) : ℤ := (a + q.stride - 1) / q.stride

def clamp (b : ℤ) : ℤ := max 0 (min b len)

/-- Python's `range(len)[x:y:z]`. -/
def python : List ℤ :=
  (range (q.steps (clamp len (q.upper len) - clamp len (q.lower len))).toNat).map fun k : ℕ =>
    clamp len (q.lower len) + k * q.stride

/-- The methods agree with each other and with Python. -/
structure Agree : Prop where
  selected i : 0 ≤ i → i < len → q.selected len i = some (decide (i ∈ q.python len))
  inside i : i ∈ q.python len → 0 ≤ i ∧ i < len
  translated (k : ℕ) : k < (q.python len).length →
    q.translate len k = (q.python len)[k]?.map fun i => (i, true)
  ended : (q.translate len (q.python len).length).map Prod.snd = some false
  increasing : (q.python len).Pairwise (· < ·)
  length : q.lengthFor len = some (q.python len).length

/-- When they do: the start is in the list, and as `translate` takes the end for a length, that
makes no difference. -/
def Regular : Prop :=
  if q.stop.isNone then 0 ≤ q.lower len
  else if q.upper len ≤ 0 then q.upper len ≤ q.lower len ∨ len = 0
  else 0 ≤ q.lower len ∧ q.lower len < min (q.upper len) len ∧
    q.steps (q.upper len) = q.steps (min (q.upper len) len - q.lower len)

/-- `translate` does not overflow. -/
def FitsAt (k : ℕ) : Prop :=
  (q.stop.isSome → IsInt (q.lower len + q.upper len)) ∧ IsInt (k * q.stride) ∧
    IsInt (q.lower len + k * q.stride)

/-- `length_for` does not overflow. -/
def FitsLength : Prop :=
  IsInt (q.upper len - q.lower len) ∧
    (1 < q.stride → IsInt (q.upper len - q.lower len + q.stride))

/-- Nothing overflows, up to the first item that is not translated. -/
def Fits : Prop := q.FitsLength len ∧ q.FitsAt len (q.python len).length

instance : Decidable (q.Regular len) := by
  unfold Regular
  infer_instance

instance : Decidable (q.Fits len) := by
  unfold Fits FitsLength FitsAt
  infer_instance

/-- How far `translate` goes. -/
def span : ℤ := if q.stop.isNone then len - q.lower len else q.upper len

/-! ## Steps -/

section

variable {q} {len} {a b : ℤ}

theorem getElem_python {k : ℕ} (hk : k < (q.python len).length) :
    (q.python len)[k]? = some (clamp len (q.lower len) + k * q.stride) := by
  simp only [python, length_map, length_range] at hk
  simp [python, hk]

theorem length_python (q : QSlice) (len : ℤ) : ((q.python len).length : ℤ) =
    max 0 (q.steps (clamp len (q.upper len) - clamp len (q.lower len))) := by
  simp [python, max_comm]

theorem clamp_nonneg (len a : ℤ) : 0 ≤ clamp len a := le_max_left ..

variable (hz : 0 < q.stride)
include hz

theorem lt_steps (k : ℤ) : k < q.steps a ↔ k * q.stride < a := by
  rw [steps, ← Int.add_one_le_iff, Int.le_ediv_iff_mul_le hz, add_mul]
  omega

theorem steps_mono (h : a ≤ b) : q.steps a ≤ q.steps b :=
  le_of_forall_lt fun k hk => (lt_steps hz k).mpr (((lt_steps hz k).mp hk).trans_le h)

theorem steps_pos : 0 < q.steps a ↔ 0 < a := by
  rw [lt_steps hz, zero_mul]

theorem steps_le (ha : 0 ≤ a) : q.steps a ≤ a := by
  rw [← not_lt, lt_steps hz]
  nlinarith

theorem mem_python (i : ℤ) : i ∈ q.python len ↔ clamp len (q.lower len) ≤ i ∧
    i < clamp len (q.upper len) ∧ q.stride ∣ i - clamp len (q.lower len) := by
  simp only [python, List.mem_map, List.mem_range, Int.lt_toNat, lt_steps hz]
  constructor
  · rintro ⟨k, hk, rfl⟩
    have hpos : 0 ≤ k * q.stride := by positivity
    exact ⟨by omega, by omega, k, by ring⟩
  · rintro ⟨hlo, hhi, k, hk⟩
    have hpos : 0 ≤ k := nonneg_of_mul_nonneg_right (by omega) hz
    refine ⟨k.toNat, ?_, ?_⟩ <;> rw [Int.toNat_of_nonneg hpos, mul_comm] <;> omega

end

/-! ## The methods -/

section

variable {q} {len}

theorem lower_bounds (q : QSlice) (hlen : 0 ≤ len ∧ len < 2 ^ 31) :
    len - 2 ^ 31 ≤ q.lower len ∧ q.lower len < 2 ^ 31 := by
  unfold lower
  cases q.start with
  | none => simp only [map_none, getD_none]; omega
  | some b =>
    obtain ⟨hmin, hmax⟩ := isInt_toInt b
    simp only [map_some, getD_some, shift]
    omega

/-- The items before one that can be translated can be, too. -/
theorem FitsAt.mono (hz : 0 < q.stride) (hlen : 0 ≤ len ∧ len < 2 ^ 31) {j k : ℕ}
    (h : q.FitsAt len k) (hjk : j ≤ k) : q.FitsAt len j := by
  have hbounds := lower_bounds q hlen
  have hle : (j : ℤ) * q.stride ≤ k * q.stride := by gcongr
  have hpos : 0 ≤ j * q.stride := by positivity
  obtain ⟨hsum, hoffset, hitem⟩ := h
  unfold IsInt at hoffset hitem
  exact ⟨hsum, ⟨by omega, by omega⟩, by omega, by omega⟩

variable (hq : q.initialized = true)
include hq

/-- For an item of the list nothing overflows. -/
theorem selected_eq (hlen : 0 ≤ len ∧ len < 2 ^ 31) {i : ℤ} (hi : i < len) :
    q.selected len i = some (decide (q.lower len ≤ i ∧ i < q.upper len ∧
      q.stride ∣ i - q.lower len)) := by
  have hbounds := lower_bounds q hlen
  rw [selected, if_neg (by simp [hq])]
  by_cases hin : q.lower len ≤ i ∧ i < q.upper len
  · rw [if_pos hin]
    cases hs : q.step with
    | none => simp [stride, hs, hin]
    | some z =>
      have hint : int (i - q.lower len) = some (i - q.lower len) := if_pos ⟨by omega, by omega⟩
      simp [stride, hs, hin, hint, Int.dvd_iff_tmod_eq_zero]
  · rw [if_neg hin, some_inj, eq_comm, decide_eq_false_iff_not]
    exact fun h => hin ⟨h.1, h.2.1⟩

variable (hz : 0 < q.stride)
include hz

theorem translate_eq_some (k : ℕ) (r : ℤ × Bool) : q.translate len k = some r ↔ q.FitsAt len k ∧
    (q.lower len + k * q.stride, decide (k < q.steps (q.span len))) = r := by
  have hk : 0 ≤ k * q.stride := by positivity
  have hdecide (e : ℤ) (he : e - q.lower len = q.span len) :
      decide (q.lower len ≤ q.lower len + k * q.stride ∧ q.lower len + k * q.stride < e) =
        decide (k < q.steps (q.span len)) := by
    rw [decide_eq_decide, lt_steps hz]
    omega
  rw [translate, if_neg (by simp [hq]), if_neg hz.not_ge, FitsAt]
  cases hs : q.stop with
  | none =>
    have hend := hdecide len (by simp [span, hs])
    simp only [isSome_none, Bool.false_eq_true, if_false, bind_eq_bind, bind_some, int_bind_eq_some,
      hend, some_inj, false_imp_iff, true_and, and_assoc]
  | some y =>
    have hend := hdecide (q.lower len + q.upper len) (by simp [span, hs])
    simp only [isSome_some, if_true, bind_eq_bind, int_bind_eq_some, hend, some_inj,
      true_imp_iff, and_assoc]

theorem lengthFor_eq_some (r : ℤ) : q.lengthFor len = some r ↔ q.FitsLength len ∧
    min (max 0 (q.steps (q.upper len - q.lower len))) len = r := by
  rw [lengthFor, if_neg (by simp [hq]), FitsLength, bind_eq_bind, int_bind_eq_some, and_assoc]
  generalize q.upper len - q.lower len = ret
  refine and_congr_right fun hret => ?_
  rw [divided, steps]
  cases hs : q.step with
  | none => simp [stride, hs]
  | some z =>
    have hstride : q.stride = z.toInt := by simp [stride, hs]
    rw [hstride] at hz ⊢
    by_cases hone : 1 < z.toInt
    · have hneg (h : ret + z.toInt - 1 < 0) := Int.ediv_neg_of_neg_of_pos h hz
      have hdiv : max 0 ((ret + z.toInt - 1).tdiv z.toInt) =
          max 0 ((ret + z.toInt - 1) / z.toInt) := by
        rw [Int.tdiv_eq_ediv, Int.sign_eq_one_of_pos hz]
        split <;> omega
      have hpred (h : IsInt (ret + z.toInt)) : IsInt (ret + z.toInt - 1) := by
        unfold IsInt at *
        omega
      simp only [hone, if_true, bind_eq_bind, Option.bind_assoc, int_bind_eq_some, bind_some, hdiv,
        some_inj, true_imp_iff]
      exact ⟨fun h => ⟨h.1, h.2.2⟩, fun h => ⟨h.1, hpred h.1, h.2⟩⟩
    · obtain hone' : z.toInt = 1 := by omega
      simp [hone']

end

/-! ## Agreement -/

section

variable {q} {len} (hq : q.initialized = true) (hz : 0 < q.stride) (hlen : 0 ≤ len ∧ len < 2 ^ 31)
include hq hz hlen

/-- The methods agree if they start at the same item, or have none, and count alike. -/
theorem agree_of_counts (hfits : q.Fits len)
    (hstart : q.lower len = clamp len (q.lower len) ∨ min (q.upper len) len ≤ max 0 (q.lower len))
    (hspan : max 0 (q.steps (q.span len)) = (q.python len).length)
    (hlength : min (max 0 (q.steps (q.upper len - q.lower len))) len = (q.python len).length) :
    q.Agree len := by
  have hn := length_python q len
  have hpos := steps_pos (a := clamp len (q.upper len) - clamp len (q.lower len)) hz
  have hsame (hlt : 0 < (q.python len).length) : q.lower len = clamp len (q.lower len) := by
    unfold clamp at *
    omega
  refine ⟨fun i _ hi => ?_, fun i hi => ?_, fun k hk => ?_, ?_, ?_,
    (lengthFor_eq_some hq hz _).mpr ⟨hfits.1, hlength⟩⟩
  · rw [selected_eq hq hlen hi, some_inj, decide_eq_decide, mem_python hz]
    rcases hstart with h | h
    · rw [← h]
      unfold clamp at *
      omega
    · unfold clamp
      omega
  · obtain ⟨hlo, hhi, -⟩ := (mem_python hz i).mp hi
    unfold clamp at *
    omega
  · rw [(translate_eq_some hq hz k _).mpr ⟨hfits.2.mono hz hlen hk.le, rfl⟩, getElem_python hk]
    simp
    omega
  · rw [(translate_eq_some hq hz _ _).mpr ⟨hfits.2, rfl⟩, map_some, some_inj,
      decide_eq_false_iff_not]
    omega
  · refine pairwise_map.mpr (pairwise_lt_range.imp fun {j k} hjk => ?_)
    have : (j : ℤ) * q.stride < k * q.stride := by gcongr
    omega

omit hlen in
theorem counts_of_agree (h : q.Agree len) : q.Fits len ∧
    (0 < q.span len → q.lower len = clamp len (q.lower len)) ∧
    max 0 (q.steps (q.span len)) = (q.python len).length ∧
    min (max 0 (q.steps (q.upper len - q.lower len))) len = (q.python len).length := by
  obtain ⟨r, hended, hr⟩ := map_eq_some_iff.mp h.ended
  obtain ⟨hfits, rfl⟩ := (translate_eq_some hq hz _ _).mp hended
  obtain ⟨hfits', hlength⟩ := (lengthFor_eq_some hq hz _).mp h.length
  rw [decide_eq_false_iff_not] at hr
  have htaken (k : ℕ) (hk : k < (q.python len).length) :
      q.lower len = clamp len (q.lower len) ∧ k < q.steps (q.span len) := by
    have := h.translated k hk
    rw [getElem_python hk, map_some, translate_eq_some hq hz] at this
    simpa [eq_comm] using this.2
  have hpos := steps_pos (a := q.span len) hz
  refine ⟨⟨hfits', hfits⟩, fun hspan => (htaken 0 (by omega)).1, ?_, hlength⟩
  rcases Nat.eq_zero_or_pos (q.python len).length with h0 | h0
  · omega
  · have := (htaken ((q.python len).length - 1) (by omega)).2
    omega

/-- **The three methods and Python agree** exactly for the regular slices, if nothing overflows. -/
theorem agree_iff : q.Agree len ↔ q.Regular len ∧ q.Fits len := by
  have hn := length_python q len
  have hpos (a : ℤ) := steps_pos (a := a) hz
  have hdiff := hpos (clamp len (q.upper len) - clamp len (q.lower len))
  have hlower := clamp_nonneg len (q.lower len)
  rw [Regular]
  constructor
  · intro h
    obtain ⟨hfits, hstart, hspan, hlength⟩ := counts_of_agree hq hz h
    refine ⟨?_, hfits⟩
    unfold span at hstart hspan
    split_ifs with hstop hle
    · rw [if_pos hstop] at hstart
      omega
    · have := hpos (q.upper len - q.lower len)
      unfold clamp at *
      omega
    · have hE := hpos (q.upper len)
      rw [if_neg hstop] at hstart hspan
      have hsame := hstart (by omega)
      have harg : clamp len (q.upper len) - clamp len (q.lower len) =
          min (q.upper len) len - q.lower len := by
        rw [← hsame]
        unfold clamp
        omega
      rw [harg] at hn hdiff
      omega
  · rintro ⟨h, hfits⟩
    have hagree := agree_of_counts hq hz hlen hfits
    split_ifs at h with hstop
    · have hupper : q.upper len = len := by
        rw [upper, isNone_iff_eq_none.mp hstop, map_none, getD_none]
      have hrest := hpos (len - q.lower len)
      rw [span, if_pos hstop, hupper] at hagree
      rw [hupper] at hn hdiff
      rcases le_total (q.lower len) len with hin | hout
      · have hsame : q.lower len = clamp len (q.lower len) := by
          unfold clamp
          omega
        have hle := steps_le hz (sub_nonneg.mpr hin)
        have hfull : clamp len len = len := by simp [clamp, hlen.1]
        rw [hfull, ← hsame] at hn
        exact hagree (.inl hsame) (by omega) (by omega)
      · have : clamp len (q.lower len) = clamp len len := by simp [clamp, hout]
        exact hagree (.inr (by omega)) (by omega) (by omega)
    · have := hpos (q.upper len)
      have := hpos (q.upper len - q.lower len)
      have : clamp len (q.upper len) = 0 := by
        unfold clamp
        omega
      rw [span, if_neg hstop] at hagree
      exact hagree (.inr (by omega)) (by omega) (by omega)
    · obtain ⟨hstart, hlt, hsteps⟩ := h
      have hsame : q.lower len = clamp len (q.lower len) := by
        unfold clamp
        omega
      have hupper : clamp len (q.upper len) = min (q.upper len) len := by
        unfold clamp
        omega
      have := steps_mono hz (show q.upper len - q.lower len ≤ q.upper len by omega)
      have := steps_mono hz (show min (q.upper len) len - q.lower len ≤
        q.upper len - q.lower len by omega)
      have := steps_le hz (show 0 ≤ min (q.upper len) len - q.lower len by omega)
      rw [span, if_neg hstop] at hagree
      rw [hupper, ← hsame] at hn
      exact hagree (.inl hsame) (by omega) (by omega)

end

theorem agree_iff_odd : (set "[1::2]".toList).1.Agree 5 :=
  (agree_iff (by decide) (by decide) (by decide)).mpr (by decide)

-- The sum of the length and the step overflows, and the methods do not agree.
example : (set "[::2147483647]".toList).1.lengthFor 10 = none := by decide

/-- `[2:5]` selects three items, but `translate` goes on to the seventh. -/
theorem not_agree_end :
    (set "[2:5]".toList).1.initialized = true ∧ ¬ (set "[2:5]".toList).1.Agree 10 :=
  ⟨by decide, fun h => absurd h.ended (by decide)⟩

end QSlice

end Condor.Submit
