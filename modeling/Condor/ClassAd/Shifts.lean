import Condor.ClassAd.Operation

/-!
# Shifts

`doBitwise` shifts by amounts that come from the second operand. A shift by an amount outside of
`0..63` is undefined in C++. The operators `>>` and `>>>` work around shifts of negative numbers:
the one shifts by one as often as it has to, and the other shifts by one, clears the sign and shifts
by what is left.

* **`shifts_iff`**.
-/

namespace Condor.ClassAd

open List

variable {R P : Type} {a b v : BitVec 64}

/-- A number in the course of `doBitwise`, and the amounts by which it has been shifted. -/
structure Shifted where
  value : BitVec 64
  amounts : List ℤ := []

namespace Shifted

def left (s : Shifted) (j : BitVec 64) : Shifted :=
  ⟨s.value <<< (j.toNat % 64), s.amounts ++ [j.toInt]⟩

def right (s : Shifted) (j : BitVec 64) : Shifted := ⟨shiftRight s.value j, s.amounts ++ [j.toInt]⟩

def map (f : BitVec 64 → BitVec 64) (s : Shifted) : Shifted := ⟨f s.value, s.amounts⟩

end Shifted

def shifted (op : OpKind) (i j : BitVec 64) : Shifted :=
  match op with
  | .leftShift => Shifted.left ⟨i, []⟩ j
  | .urightShift =>
    if 0 ≤ i.toInt then Shifted.right ⟨i, []⟩ j
    else ((Shifted.right ⟨i, []⟩ 1).map (· &&& ~~~signMask)).right (j - 1)
  | .rightShift =>
    if 0 ≤ i.toInt then Shifted.right ⟨i, []⟩ j
    else (fun s => (s.right 1).map (· ||| signMask))^[(min 64 j.toInt).toNat] ⟨i, []⟩
  | _ => ⟨i, []⟩

def shiftOps : List OpKind := [.leftShift, .rightShift, .urightShift]

def Shifted.Defined (s : Shifted) : Prop := ∀ n ∈ s.amounts, 0 ≤ n ∧ n ≤ 63

/-! ## The operators with and without amounts -/

theorem iterate_value (n : ℕ) (s : Shifted) :
    ((fun s : Shifted => (s.right 1).map (· ||| signMask))^[n] s).value =
      (fun v => shiftRight v 1 ||| signMask)^[n] s.value := by
  induction n generalizing s with
  | zero => rfl
  | succ n ih => rw [Function.iterate_succ_apply, ih]; rfl

theorem iterate_amounts (n : ℕ) (s : Shifted) :
    ((fun s : Shifted => (s.right 1).map (· ||| signMask))^[n] s).amounts =
      s.amounts ++ replicate n 1 := by
  induction n generalizing s with
  | zero => simp
  | succ n ih =>
    rw [Function.iterate_succ_apply, ih, replicate_succ]
    simp [Shifted.right, Shifted.map]

theorem shifted_rightShift_eq :
    shifted .rightShift a b = if 0 ≤ a.toInt then Shifted.right ⟨a, []⟩ b
    else (fun s => (s.right 1).map (· ||| signMask))^[(min 64 b.toInt).toNat] ⟨a, []⟩ := rfl

theorem shifted_urightShift_eq :
    shifted .urightShift a b = if 0 ≤ a.toInt then Shifted.right ⟨a, []⟩ b
    else ((Shifted.right ⟨a, []⟩ 1).map (· &&& ~~~signMask)).right (b - 1) := rfl

theorem doOperation_shift (D : Doubles R) {op : OpKind} (hop : op ∈ shiftOps) (a b : BitVec 64) :
    doOperation D op (.integer a : Value R P) (some (.integer b)) =
      some (.integer (shifted op a b).value) := by
  simp only [shiftOps, mem_cons, not_mem_nil, or_false] at hop
  rcases hop with rfl | rfl | rfl
  · rfl
  · change some (if 0 ≤ a.toInt then _ else _) = _
    rw [shifted_rightShift_eq]
    split
    · rfl
    · rw [iterate_value]
  · change some (if 0 ≤ a.toInt then _ else _) = _
    rw [shifted_urightShift_eq]
    split <;> rfl

/-! ## What is computed -/

theorem toNat_of_toInt (h : 0 ≤ b.toInt) (h' : b.toInt ≤ 63) :
    b.toInt = b.toNat ∧ b.toNat ≤ 63 := by
  have hcond := BitVec.toInt_eq_toNat_cond b
  split at hcond <;> omega

theorem toInt_shiftRight (hb : b.toNat ≤ 63) : (shiftRight a b).toInt = a.toInt / 2 ^ b.toNat := by
  rw [shiftRight, BitVec.toInt_sshiftRight, Nat.mod_eq_of_lt (by omega), Int.shiftRight_eq_div_pow]
  norm_cast

theorem msb_of_neg (ha : a.toInt < 0) : a.msb = true := by
  rw [BitVec.msb_eq_toInt]
  simpa using ha

theorem toInt_step (hv : v.toInt < 0) : (shiftRight v 1 ||| signMask).toInt = v.toInt / 2 := by
  have hmsb : (shiftRight v 1).msb = true := by
    rw [shiftRight, BitVec.msb_sshiftRight]
    exact msb_of_neg hv
  have hor : shiftRight v 1 ||| signMask = shiftRight v 1 := by
    refine BitVec.eq_of_getLsbD_eq fun i hi => ?_
    rw [BitVec.getLsbD_or, signMask, BitVec.getLsbD_intMin]
    by_cases h : i = 63
    · subst h
      rw [BitVec.msb_eq_getLsbD_last] at hmsb
      rw [hmsb, Bool.true_or]
    · rw [decide_eq_false (by omega), Bool.or_false]
  rw [hor, toInt_shiftRight (by decide)]
  rfl

theorem toInt_loop (n : ℕ) (hv : v.toInt < 0) :
    ((fun v => shiftRight v 1 ||| signMask)^[n] v).toInt = v.toInt / 2 ^ n := by
  induction n generalizing v with
  | zero => simp
  | succ n ih =>
    have hstep := toInt_step hv
    rw [Function.iterate_succ_apply, ih (by rw [hstep]; omega), hstep,
      Int.ediv_ediv_of_nonneg (by decide), pow_succ, mul_comm]

/-- **`>>`** is the quotient by a power of two, rounded down. -/
theorem shifted_rightShift (h : 0 ≤ b.toInt) (h' : b.toInt ≤ 63) :
    (shifted .rightShift a b).value.toInt = a.toInt / 2 ^ b.toNat := by
  obtain ⟨heq, hle⟩ := toNat_of_toInt h h'
  rw [shifted_rightShift_eq]
  split
  · exact toInt_shiftRight hle
  · rename_i ha
    have hcount : (min 64 b.toInt).toNat = b.toNat := by omega
    rw [iterate_value, toInt_loop _ (Int.not_le.mp ha), hcount]

theorem clear_sign : shiftRight a 1 &&& ~~~signMask = a >>> 1 := by
  refine BitVec.eq_of_getLsbD_eq fun i hi => ?_
  rw [BitVec.getLsbD_and, BitVec.getLsbD_not, signMask, BitVec.getLsbD_intMin, shiftRight,
    BitVec.getLsbD_sshiftRight]
  change ((!decide (64 ≤ i) && if 1 + i < 64 then a.getLsbD (1 + i) else a.msb) && _) = _
  by_cases h : i = 63
  · subst h
    simp
  · rw [if_pos (by omega), decide_eq_false (by omega), decide_eq_true hi,
      decide_eq_false (by omega)]
    simp

theorem toNat_shiftRight_of_nonneg (ha : 0 ≤ a.toInt) (hb : b.toNat ≤ 63) :
    (shiftRight a b).toNat = a.toNat / 2 ^ b.toNat := by
  have hmsb : a.msb = false := by
    rw [BitVec.msb_eq_toInt]
    simpa using ha
  rw [shiftRight, Nat.mod_eq_of_lt (by omega), BitVec.sshiftRight_eq_of_msb_false hmsb,
    BitVec.toNat_ushiftRight, Nat.shiftRight_eq_div_pow]

/-- **`>>>`** is the quotient of the number without sign, unless a negative one is shifted by
nothing. -/
theorem shifted_urightShift (h : 0 ≤ b.toInt) (h' : b.toInt ≤ 63) (h0 : a.toInt < 0 → b.toInt ≠ 0) :
    (shifted .urightShift a b).value.toNat = a.toNat / 2 ^ b.toNat := by
  obtain ⟨heq, hle⟩ := toNat_of_toInt h h'
  rw [shifted_urightShift_eq]
  split
  · rename_i ha
    exact toNat_shiftRight_of_nonneg ha hle
  · rename_i ha
    have hb : 1 ≤ b.toNat := by
      omega
    have hpred : (b - 1).toNat = b.toNat - 1 := by
      rw [BitVec.toNat_sub_of_le (by rw [BitVec.le_def]; exact hb)]
      rfl
    have hnonneg : 0 ≤ (a >>> 1).toInt := by
      rw [BitVec.toInt_ushiftRight_of_lt (by decide)]
      exact Int.natCast_nonneg _
    change (shiftRight (shiftRight a 1 &&& ~~~signMask) (b - 1)).toNat = _
    rw [clear_sign, toNat_shiftRight_of_nonneg hnonneg (by omega), BitVec.toNat_ushiftRight,
      Nat.shiftRight_eq_div_pow, Nat.div_div_eq_div_mul, ← pow_add]
    congr 2
    omega

/-! ## When the shifts are defined -/

theorem defined_leftShift : (shifted .leftShift a b).Defined ↔ 0 ≤ b.toInt ∧ b.toInt ≤ 63 := by
  simp [Shifted.Defined, shifted, Shifted.left]

theorem defined_rightShift (h : 0 ≤ b.toInt) (h' : b.toInt ≤ 63) :
    (shifted .rightShift a b).Defined := by
  rw [shifted_rightShift_eq, Shifted.Defined]
  split
  · simpa [Shifted.right] using ⟨h, h'⟩
  · intro n hn
    rw [iterate_amounts] at hn
    rw [eq_of_mem_replicate hn]
    decide

theorem defined_urightShift (h : 0 ≤ b.toInt) (h' : b.toInt ≤ 63) :
    (shifted .urightShift a b).Defined ↔ (a.toInt < 0 → b.toInt ≠ 0) := by
  rw [shifted_urightShift_eq, Shifted.Defined]
  split
  · rename_i ha
    refine iff_of_true ?_ fun hneg => absurd hneg (Int.not_lt.mpr ha)
    simpa [Shifted.right] using ⟨h, h'⟩
  · rename_i ha
    have hone : (1 : BitVec 64).toInt = 1 := rfl
    have hpred : (b - 1).toInt = b.toInt - 1 := by
      rw [BitVec.toInt_sub]
      exact Int.bmod_eq_of_le (by omega) (by omega)
    change (∀ n ∈ [(1 : BitVec 64).toInt, (b - 1).toInt], 0 ≤ n ∧ n ≤ 63) ↔ _
    simp only [mem_cons, not_mem_nil, or_false, forall_eq_or_imp, forall_eq]
    omega

/-- **Shifts are total and mean shifts** only by 0 to 63, and not by 0 for a negative number. -/
theorem shifts_iff (D : Doubles R) (a b : BitVec 64) :
    ((∀ op ∈ shiftOps, (shifted op a b).Defined) ∧ (0 ≤ b.toInt → b.toInt ≤ 63 → ∃ q r : BitVec 64,
        doOperation D .rightShift (.integer a : Value R P) (some (.integer b)) = some (.integer q) ∧
        q.toInt = a.toInt / 2 ^ b.toNat ∧
        doOperation D .urightShift (.integer a : Value R P) (some (.integer b)) =
        some (.integer r) ∧ r.toNat = a.toNat / 2 ^ b.toNat)) ↔
      0 ≤ b.toInt ∧ b.toInt ≤ 63 ∧ (a.toInt < 0 → b.toInt ≠ 0) := by
  have hops : (∀ op ∈ shiftOps, (shifted op a b).Defined) ↔ (shifted .leftShift a b).Defined ∧
      (shifted .rightShift a b).Defined ∧ (shifted .urightShift a b).Defined := by
    simp [shiftOps]
  rw [hops, defined_leftShift]
  constructor
  · rintro ⟨⟨⟨h, h'⟩, -, hu⟩, -⟩
    exact ⟨h, h', (defined_urightShift h h').mp hu⟩
  · rintro ⟨h, h', h₀⟩
    refine ⟨⟨⟨h, h'⟩, defined_rightShift h h', (defined_urightShift h h').mpr h₀⟩, fun _ _ => ?_⟩
    exact ⟨_, _, doOperation_shift D (by decide) a b, shifted_rightShift h h',
      doOperation_shift D (by decide) a b, shifted_urightShift h h' h₀⟩

/-- `-1 >>> 0` shifts by `-1`; the processor makes this a shift by 63. -/
theorem shift_of_negative_by_zero :
    (shifted .urightShift (-1) 0).amounts = [1, -1] ∧ ¬ (shifted .urightShift (-1) 0).Defined ∧
      (shifted .urightShift (-1) 0).value = 0 := by
  have hamounts : (shifted .urightShift (-1) 0).amounts = [1, -1] := by decide
  refine ⟨hamounts, fun h => ?_, by decide⟩
  have := h (-1) (by rw [hamounts]; decide)
  omega

end Condor.ClassAd
