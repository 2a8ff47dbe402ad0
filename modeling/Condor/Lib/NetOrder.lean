import Mathlib.Data.List.Basic
import Mathlib.Tactic.Ring

/-!
# Numbers in network order

The bytes of a number, the most significant first, and the number that bytes stand for.
-/

namespace Condor

open List Nat

abbrev Byte := BitVec 8

namespace NetOrder

/-- The last `n` bytes of a number. -/
def toNet : ℕ → ℕ → List Byte
  | 0, _ => []
  | n + 1, v => BitVec.ofNat 8 (v / 256 ^ n) :: toNet n v

def ofNet (bs : List Byte) : ℕ := bs.foldl (fun acc b => acc * 256 + b.toNat) 0

@[simp] theorem length_toNet (n v : ℕ) : (toNet n v).length = n := by
  induction n with
  | zero => rfl
  | succ n ih => rw [toNet, length_cons, ih]

theorem foldl_net (acc : ℕ) (bs : List Byte) :
    bs.foldl (fun acc b => acc * 256 + b.toNat) acc = acc * 256 ^ bs.length + ofNet bs := by
  induction bs generalizing acc with
  | nil => simp [ofNet]
  | cons b bs ih =>
    rw [ofNet, foldl_cons, foldl_cons, ih, ih, length_cons]
    ring

theorem ofNet_cons (b : Byte) (bs : List Byte) :
    ofNet (b :: bs) = b.toNat * 256 ^ bs.length + ofNet bs := by
  rw [ofNet, foldl_cons, foldl_net]
  ring

theorem ofNet_append (as bs : List Byte) :
    ofNet (as ++ bs) = ofNet as * 256 ^ bs.length + ofNet bs := by
  rw [ofNet, foldl_append, foldl_net]
  rfl

/-- **The bytes of a number stand for it**, as far as they go. -/
theorem ofNet_toNet (n v : ℕ) : ofNet (toNet n v) = v % 256 ^ n := by
  induction n with
  | zero => simp [toNet, ofNet, mod_one]
  | succ n ih =>
    have hmod : v % (256 ^ n * 256) = v % 256 ^ n + 256 ^ n * (v / 256 ^ n % 256) := mod_mul
    rw [toNet, ofNet_cons, ih, length_toNet, BitVec.toNat_ofNat, pow_succ 256, hmod]
    exact (add_comm _ _).trans (congrArg _ (mul_comm _ _))

theorem ofNat_ofNet_toNet {k : ℕ} (v : BitVec (8 * k)) :
    BitVec.ofNat (8 * k) (ofNet (toNet k v.toNat)) = v := by
  have hlt : v.toNat < 256 ^ k := by
    rw [show 256 ^ k = 2 ^ (8 * k) by rw [Nat.pow_mul]]
    exact v.isLt
  rw [ofNet_toNet, Nat.mod_eq_of_lt hlt, BitVec.ofNat_toNat, BitVec.setWidth_eq]

theorem ofNet_zeros (n : ℕ) : ofNet (replicate n 0) = 0 := by
  induction n with
  | zero => rfl
  | succ n ih =>
    rw [replicate_succ, ofNet_cons, ih]
    simp

theorem ofNet_take_le (n v k : ℕ) :
    ofNet ((toNet n v).take k ++ replicate (n - k) 0) ≤ v % 256 ^ n := by
  have hlen : ((toNet n v).drop k).length = n - k := by simp
  rw [← ofNet_toNet, ofNet_append, ofNet_zeros, length_replicate, add_zero]
  conv_rhs => rw [← take_append_drop k (toNet n v), ofNet_append, hlen]
  exact le_add_right _ _

theorem toNet_add (m n v : ℕ) : toNet (m + n) v = toNet m (v / 256 ^ n) ++ toNet n v := by
  induction m with
  | zero => simp [toNet]
  | succ m ih =>
    rw [Nat.succ_add, toNet, ih, toNet, cons_append, Nat.div_div_eq_div_mul, ← Nat.pow_add,
      Nat.add_comm n m]

theorem toNet_add_mul (n a v : ℕ) : toNet n (v + a * 256 ^ n) = toNet n v := by
  induction n generalizing a with
  | zero => rfl
  | succ n ih =>
    have hpow : a * 256 ^ (n + 1) = a * 256 * 256 ^ n := by ring
    have hbyte : BitVec.ofNat 8 (v / 256 ^ n + a * 256) = BitVec.ofNat 8 (v / 256 ^ n) := by
      apply BitVec.eq_of_toNat_eq
      simp
    rw [toNet, toNet, hpow, Nat.add_mul_div_right _ _ (Nat.pow_pos (by decide)), hbyte, ih]

theorem toNet_mod (n v : ℕ) : toNet n (v % 256 ^ n) = toNet n v := by
  rw [← toNet_add_mul n (v / 256 ^ n) (v % 256 ^ n), mul_comm, mod_add_div]

theorem toNet_inj {n v w : ℕ} (hv : v < 256 ^ n) (hw : w < 256 ^ n) (h : toNet n v = toNet n w) :
    v = w := by
  rw [← mod_eq_of_lt hv, ← mod_eq_of_lt hw, ← ofNet_toNet, ← ofNet_toNet, h]

end NetOrder

end Condor
