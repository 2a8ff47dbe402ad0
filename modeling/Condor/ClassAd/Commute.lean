import Condor.ClassAd.Operation

/-!
# Operators that commute

The type of a comparison or of arithmetic is found by a chain of tests on both operands, in which
neither of them comes first, and then the operands are coerced to it. Equality and the operators
`+`, `*`, `|`, `^` and `&` have the same value with their operands exchanged, if that is so for
floating-point numbers.

* **`doOperation_comm`**.
-/

namespace Condor.ClassAd

open List

variable {R P : Type} {D : Doubles R} {op : OpKind} (v w : Value R P)

/-- Addition, multiplication and equality of floating-point numbers commute. -/
structure Doubles.Commutes (D : Doubles R) : Prop where
  add : ∀ r s, D.add r s = D.add s r
  mul : ∀ r s, D.mul r s = D.mul s r
  eq : ∀ r s, D.eq r s = D.eq s r

def equalities : List OpKind := [.equal, .notEqual, .metaEqual, .metaNotEqual]

def commutative : List OpKind :=
  [.addition, .multiplication, .bitwiseOr, .bitwiseXor, .bitwiseAnd] ++ equalities

/-! ## Before the operation -/

theorem strictResult_swap : strictResult v (some w) = strictResult w (some v) := by
  unfold strictResult
  simp only [Option.any_some, decide_eq_true_eq]
  split_ifs <;> rfl

theorem coerceToNumber_swap :
    coerceToNumber D w v = ((coerceToNumber D v w).1, (coerceToNumber D v w).2.2,
      (coerceToNumber D v w).2.1) := by
  rcases v with (_ | _ | _ | _ | _ | _ | _ | _) | ⟨_ | _, _, _⟩ | ⟨_ | _, _⟩ <;>
    rcases w with (_ | _ | _ | _ | _ | _ | _ | _) | ⟨_ | _, _, _⟩ | ⟨_ | _, _⟩ <;> rfl

/-! ## Comparisons -/

theorem isEq_compare {A : Type} [LT A] [DecidableLT A] [DecidableEq A] (hirrefl : ∀ a : A, ¬ a < a)
    (a b : A) :
    (compareOfLessAndEq a b).isEq = decide (a = b) := by
  unfold compareOfLessAndEq
  split_ifs with hlt heq
  · have hne : a ≠ b := fun h => hirrefl b (by rwa [h] at hlt)
    simp [hne]
  · simp [heq]
  · simp [heq]

section

variable (hop : op ∈ equalities)
include hop

theorem compareBy_equality {lt le eq gt ge lt' le' gt' ge' : Bool} :
    compareBy op lt le eq gt ge = (compareBy op lt' le' eq gt' ge' : Value R P) := by
  simp only [equalities, mem_cons, not_mem_nil, or_false] at hop
  rcases hop with rfl | rfl | rfl | rfl <;> rfl

theorem compareOrd_swap {A : Type} [LT A] [DecidableLT A] [DecidableEq A]
    (hirrefl : ∀ a : A, ¬ a < a) (a b : A) :
    compareOrd op (compareOfLessAndEq a b) =
      (compareOrd op (compareOfLessAndEq b a) : Value R P) := by
  unfold compareOrd
  rw [isEq_compare hirrefl, isEq_compare hirrefl]
  simp only [eq_comm]
  exact compareBy_equality hop

theorem compareIntegers_swap (i j : BitVec 64) :
    compareIntegers op i j = (compareIntegers op j i : Value R P) :=
  compareOrd_swap hop Int.lt_irrefl _ _

theorem compareReals_swap (hD : D.Commutes) (r s : R) :
    compareReals D op r s = (compareReals D op s r : Value R P) := by
  unfold compareReals
  rw [hD.eq r s]
  exact compareBy_equality hop

theorem compareStrings_swap (a b : Text) :
    compareStrings op a b = (compareStrings op b a : Value R P) := by
  have hcmp : ∀ a b, compareOrd op (strcmp a b) = (compareOrd op (strcmp b a) : Value R P) :=
    fun a b => compareOrd_swap hop lt_irrefl _ _
  unfold compareStrings
  split
  · exact hcmp a b
  · exact hcmp a b
  · exact hcmp _ _

theorem compareAbsoluteTimes_swap (s t : BitVec 64) (o o' : BitVec 32) :
    compareAbsoluteTimes op s t o o' = (compareAbsoluteTimes op t s o' o : Value R P) := by
  unfold compareAbsoluteTimes
  split
  · rw [BEq.comm, BEq.comm (a := o)]
  · rw [bne_comm, bne_comm (a := o)]
  · exact compareIntegers_swap hop _ _

theorem compareAs_swap (hD : D.Commutes) (k : Kind) :
    compareAs D op k v w = compareAs D op k w v := by
  unfold compareAs
  split
  · exact compareStrings_swap hop _ _
  · exact compareIntegers_swap hop _ _
  · exact compareReals_swap hop hD _ _
  · exact compareOrd_swap hop Nat.lt_irrefl _ _
  · exact compareAbsoluteTimes_swap hop _ _ _ _
  · exact compareReals_swap hop hD _ _
  · -- no other pair of operands is compared, in either order
    split <;> grind

theorem doComparison_swap (hD : D.Commutes) : doComparison D op v w = doComparison D op w v := by
  unfold doComparison
  split
  case h_3 =>
    rw [coerceToNumber_swap v w]
    exact compareAs_swap _ _ hop hD _
  all_goals
    by_cases hkind : v.kind = w.kind
    · simp only [hkind]
      rw [compareAs_swap v w hop hD]
    · simp [hkind, Ne.symm hkind]

end

/-! ## Arithmetic and bits -/

def arithmeticAs (D : Doubles R) (op : OpKind) : Kind × Value R P × Value R P → Value R P
  | (.integer, .integer i, .integer j) => integerArithmetic op i j
  | (.real, .real r, .real s) => doRealArithmetic D op r s
  | (_, v1, v2) => doTimeArithmetic D op v1 v2

section

variable (hD : D.Commutes) (hop : op = .addition ∨ op = .multiplication)
include hD hop

theorem doTimeArithmetic_swap : doTimeArithmetic D op v w = doTimeArithmetic D op w v := by
  rcases v with (_ | _ | _ | _ | _ | _ | _ | _) | _ | _ <;>
    rcases w with (_ | _ | _ | _ | _ | _ | _ | _) | _ | _ <;>
    rcases hop with rfl | rfl <;>
    first
      | rfl
      | exact congrArg Value.relTime (hD.add _ _)
      | exact congrArg Value.relTime (hD.mul _ _)

omit hD in
theorem integerArithmetic_swap (i j : BitVec 64) :
    integerArithmetic op i j = (integerArithmetic op j i : Value R P) := by
  rcases hop with rfl | rfl
  · exact congrArg Value.integer (BitVec.add_comm i j)
  · exact congrArg Value.integer (BitVec.mul_comm i j)

theorem doRealArithmetic_swap (r s : R) :
    doRealArithmetic D op r s = (doRealArithmetic D op s r : Value R P) := by
  rcases hop with rfl | rfl
  · simp [doRealArithmetic, hD.add r s]
  · simp [doRealArithmetic, hD.mul r s]

theorem arithmeticAs_swap (k : Kind) :
    arithmeticAs D op (k, v, w) = arithmeticAs D op (k, w, v) := by
  unfold arithmeticAs
  split
  · rename_i heq
    obtain ⟨rfl, rfl, rfl⟩ := by simpa using heq
    exact integerArithmetic_swap hop _ _
  · rename_i heq
    obtain ⟨rfl, rfl, rfl⟩ := by simpa using heq
    exact doRealArithmetic_swap hD hop _ _
  · rename_i heq
    obtain ⟨rfl, rfl, rfl⟩ := by simpa using heq
    split
    · grind
    · grind
    · rename_i heq'
      obtain ⟨rfl, rfl, rfl⟩ := by simpa using heq'
      exact doTimeArithmetic_swap _ _ hD hop

theorem doArithmetic_swap : doArithmetic D op v w = doArithmetic D op w v := by
  have hbinary : op ≠ .unaryMinus := by rcases hop with rfl | rfl <;> decide
  unfold doArithmetic
  simp only [hbinary, ne_eq, not_false_eq_true, decide_true, Bool.true_and,
    Bool.or_comm (!w.isArithmetic)]
  split
  · rfl
  · change arithmeticAs D op (coerceToNumber D v w) = arithmeticAs D op (coerceToNumber D w v)
    rw [coerceToNumber_swap v w]
    exact arithmeticAs_swap _ _ hD hop _

end

theorem doBitwise_swap (hop : op ∈ [OpKind.bitwiseOr, .bitwiseXor, .bitwiseAnd]) :
    doBitwise op v w = doBitwise op w v := by
  simp only [mem_cons, not_mem_nil, or_false] at hop
  rcases v with (_ | _ | _ | _ | _ | _ | _ | _) | _ | _ <;>
    rcases w with (_ | _ | _ | _ | _ | _ | _ | _) | _ | _ <;>
    rcases hop with rfl | rfl | rfl <;>
    first
      | rfl
      | exact congrArg Value.integer (BitVec.or_comm _ _)
      | exact congrArg Value.integer (BitVec.xor_comm _ _)
      | exact congrArg Value.integer (BitVec.and_comm _ _)

/-! ## All operators -/

theorem applyOperator_swap (hD : D.Commutes) (hop : op ∈ commutative) :
    applyOperator D op v w = applyOperator D op w v := by
  rcases mem_append.mp hop with h | heq
  · simp only [mem_cons, not_mem_nil, or_false] at h
    rcases h with rfl | rfl | rfl | rfl | rfl
    · exact congrArg some (doArithmetic_swap v w hD (.inl rfl))
    · exact congrArg some (doArithmetic_swap v w hD (.inr rfl))
    all_goals exact congrArg some (doBitwise_swap v w (by decide))
  · have hcompare : ∀ x y : Value R P, applyOperator D op x y = some (doComparison D op x y) :=
      fun x y => by
      simp only [equalities, mem_cons, not_mem_nil, or_false] at heq
      rcases heq with rfl | rfl | rfl | rfl <;> rfl
    rw [hcompare, hcompare, doComparison_swap v w heq hD]

theorem doOperation_eq (h1 : op ≠ .parentheses) (h2 : op ≠ .unaryPlus) :
    doOperation D op v (some w) =
      (if op.isStrict then strictResult v (some w) else none).or (applyOperator D op v w) := by
  unfold doOperation
  split
  · contradiction
  · contradiction
  · generalize (if op.isStrict then strictResult v (some w) else none) = r
    cases r <;> rfl

/-- **Commutative operators commute** on all pairs of values. -/
theorem doOperation_comm (D : Doubles R) (hD : D.Commutes) (op : OpKind) (hop : op ∈ commutative)
    (v w : Value R P) :
    doOperation D op v (some w) = doOperation D op w (some v) := by
  have h₁ : op ≠ .parentheses := fun h => absurd (h ▸ hop) (by decide)
  have h₂ : op ≠ .unaryPlus := fun h => absurd (h ▸ hop) (by decide)
  rw [doOperation_eq v w h₁ h₂, doOperation_eq w v h₁ h₂, strictResult_swap v w,
    applyOperator_swap v w hD hop]

def Doubles.integers : Doubles ℤ where
  ofInt := BitVec.toInt
  toInt := BitVec.ofInt 32
  neg r := -r
  add := (· + ·)
  sub := (· - ·)
  mul := (· * ·)
  div := (· / ·)
  lt r s := decide (r < s)
  le r s := decide (r ≤ s)
  eq r s := decide (r = s)
  nonzero r := decide (r ≠ 0)
  huge _ := false

theorem doOperation_comm_times :
    doOperation (P := Unit) .integers .multiplication (.real 3) (some (.relTime 5)) =
      doOperation .integers .multiplication (.relTime 5) (some (.real 3)) :=
  doOperation_comm _ ⟨Int.add_comm, Int.mul_comm, fun r s => decide_eq_decide.mpr eq_comm⟩ _
    (by decide) _ _

end Condor.ClassAd
