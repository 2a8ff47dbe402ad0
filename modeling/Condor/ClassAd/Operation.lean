import Condor.ClassAd.Syntax
import Mathlib.Data.BitVec

/-!
# Values and operations — the model of `Value` and `Operation::_doOperation`

The values of expressions, and what the operators make of them. Floating-point numbers are a
parameter with the operations that the code uses. Ads are known by their addresses.
-/

namespace Condor.ClassAd

/-- The values without parts: `R` is the type of floating-point numbers. -/
inductive Const (R : Type) where
  | undefined
  | error
  | boolean (b : Bool)
  | integer (i : BitVec 64)
  | real (r : R)
  | string (s : Text)
  | absTime (secs : BitVec 64) (offset : BitVec 32)
  | relTime (secs : R)
deriving DecidableEq, Repr

/-- An `ExprTree` in memory. Ads have an address, and lists the scope of their elements. -/
inductive Node (R P : Type) where
  | literal (c : Const R)
  | attrRef (scope : Option (Node R P)) (name : Text) (absolute : Bool)
  | op1 (op : OpKind) (e : Node R P)
  | op2 (op : OpKind) (l r : Node R P)
  | op3 (c : Node R P) (m : Option (Node R P)) (r : Node R P)
  | call (name : Text) (args : List (Node R P))
  | ad (p : P)
  | list (scope : Option P) (es : List (Node R P))

/-- `Value`. A shared list or ad is one that the value owns. -/
inductive Value (R P : Type) where
  | const (c : Const R)
  | list (shared : Bool) (scope : Option P) (es : List (Node R P))
  | ad (shared : Bool) (p : P)

/-- `Value::ValueType`. -/
inductive Kind where
  | undefined
  | error
  | boolean
  | integer
  | real
  | string
  | absTime
  | relTime
  | list
  | slist
  | ad
  | sad
deriving DecidableEq, Repr

/-- The operations on `double` that the evaluator uses. Nothing is assumed of them. -/
structure Doubles (R : Type) where
  ofInt : BitVec 64 → R
  toInt : R → BitVec 32
  neg : R → R
  add : R → R → R
  sub : R → R → R
  mul : R → R → R
  div : R → R → R
  lt : R → R → Bool
  le : R → R → Bool
  eq : R → R → Bool
  nonzero : R → Bool
  huge : R → Bool

section

variable {R P : Type}

/-- `GetType`. -/
def Value.kind : Value R P → Kind
  | .const .undefined => .undefined
  | .const .error => .error
  | .const (.boolean _) => .boolean
  | .const (.integer _) => .integer
  | .const (.real _) => .real
  | .const (.string _) => .string
  | .const (.absTime _ _) => .absTime
  | .const (.relTime _) => .relTime
  | .list false _ _ => .list
  | .list true _ _ => .slist
  | .ad false _ => .ad
  | .ad true _ => .sad

namespace Value

@[match_pattern] def undefined : Value R P := .const .undefined

@[match_pattern] def error : Value R P := .const .error

@[match_pattern] def boolean (b : Bool) : Value R P := .const (.boolean b)

@[match_pattern] def integer (i : BitVec 64) : Value R P := .const (.integer i)

@[match_pattern] def real (r : R) : Value R P := .const (.real r)

@[match_pattern] def relTime (r : R) : Value R P := .const (.relTime r)

@[match_pattern] def absTime (secs : BitVec 64) (offset : BitVec 32) : Value R P :=
  .const (.absTime secs offset)

/-- `IsListValue`. -/
def isList (v : Value R P) : Bool := v.kind = .list || v.kind = .slist

/-- `IsClassAdValue`. -/
def isAd (v : Value R P) : Bool := v.kind = .ad || v.kind = .sad

end Value

variable (D : Doubles R)

/-- `IsBooleanValueEquiv`. -/
def Value.booleanEquiv : Value R P → Option Bool
  | .boolean b => some b
  | .integer i => some (i != 0)
  | .real r => some (D.nonzero r)
  | _ => none

/-! ## Comparisons -/

def Value.promote : Value R P → Value R P
  | .boolean b => .integer (if b then 1 else 0)
  | v => v

/-- `coerceToNumber`: the type of the comparison, and the operands. -/
def coerceToNumber (v1 v2 : Value R P) : Kind × Value R P × Value R P :=
  let either (k : Kind) : Bool := v1.kind = k || v2.kind = k
  if v1.isAd || v2.isAd then (.ad, v1, v2)
  else if v1.isList || v2.isList then (.list, v1, v2)
  else if either .string then (.string, v1, v2)
  else if either .undefined then (.undefined, v1, v2)
  else if either .error then (.error, v1, v2)
  else if either .absTime then (.absTime, v1, v2)
  else if either .relTime then (.relTime, v1, v2)
  else match v1.promote, v2.promote with
    | .integer i, .integer j => (.integer, .integer i, .integer j)
    | .integer i, .real r => (.real, .real (D.ofInt i), .real r)
    | .real r, .integer i => (.real, .real r, .real (D.ofInt i))
    | v1, v2 => (.real, v1, v2)

variable (op : OpKind)

/-- A comparison, from the outcomes of `<`, `<=`, `==`, `>` and `>=`. -/
def compareBy (lt le eq gt ge : Bool) : Value R P :=
  match op with
  | .lessThan => .boolean lt
  | .lessOrEqual => .boolean le
  | .equal | .metaEqual => .boolean eq
  | .notEqual | .metaNotEqual => .boolean !eq
  | .greaterThan => .boolean gt
  | .greaterOrEqual => .boolean ge
  | _ => .error

def compareOrd (o : Ordering) : Value R P :=
  compareBy op o.isLT o.isLE o.isEq o.isGT o.isGE

/-- `strcmp` and `strcasecmp`, which compare bytes. The texts have no NUL, which would end them. -/
def strcmp (a b : Text) : Ordering := compareOfLessAndEq (a.map Char.toNat) (b.map Char.toNat)

def compareStrings (a b : Text) : Value R P :=
  match op with
  | .metaEqual | .metaNotEqual => compareOrd op (strcmp a b)
  | _ => compareOrd op (strcmp (caseFold a) (caseFold b))

def compareIntegers (i j : BitVec 64) : Value R P :=
  compareOrd op (compareOfLessAndEq i.toInt j.toInt)

/-- `compareReals` and `compareRelativeTimes`. -/
def compareReals (r s : R) : Value R P :=
  compareBy op (D.lt r s) (D.le r s) (D.eq r s) (D.lt s r) (D.le s r)

def compareBools (a b : Bool) : Value R P :=
  compareOrd op (compareOfLessAndEq a.toNat b.toNat)

/-- `compareAbsoluteTimes`: only the meta operators look at the offset. -/
def compareAbsoluteTimes (s t : BitVec 64) (o o' : BitVec 32) : Value R P :=
  match op with
  | .metaEqual => .boolean (s == t && o == o')
  | .metaNotEqual => .boolean (s != t || o != o')
  | op => compareIntegers op s t

/-- The comparison when the operands have been coerced to type `k`. -/
def compareAs : Kind → Value R P → Value R P → Value R P
  | .string, .const (.string a), .const (.string b) => compareStrings op a b
  | .integer, .integer i, .integer j => compareIntegers op i j
  | .real, .real r, .real s => compareReals D op r s
  | .boolean, .boolean a, .boolean b => compareBools op a b
  | .absTime, .absTime s o, .absTime t o' => compareAbsoluteTimes op s t o o'
  | .relTime, .relTime r, .relTime s => compareReals D op r s
  | _, _, _ => .error

variable (v1 v2 : Value R P)

/-- `doComparison`. The meta operators compare types before values, without promotion. -/
def doComparison : Value R P :=
  match op with
  | .metaEqual | .metaNotEqual =>
    if v1.kind ≠ v2.kind then .boolean (op = .metaNotEqual)
    else if v1.kind = .undefined ∨ v1.kind = .error then .boolean (op = .metaEqual)
    else compareAs D op v1.kind v1 v2
  | _ =>
    let (k, v1, v2) := coerceToNumber D v1 v2
    compareAs D op k v1 v2

/-! ## Arithmetic -/

def Value.isArithmetic (v : Value R P) : Bool :=
  v.kind ∈ [Kind.integer, .real, .absTime, .relTime, .boolean]

/-- The integer operators. The smallest integer cannot be divided by `-1`. -/
def integerArithmetic (i j : BitVec 64) : Value R P :=
  match op with
  | .addition => .integer (i + j)
  | .subtraction => .integer (i - j)
  | .multiplication => .integer (i * j)
  | .division =>
    if i = BitVec.intMin 64 ∧ j = -1 then .integer (BitVec.intMax 64)
    else if j = 0 then .error else .integer (i.sdiv j)
  | .modulus =>
    if i = BitVec.intMin 64 ∧ j = -1 then .integer 0
    else if j = 0 then .error else .integer (i.srem j)
  | _ => .error

def doRealArithmetic (r s : R) : Value R P :=
  let checked (t : R) : Value R P := if D.huge t then .error else .real t
  match op with
  | .addition => checked (D.add r s)
  | .subtraction => checked (D.sub r s)
  | .multiplication => checked (D.mul r s)
  | .division => checked (D.div r s)
  | _ => .error

def doTimeArithmetic : Value R P :=
  match op, v1, v2 with
  | .addition, .absTime s o, .relTime r => .absTime (s + (D.toInt r).signExtend 64) o
  | .addition, .relTime r, .absTime s o => .absTime (s + (D.toInt r).signExtend 64) o
  | .addition, .relTime r, .relTime r' => .relTime (D.add r r')
  | .subtraction, .absTime s _, .absTime s' _ => .relTime (D.ofInt (s - s'))
  | .subtraction, .absTime s o, .relTime r => .absTime (s - (D.toInt r).signExtend 64) o
  | .subtraction, .relTime r, .relTime r' => .relTime (D.sub r r')
  | .multiplication, .relTime r, .integer i => .relTime (D.mul r (D.ofInt i))
  | .division, .relTime r, .integer i => .relTime (D.div r (D.ofInt i))
  | .multiplication, .relTime r, .real s => .relTime (D.mul r s)
  | .division, .relTime r, .real s => .relTime (D.div r s)
  | .multiplication, .integer i, .relTime r => .relTime (D.mul (D.ofInt i) r)
  | .multiplication, .real s, .relTime r => .relTime (D.mul s r)
  | _, _, _ => .error

def doArithmetic : Value R P :=
  if !v1.isArithmetic || (op ≠ .unaryMinus && !v2.isArithmetic) then .error
  else if op = .unaryMinus then
    match v1 with
    | .integer i => .integer (-i)
    | .real r => .real (D.neg r)
    | .relTime r => .relTime (D.neg r)
    | _ => .error
  else match coerceToNumber D v1 v2 with
    | (.integer, .integer i, .integer j) => integerArithmetic op i j
    | (.real, .real r, .real s) => doRealArithmetic D op r s
    | (_, v1, v2) => doTimeArithmetic D op v1 v2

/-! ## Logic -/

/-- A value that counts as a boolean becomes one. -/
def Value.toBoolean (v : Value R P) : Value R P :=
  match v.booleanEquiv D with
  | some b => .boolean b
  | none => v

/-- The value is undefined, an error or a boolean. -/
def Value.isTruth (v : Value R P) : Bool := v.kind ∈ [Kind.undefined, .error, .boolean]

/-- The two operators on undefined values, errors or booleans; `decided` decides on the left. -/
def logical (decided : Bool) (v1 v2 : Value R P) : Value R P :=
  match v1, v2 with
  | .boolean b, v2 => if b = decided then .boolean decided else v2
  | .error, _ => .error
  | _, .boolean b => if b = decided then .boolean decided else .undefined
  | _, v2 => v2

def doLogical : Value R P :=
  let v1 := v1.toBoolean D
  let v2 := v2.toBoolean D
  if !v1.isTruth then .error
  else if !v2.isTruth then .error
  else match op with
    | .logicalNot =>
      match v1 with
      | .boolean b => .boolean !b
      | v1 => v1
    | .logicalOr => logical true v1 v2
    | .logicalAnd => logical false v1 v2
    | _ => .error

/-! ## Bits -/

def signMask : BitVec 64 := BitVec.intMin 64

/-- A C++ shift to the right. The processor takes the amount modulo 64. -/
def shiftRight (i j : BitVec 64) : BitVec 64 := i.sshiftRight (j.toNat % 64)

/-- `doBitwise` for two integers. -/
def bitwise (i j : BitVec 64) : Value R P :=
  match op with
  | .bitwiseOr => .integer (i ||| j)
  | .bitwiseAnd => .integer (i &&& j)
  | .bitwiseXor => .integer (i ^^^ j)
  | .leftShift => .integer (i <<< (j.toNat % 64))
  | .urightShift =>
    if 0 ≤ i.toInt then .integer (shiftRight i j)
    else .integer (shiftRight (shiftRight i 1 &&& ~~~signMask) (j - 1))
  | .rightShift =>
    if 0 ≤ i.toInt then .integer (shiftRight i j)
    else .integer ((fun v => shiftRight v 1 ||| signMask)^[(min 64 j.toInt).toNat] i)
  | _ => .error

def doBitwise : Value R P :=
  match op, v1, v2 with
  | .bitwiseNot, .integer i, _ => .integer (~~~i)
  | op, .integer i, .integer j => bitwise op i j
  | _, _, _ => .error

/-! ## All operators -/

/-- `IsStrictOperator`, of the operators that are not ternary. -/
def OpKind.isStrict : OpKind → Bool
  | .metaEqual | .metaNotEqual | .logicalAnd | .logicalOr => false
  | _ => true

/-- What a strict operator makes of errors and undefined operands. -/
def strictResult (v1 : Value R P) (v2 : Option (Value R P)) : Option (Value R P) :=
  if v1.kind = .error then some .error
  else if v2.any fun v => v.kind = .error then some .error
  else if v1.kind = .undefined then some .undefined
  else if v2.any fun v => v.kind = .undefined then some .undefined
  else none

/-- The operators on operands that have been checked; a subscript remains to be taken. -/
def applyOperator : Option (Value R P) :=
  match op with
  | .lessThan | .lessOrEqual | .notEqual | .equal | .greaterOrEqual | .greaterThan | .metaEqual
  | .metaNotEqual => some (doComparison D op v1 v2)
  | .unaryMinus | .addition | .subtraction | .multiplication | .division | .modulus =>
    some (doArithmetic D op v1 v2)
  | .logicalNot | .logicalOr | .logicalAnd => some (doLogical D op v1 v2)
  | .bitwiseNot | .bitwiseOr | .bitwiseXor | .bitwiseAnd | .leftShift | .rightShift
  | .urightShift => some (doBitwise op v1 v2)
  | .parentheses => some v1
  | .unaryPlus =>
    if v1.kind ∈ [Kind.boolean, .string, .absTime] ∨ v1.isList ∨ v1.isAd then some .error
    else some v1
  | .subscript => none

/-- `_doOperation` for one or two operands. -/
def doOperation (v1 : Value R P) (v2 : Option (Value R P)) : Option (Value R P) :=
  match op with
  | .parentheses | .unaryPlus => applyOperator D op v1 (v2.getD .undefined)
  | op =>
    match if op.isStrict then strictResult v1 v2 else none with
    | some v => some v
    | none => applyOperator D op v1 (v2.getD .undefined)

/-- `_doOperation` for `v1 ? v2 : v3`, where the middle may be missing. -/
def doTernary (v1 : Value R P) (v2 : Option (Value R P)) (v3 : Value R P) : Value R P :=
  match v2 with
  | none => if v1.kind = .undefined then v3 else v1
  | some v2 =>
    if v1.kind = .undefined then .undefined
    else match v1.booleanEquiv D with
      | none => .error
      | some true => v2
      | some false => v3

end

end Condor.ClassAd
