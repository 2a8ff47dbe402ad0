import Condor.ClassAd.Eval

/-!
# Flattening — the model of `ExprTree::Flatten`

An expression is evaluated as far as its attributes are known. It becomes a value or a tree; the
operands of an operator that is associative and commutative may also become an operator with a value
and a tree, from which `combine` gathers the values. With `inline` the trees of attributes take the
place of the references to them, as in `FlattenAndInline`.

Every call of `Flatten` is recorded with the states before and after it.
-/

namespace Condor.ClassAd

open Traced

/-- The trees that are made: copies of parts of the expression, and new nodes. -/
inductive Flattened (R P : Type) where
  | copy (t : Node R P)
  | attrRef (scope : Flattened R P) (name : Text)
  | op1 (op : OpKind) (e : Flattened R P)
  | op2 (op : OpKind) (l r : Flattened R P)
  | op3 (c : Flattened R P) (m : Option (Flattened R P)) (r : Flattened R P)
  | call (name : Text) (args : List (Flattened R P))
  | list (es : List (Flattened R P))
  | ad (attrs : List (Text × Flattened R P))

/-- The outcome of `Flatten`: a value, a tree, or an operator with a value and a tree. -/
inductive Flat (R P : Type) where
  | value (v : Value R P)
  | tree (t : Flattened R P)
  | split (op : OpKind) (v : Value R P) (t : Flattened R P)

/-- A call of `Flatten`, with the fuel for its parts. -/
structure FlattenCall (R P : Type) where
  fuel : ℕ
  tree : Node R P
  before : EvalState P
  outcome : Except (Value R P) (Flat R P)
  after : EvalState P

/-- A computation of `Flatten`. What it leaves in the value when it fails is not looked at. -/
abbrev Flattening (R P α : Type) : Type := Traced (EvalState P) (Value R P) (FlattenCall R P) α

variable {R P : Type}

def Flat.tree? : Flat R P → Option (Flattened R P)
  | .value _ => none
  | .tree t | .split _ _ t => some t

/-- `Literal::MakeLiteral`. There are no literals for lists and ads. -/
def makeLiteral : Value R P → Option (Flattened R P)
  | .const c => some (.copy (.literal c))
  | .list _ _ _ | .ad _ _ => none

def Flat.toTree : Flat R P → Option (Flattened R P)
  | .value v => makeLiteral v
  | .tree t | .split _ _ t => some t

def orFail {α : Type} : Option α → Flattening R P α
  | some a => pure a
  | none => fail .error

/-! ## Operators -/

/-- `op` is not associative or not commutative, and is not split. -/
def OpKind.isFixed : OpKind → Bool
  | .lessThan | .lessOrEqual | .notEqual | .equal | .greaterOrEqual | .greaterThan | .metaEqual
  | .metaNotEqual | .subtraction | .division | .modulus | .leftShift | .rightShift | .urightShift =>
    true
  | _ => false

variable (D : Doubles R)

/-- `_doOperation` for operators other than the subscript. -/
def opValue (op : OpKind) (v1 : Value R P) (v2 : Option (Value R P)) : Value R P :=
  (doOperation D op v1 v2).getD .error

def makeOperation (op : OpKind) (v : Value R P) (t : Flattened R P) : Option (Flattened R P) :=
  (makeLiteral v).map fun l => .op2 op l t

def Flat.toOperand : Flat R P → Option (Flattened R P)
  | .value v => makeLiteral v
  | .tree t => some t
  | .split op v t => makeOperation op v t

/-- A logical operator with the value `v` on one side only: `decided` is its value without the other
side. -/
def dontCare (op : OpKind) (v decided : Value R P) (t : Flattened R P) : Option (Flat R P) :=
  if op = .logicalOr ∨ op = .logicalAnd then
    match decided, op, v with
    | .boolean b, _, _ => some (.value (.boolean b))
    | _, .logicalAnd, .boolean true => some (.tree t)
    | _, _, _ => none
  else none

/-- The special cases of `combine` for logical operators. -/
def combineLogical (op : OpKind) : Flat R P → Flat R P → Option (Flat R P)
  | .value v, .tree t | .value v, .split _ _ t =>
    dontCare op v (opValue D op v (some .undefined)) t
  | .tree t, .value v | .split _ _ t, .value v =>
    dontCare op v (opValue D op .undefined (some v)) t
  | _, _ => none

/-- The part of `combine` where an operand is split. -/
def combineSplit (op : OpKind) (a b : Flat R P) : Option (Flat R P) :=
  match a, b with
  | .split op₁ v1 t1, .split op₂ v2 t2 =>
    if op ≠ op₁ ∧ op ≠ op₂ then do
      let l ← makeOperation op₁ v1 t1
      let r ← makeOperation op₂ v2 t2
      pure (.tree (.op2 op l r))
    else if op = op₁ ∧ op = op₂ then some (.split op (opValue D op v1 (some v2)) (.op2 op t1 t2))
    else if op = op₁ then some (.split op v1 (.op2 op t1 t2))
    else some (.split op v2 (.op2 op t1 t2))
  | .split op₁ v1 t1, b =>
    if op ≠ op₁ then do
      let l ← makeOperation op₁ v1 t1
      let r ← b.toOperand
      pure (.tree (.op2 op l r))
    else match b with
      | .value v2 => some (.split op (opValue D op v1 (some v2)) t1)
      | .tree t2 | .split _ _ t2 => some (.split op v1 (.op2 op t1 t2))
  | a, .split op₂ v2 t2 =>
    if op ≠ op₂ then do
      let l ← a.toOperand
      let r ← makeOperation op₂ v2 t2
      pure (.tree (.op2 op l r))
    else match a with
      | .value v1 => some (.split op (opValue D op v1 (some v2)) t2)
      | .tree t1 | .split _ _ t1 => some (.split op v2 (.op2 op t1 t2))
  | _, _ => none

/-- **`Operation::combine`**. -/
def combine (op : OpKind) (a b : Flat R P) : Option (Flat R P) :=
  match combineLogical D op a b with
  | some f => some f
  | none =>
    match a, b with
    | .value v1, .value v2 => some (.value (opValue D op v1 (some v2)))
    | .value v, .tree t | .tree t, .value v => some (.split op v t)
    | .tree t1, .tree t2 => some (.tree (.op2 op t1 t2))
    | a, b => combineSplit D op a b

/-- If splitting is disallowed, the value and the tree are folded into a tree. -/
def Flat.fold (split : Bool) : Flat R P → Option (Flat R P)
  | .split op v t => if split then some (.split op v t) else (makeOperation op v t).map .tree
  | f => some f

/-- The outcome for an operator that is not split. Without a literal for a value there is no tree.
-/
def flatFixed (op : OpKind) (a b : Flat R P) : Flat R P :=
  match a, b with
  | .value v1, .value v2 => .value (opValue D op v1 (some v2))
  | a, b =>
    match a.toTree, b.toTree with
    | some t1, some t2 => .tree (.op2 op t1 t2)
    | _, _ => .value .undefined

/-! ## Nodes -/

section Nodes

variable [DecidableEq P] (E : World R P) (attrList : P → List (Text × Node R P))
  (inline : Bool) (n : ℕ)
  (rec : Bool → Node R P → Flattening R P (Flat R P))

/-- `Operation1::flatten` and `OperationParens::flatten`. -/
def flattenOperation1 (op : OpKind) (e : Node R P) : Flattening R P (Flat R P) := do
  match ← rec false e with
  | .value v => pure (.value (opValue E.doubles op v none))
  | .tree t | .split _ _ t => pure (.tree (.op1 op t))

/-- `_doOperation` for a subscript without a state, in which no element of a list can be evaluated.
-/
def subscriptAlone (v1 v2 : Value R P) : Eval R P (Value R P) :=
  match doOperation E.doubles .subscript v1 (some v2) with
  | some v => pure v
  | none =>
    match v1, v2 with
    | .list _ _ es, .integer i =>
      let index := (i.setWidth 32).toInt
      if index < 0 ∨ es.length ≤ index.toNat then pure .error else Run.pending
    | _, _ => subscript E n (eval E n) v1 v2

/-- `Operation2::flatten`, of a subscript. -/
def flattenSubscript (l r : Node R P) : Flattening R P (Flat R P) := do
  let a ← rec false l
  let b ← rec false r
  match a, b with
  | .value v1, .value v2 => do
    let v ← lift (subscriptAlone E n v1 v2)
    pure (.value v)
  | a, b => do
    let t1 ← orFail a.toTree
    let t2 ← orFail b.toTree
    pure (.tree (.op2 .subscript t1 t2))

def flattenChild : Option (Node R P) → Flattening R P (Option (Flat R P))
  | none => pure none
  | some e => do
    let f ← rec false e
    pure (some f)

/-- `Operation3::flatten` when the selector has no defined value. -/
def flattenArms (c : Node R P) (f : Flat R P) (m : Option (Node R P)) (r : Node R P) :
    Flattening R P (Flat R P) := do
  let a ← flattenChild rec m
  let b ← rec false r
  let t ← orFail b.toTree
  pure (.tree (.op3 (f.tree?.getD (.copy c)) (a.bind Flat.toTree) t))

/-- `Operation3::flatten`. -/
def flattenOperation3 (c : Node R P) (m : Option (Node R P))
    (r : Node R P) : Flattening R P (Flat R P) := do
  match ← rec false c with
  | .value v =>
    if v.kind = .undefined then flattenArms rec c (.value v) m r
    else match v.booleanEquiv E.doubles with
      | none => pure (.value .error)
      | some true =>
        match m with
        | some m => rec false m
        | none => fail .error
      | some false => rec false r
  | f => flattenArms rec c f m r

/-- `Operation::_Flatten` of an operator with two operands. -/
def flattenOperation2 (split : Bool) (op : OpKind) (l r : Node R P) : Flattening R P (Flat R P) :=
  if op.isFixed then do
    let a ← rec false l
    let b ← rec false r
    pure (flatFixed E.doubles op a b)
  else if op = .subscript then flattenSubscript E n rec l r
  else do
    let a ← rec true l
    let b ← rec true r
    let f ← orFail (combine E.doubles op a b)
    orFail (f.fold split)

/-- The loop over elements and arguments: whether all have become values, and their trees. -/
def flattenAll : List (Node R P) → Flattening R P (Bool × List (Flattened R P))
  | [] => pure (true, [])
  | e :: es => do
    let f ← rec false e
    let t ← orFail f.toTree
    let (fold, ts) ← flattenAll es
    pure (f.tree?.isNone && fold, t :: ts)

/-- `FunctionCall::_Flatten`, which calls the function if all arguments have become values. -/
def flattenCall (name : Text) (args : List (Node R P)) : Flattening R P (Flat R P) :=
  match E.function name with
  | none => pure (.value .error)
  | some f => do
    let (fold, ts) ← flattenAll rec args
    if fold then do
      let v ← lift (f (eval E n) args)
      pure (.value v)
    else pure (.tree (.call name ts))

/-- The loop of `ClassAd::_Flatten` over the attributes. -/
def flattenAttrs : List (Text × Node R P) → Flattening R P (List (Text × Flattened R P))
  | [] => pure []
  | (name, e) :: attrs => do
    let f ← rec false e
    let t ← orFail f.toTree
    let ts ← flattenAttrs attrs
    pure ((name, t) :: ts)

def setCur (cur : Option P) : Flattening R P Unit := do
  set { (← get) with cur := cur }

/-- `ClassAd::_Flatten`. -/
def flattenAd (p : P) : Flattening R P (Flat R P) := do
  let s ← get
  set { s with cur := some p }
  let r ← attempt (flattenAttrs rec (attrList p))
  setCur s.cur
  match r with
  | .ok ts => pure (.tree (.ad ts))
  | .error v => fail v

/-- A tree is flattened one level deeper, and the current ad is `cur` if the levels are used up. -/
def flattenDeeper (cur : Option P)
    (t : Node R P) : Flattening R P (Except (Value R P) (Flat R P)) := do
  let s ← get
  if s.depth ≤ 0 then
    set { s with cur := cur }
    fail .error
  else
    set { s with depth := s.depth - 1 }
    let r ← attempt (rec false t)
    let s ← get
    set { s with depth := s.depth + 1 }
    pure r

/-- The scope of an undefined attribute is flattened if trees are inlined. -/
def flattenScope (cur : Option P) (name : Text) :
    Option (Node R P) → Flattening R P (Option (Flattened R P))
  | none => pure none
  | some e =>
    if inline then do
      match ← flattenDeeper rec cur e with
      | .ok f => pure (f.tree?.map fun t => .attrRef t name)
      | .error _ => pure none
    else pure none

def Node.isAd : Node R P → Bool
  | .ad _ => true
  | _ => false

/-- `AttributeReference::_Flatten`. The ad is not set back if the attribute is an ad or inlined. -/
def flattenRef (scope : Option (Node R P)) (name : Text)
    (absolute : Bool) : Flattening R P (Flat R P) := do
  let self := Flattened.copy (.attrRef scope name absolute)
  let s ← get
  match ← lift (findExpr E n (eval E n) name absolute scope) with
  | .fail => fail .undefined
  | .error => do
    setCur s.cur
    pure (.value .error)
  | .undef => do
    let t ← flattenScope inline rec s.cur name scope
    setCur s.cur
    pure (.tree (t.getD self))
  | .ok t =>
    if t.isAd then pure (.tree self)
    else do
      match ← flattenDeeper rec s.cur t with
      | .error v => do
        setCur s.cur
        fail v
      | .ok f =>
        match f.tree? with
        | none => do
          setCur s.cur
          pure f
        | some t =>
          if inline then pure (.tree t)
          else do
            setCur s.cur
            pure (.tree self)

/-- `_Flatten` of a node; `rec` flattens its parts. -/
def flattenStep (split : Bool) : Node R P → Flattening R P (Flat R P)
  | .literal c => pure (.value (.const c))
  | .attrRef scope name absolute => flattenRef E inline n rec scope name absolute
  | .op1 op e => flattenOperation1 E rec op e
  | .op2 op l r => flattenOperation2 E n rec split op l r
  | .op3 c m r => flattenOperation3 E rec c m r
  | .call name args => flattenCall E n rec name args
  | .ad p => flattenAd attrList rec p
  | .list _ es => do
    let (_, ts) ← flattenAll rec es
    pure (.tree (.list ts))

end Nodes

variable [DecidableEq P] (E : World R P) (attrList : P → List (Text × Node R P)) (inline : Bool)

/-- **`Flatten`**. With `split` the outcome may be an operator with a value and a tree. -/
def flatten : ℕ → Bool → Node R P → Flattening R P (Flat R P)
  | 0 => fun _ _ => pending
  | n + 1 => fun split t =>
    record (fun s r s' => ⟨n, t, s, r, s'⟩) (flattenStep E attrList inline n (flatten n) split t)

end Condor.ClassAd
