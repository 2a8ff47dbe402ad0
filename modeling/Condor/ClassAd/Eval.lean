import Condor.ClassAd.Operation
import Condor.Lib.Run

/-!
# Evaluation — the model of `ExprTree::Evaluate`

There are two evaluators. One short-circuits; the other, which also collects the significant part
of the expression, evaluates all operands first. Attributes are looked up from an ad outwards, and
the state of the evaluation has the ad where a lookup has ended. The expressions of attributes are
evaluated by the first evaluator in both cases.

The significant expressions themselves are left out. What a failed evaluation leaves in its result
is kept, for an element of a list is used without a look at its success.
-/

namespace Condor.ClassAd

structure EvalState (P : Type) where
  depth : ℤ
  root : Option P
  cur : Option P
deriving DecidableEq, Repr

/-- A computation of an evaluator; when it fails, it says what it has left in the result. -/
abbrev Eval (R P α : Type) : Type := Run (EvalState P) (Value R P) α

/-- What an evaluation depends on: the ads in memory, numbers, and the functions, which get an
evaluator. `lookup` is `ClassAd::Lookup`, and `detached` a copy of an ad without parent scope. -/
structure World (R P : Type) where
  doubles : Doubles R
  lookup : P → Text → Option (Node R P)
  parentScope : P → Option P
  alternateScope : P → Option P
  detached : P → P
  oldSemantics : Bool
  function : Text → Option ((Node R P → Eval R P (Value R P)) → List (Node R P) →
    Eval R P (Value R P))

def maxClassAdRecursion : ℤ := 400

/-! ## Lookups -/

/-- The attributes that every ad has. -/
inductive Special where
  | toplevel
  | self
  | parent
  | currentTime
deriving DecidableEq, Repr

def special (oldSemantics : Bool) (name : Text) : Option Special :=
  if caseEq name "toplevel".toList || caseEq name "root".toList then some .toplevel
  else if caseEq name "self".toList || (oldSemantics && caseEq name "my".toList) then some .self
  else if caseEq name "parent".toList then some .parent
  else if oldSemantics && caseEq name "CurrentTime".toList then some .currentTime
  else none

inductive Found (R P : Type) where
  | ok (t : Node R P)
  | undef
  | error
  | fail

variable {R P : Type} [DecidableEq P] (E : World R P)

/-- The scope around an ad; there is none around the root. -/
def World.superScope (root : Option P) (current : P) : Option P :=
  if root = some current then none else E.parentScope current

/-- The loop of `LookupInScope`, which was started at `start`. -/
def lookupFrom (start : P) (name : Text) : ℕ → P → Eval R P (Found R P)
  | 0, _ => Run.pending
  | n + 1, current => do
    let s ← Run.get
    Run.set { s with cur := some current }
    match E.lookup current name with
    | some t => pure (.ok t)
    | none =>
      match special E.oldSemantics name with
      | none =>
        match E.superScope s.root current with
        | none => pure .undef
        | some p => if p = start then pure .undef else lookupFrom start name n p
      | some .toplevel =>
        match s.root with
        | none => pure .fail
        | some p => pure (.ok (.ad p))
      | some .self => pure (.ok (.ad current))
      | some .parent =>
        match E.superScope s.root current with
        | none => pure .undef
        | some p => pure (.ok (.ad p))
      | some .currentTime => pure (.ok (.call "time".toList []))

def lookupInScope (n : ℕ) (p : P) (name : Text) : Eval R P (Found R P) :=
  lookupFrom E p name n p

/-- The loop of `SetRootScope`: no root if the parent scopes lead back to the start. -/
def rootFrom (start : P) : ℕ → P → Option (Option P)
  | 0, _ => none
  | n + 1, p =>
    match E.parentScope p with
    | none => some (some p)
    | some q => if q = start then some none else rootFrom start n q

/-- A new state with `SetScopes`. -/
def newState (n : ℕ) (depth : ℤ) (cur : Option P) : Eval R P (EvalState P) := fun s =>
  match cur with
  | none => some (.ok ⟨depth, none, none⟩, s)
  | some p =>
    match rootFrom E p n p with
    | none => none
    | some root => some (.ok ⟨depth, root, some p⟩, s)

omit [DecidableEq P] in
mutual

def Node.unscope : Node R P → Node R P
  | .literal c => .literal c
  | .attrRef scope name absolute => .attrRef (unscopeChild scope) name absolute
  | .op1 op e => .op1 op e.unscope
  | .op2 op l r => .op2 op l.unscope r.unscope
  | .op3 c m r => .op3 c.unscope (unscopeChild m) r.unscope
  | .call name args => .call name (unscopeList args)
  | .ad p => .ad (E.detached p)
  | .list _ es => .list none (unscopeList es)

def unscopeChild : Option (Node R P) → Option (Node R P)
  | none => none
  | some e => some e.unscope

def unscopeList : List (Node R P) → List (Node R P)
  | [] => []
  | e :: es => e.unscope :: unscopeList es

end

omit [DecidableEq P] in
/-- A value as an element of a new list without parent scope. -/
def Value.toNode : Value R P → Node R P
  | .const c => .literal c
  | .list _ _ es => .list none (unscopeList E es)
  | .ad _ p => .ad (E.detached p)

omit [DecidableEq P] in
/-- `SafetyCheck` of all values: lists and ads become the value's own. -/
def Value.selfContained : Value R P → Value R P
  | .list false _ es => .list true none (unscopeList E es)
  | .ad false p => .ad true (E.detached p)
  | v => v

/-- The loop of `FindExpr` over the elements of a list, each in a state of its own. -/
def selectAll (n : ℕ) (ev : Node R P → Eval R P (Value R P)) (name : Text) :
    List (Node R P) → Eval R P (Option (List (Node R P)))
  | [] => pure (some [])
  | e :: es => do
    let s ← Run.get
    let t ← newState E n s.depth s.cur
    match ← Run.within t (ev (.attrRef (some e) name false)) with
    | .error _ => pure none
    | .ok v =>
      match ← selectAll n ev name es with
      | none => pure none
      | some ts => pure (some (v.toNode E :: ts))

/-- `AttributeReference::FindExpr`, with the evaluator of the scope. -/
def findExpr (n : ℕ) (ev : Node R P → Eval R P (Value R P)) (name : Text) (absolute : Bool) :
    Option (Node R P) → Eval R P (Found R P)
  | none => do
    let s ← Run.get
    match if absolute then s.root else s.cur with
    | none => pure (if absolute then .fail else .undef)
    | some p =>
      match ← lookupInScope E n p name with
      | .undef =>
        match if absolute then none else E.alternateScope p with
        | none => pure .undef
        | some q => lookupInScope E n q name
      | found => pure found
  | some e => do
    match ← Run.attempt (ev e) with
    | .error _ => pure .fail
    | .ok .undefined => pure .undef
    | .ok .error => pure .error
    | .ok (.ad _ p) => lookupInScope E n p name
    | .ok (.list _ _ es) =>
      match ← selectAll E n ev name es with
      | none => pure .fail
      | some ts => pure (.ok (.list none ts))
    | .ok _ => pure .error

/-- A tree is evaluated one level deeper; the ad of the lookup is left behind if `restores`. -/
def deeper (ev : Node R P → Eval R P (Value R P)) (t : Node R P) (cur : Option P)
    (restores : Bool) : Eval R P (Value R P) := do
  let s ← Run.get
  if s.depth ≤ 0 then
    Run.set { s with cur := cur }
    Run.fail .error
  else
    Run.set { s with depth := s.depth - 1 }
    let r ← Run.attempt (ev t)
    let s ← Run.get
    match r with
    | .ok v =>
      Run.set { s with depth := s.depth + 1, cur := cur }
      pure v
    | .error v =>
      Run.set { s with depth := s.depth + 1, cur := if restores then cur else s.cur }
      Run.fail v

/-- `AttributeReference::_Evaluate`: `ev` evaluates the scope, and `rec` the attribute. When that
fails, only the first evaluator `restores` the ad. -/
def evalRef (n : ℕ) (ev rec : Node R P → Eval R P (Value R P)) (restores : Bool)
    (scope : Option (Node R P)) (name : Text) (absolute : Bool) : Eval R P (Value R P) := do
  let s ← Run.get
  match ← findExpr E n ev name absolute scope with
  | .fail => Run.fail .undefined
  | .error => do
    Run.set { (← Run.get) with cur := s.cur }
    pure .error
  | .undef => do
    Run.set { (← Run.get) with cur := s.cur }
    pure .undefined
  | .ok t => deeper rec t s.cur restores

/-! ## Operators -/

/-- `ClassAd::EvaluateAttr`, in the state that it makes. -/
def evaluateAttr (n : ℕ) (rec : Node R P → Eval R P (Value R P)) (p : P) (name : Text) :
    Eval R P (Value R P) := do
  match ← lookupInScope E n p name with
  | .ok t => do
    let v ← rec t
    pure (v.selfContained E)
  | .undef => pure .undefined
  | .error => pure .error
  | .fail => Run.fail .undefined

/-- `ExprList::GetValueAt`; the success of the evaluation is not looked at. -/
def getValueAt (rec : Node R P → Eval R P (Value R P)) (scope : Option P) (t : Node R P) :
    Eval R P (Value R P) := do
  let s ← Run.get
  if s.depth ≤ 0 then pure .error
  else
    Run.set { s with depth := s.depth - 1, cur := scope }
    let r ← Run.attempt (rec t)
    Run.set { (← Run.get) with cur := s.cur }
    Run.set { (← Run.get) with depth := (← Run.get).depth + 1 }
    match r with
    | .ok v | .error v => pure v

/-- The subscript of an ad or a list. The index of a list is cut to an `int`. -/
def subscript (n : ℕ) (rec : Node R P → Eval R P (Value R P)) :
    Value R P → Value R P → Eval R P (Value R P)
  | .ad _ p, .const (.string index) =>
    match E.lookup p index with
    | none => pure .undefined
    | some _ => do
      let t ← newState E n maxClassAdRecursion (some p)
      match ← Run.within t (evaluateAttr E n rec p index) with
      | .ok v => pure v
      | .error _ => pure .error
  | .list _ scope es, .integer i =>
    let index := (i.setWidth 32).toInt
    if index < 0 then pure .error
    else match es[index.toNat]? with
      | none => pure .error
      | some t => getValueAt rec scope t
  | _, _ => pure .error

def operate (n : ℕ) (rec : Node R P → Eval R P (Value R P)) (op : OpKind) (v1 : Value R P)
    (v2 : Option (Value R P)) : Eval R P (Value R P) :=
  match doOperation E.doubles op v1 v2 with
  | some v => pure v
  | none => subscript E n rec v1 (v2.getD .undefined)

/-- An operand that cannot be evaluated makes the result an error. -/
def operand (x : Eval R P (Value R P)) : Eval R P (Value R P) := Run.mapError (fun _ => .error) x

/-! ## The short-circuiting evaluator -/

omit [DecidableEq P] in
/-- `shortCircuit` for two operands: the value when the first one decides. -/
def shortCircuit (op : OpKind) (v1 : Value R P) : Option (Value R P) :=
  match op, v1.booleanEquiv E.doubles with
  | .logicalOr, some true => some (.boolean true)
  | .logicalAnd, some false => some (.boolean false)
  | _, _ => none

def tryOperand (x : Eval R P (Value R P)) : Eval R P (Option (Value R P)) := do
  match ← Run.attempt x with
  | .ok v => pure (some v)
  | .error _ => pure none

variable (rec : Node R P → Eval R P (Value R P))

/-- `Operation3::shortCircuit`. Without a middle expression the first one is evaluated again. -/
def shortCircuit3 (v1 : Value R P) (c : Node R P)
    (m : Option (Node R P)) (r : Node R P) : Eval R P (Option (Value R P)) :=
  match v1.booleanEquiv E.doubles, m with
  | some true, some m => tryOperand (rec m)
  | some false, some _ => tryOperand (rec r)
  | some false, none => tryOperand (rec c)
  | _, _ => pure none

def operand? : Option (Node R P) → Eval R P (Option (Value R P))
  | none => pure none
  | some e => do
    let v ← operand (rec e)
    pure (some v)

/-- `_Evaluate` of a node; `rec` evaluates its parts. -/
def evalStep (n : ℕ) (rec : Node R P → Eval R P (Value R P)) : Node R P → Eval R P (Value R P)
  | .literal c => pure (.const c)
  | .ad p => pure (.ad false p)
  | .list scope es => pure (.list false scope es)
  | .op1 op e => do
    let v ← operand (rec e)
    operate E n rec op v none
  | .op2 op l r => do
    let v1 ← operand (rec l)
    match shortCircuit E op v1 with
    | some v => pure v
    | none => do
      let v2 ← operand (rec r)
      operate E n rec op v1 (some v2)
  | .op3 c m r => do
    let v1 ← operand (rec c)
    match ← shortCircuit3 E rec v1 c m r with
    | some v => pure v
    | none => do
      let v2 ← operand? rec m
      let v3 ← operand (rec r)
      pure (doTernary E.doubles v1 v2 v3)
  | .attrRef scope name absolute => evalRef E n rec rec true scope name absolute
  | .call name args =>
    match E.function name with
    | none => pure .error
    | some f => f rec args

/-- **The short-circuiting evaluator.** -/
def eval : ℕ → Node R P → Eval R P (Value R P)
  | 0 => fun _ => Run.pending
  | n + 1 => evalStep E n (eval n)

/-! ## The evaluator for significant expressions -/

/-- The arguments of a call are evaluated once more; only the last one has to succeed. -/
def sigArgs (rec : Node R P → Eval R P (Value R P)) : List (Node R P) → Bool → Eval R P Bool
  | [], rval => pure rval
  | e :: es, _ => do
    match ← Run.attempt (rec e) with
    | .ok _ => sigArgs rec es true
    | .error _ => sigArgs rec es false

/-- `_Evaluate` of a node with its significant expression; `ev` is the other evaluator. -/
def sigStep (n : ℕ) (ev rec : Node R P → Eval R P (Value R P)) : Node R P → Eval R P (Value R P)
  | .literal c => pure (.const c)
  | .ad p => pure (.ad false p)
  | .list scope es => pure (.list false scope es)
  | .op1 op e => do
    let v ← operand (rec e)
    operate E n ev op v none
  | .op2 op l r => do
    let v1 ← operand (rec l)
    let v2 ← operand (rec r)
    operate E n ev op v1 (some v2)
  | .op3 c m r => do
    let v1 ← operand (rec c)
    let v2 ← operand? rec m
    let v3 ← operand (rec r)
    pure (doTernary E.doubles v1 v2 v3)
  | .attrRef scope name absolute => evalRef E n rec ev false scope name absolute
  | .call name args => do
    let v ← evalStep E n ev (.call name args)
    if ← sigArgs rec args true then pure v else Run.fail v

/-- **The evaluator for significant expressions.** -/
def sig : ℕ → Node R P → Eval R P (Value R P)
  | 0 => fun _ => Run.pending
  | n + 1 => sigStep E n (eval E n) (sig n)

end Condor.ClassAd
