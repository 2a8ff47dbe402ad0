import Condor.ClassAd.Lexer
import Condor.Lib.Descent

/-!
# Parsing — the model of `ClassAdParser`

The parser is a recursive descent over the tokens of a text. The result of a parse function is its
tree; no value stands for a `NULL` tree, which the functions of the source return on every failure.
The member `depth` counts the running calls of `parseExpression`: its guard undoes the count on
every return, so that the calls that may still be nested are passed as an argument.
-/

namespace Condor.ClassAd

open Descent

/-- Behind the last token the lexer returns the end of the input again and again. -/
instance : Inhabited Token := ⟨.endOfInput⟩

/-- `Lexer` with its last token and the tokens that are left. -/
abbrev Lexer := Cursor Token

abbrev Parse (A : Type) := Parser Token A

/-- Which texts the time functions accept when they are evaluated by the parser. -/
structure Times where
  absTime : Text → Bool
  relTime : Text → Bool

/-- What the language depends on: the settings of the lexer and the time functions. -/
structure Dialect where
  mode : Mode
  times : Times

/-- The dialect, and a bound on the number of tokens. A `checked` parser looks at the result of the
middle expression of a ternary operation; the one of the source does not. -/
structure Env extends Dialect where
  fuel : ℕ
  checked : Bool

variable (G : Dialect) (P : Env)

/-! ## Operators -/

/-- The operators of `parseMultiplicativeExpression`. -/
def multiplicativeOp : Token → Option OpKind
  | .multiply => some .multiplication
  | .divide => some .division
  | .modulus => some .modulus
  | _ => none

def additiveOp : Token → Option OpKind
  | .plus => some .addition
  | .minus => some .subtraction
  | _ => none

def shiftOp : Token → Option OpKind
  | .leftShift => some .leftShift
  | .rightShift => some .rightShift
  | .urightShift => some .urightShift
  | _ => none

def relationalOp : Token → Option OpKind
  | .lessThan => some .lessThan
  | .lessOrEqual => some .lessOrEqual
  | .greaterThan => some .greaterThan
  | .greaterOrEqual => some .greaterOrEqual
  | _ => none

def equalityOp : Token → Option OpKind
  | .equal => some .equal
  | .notEqual => some .notEqual
  | .metaEqual => some .metaEqual
  | .metaNotEqual => some .metaNotEqual
  | _ => none

def andOp : Token → Option OpKind
  | .bitwiseAnd => some .bitwiseAnd
  | _ => none

def exclusiveOrOp : Token → Option OpKind
  | .bitwiseXor => some .bitwiseXor
  | _ => none

def inclusiveOrOp : Token → Option OpKind
  | .bitwiseOr => some .bitwiseOr
  | _ => none

def logicalAndOp : Token → Option OpKind
  | .logicalAnd => some .logicalAnd
  | _ => none

def logicalOrOp : Token → Option OpKind
  | .logicalOr => some .logicalOr
  | _ => none

/-- The operators of `parseUnaryExpression`. -/
def unaryOp : Token → Option OpKind
  | .minus => some .unaryMinus
  | .plus => some .unaryPlus
  | .bitwiseNot => some .bitwiseNot
  | .logicalNot => some .logicalNot
  | _ => none

/-! ## Primary expressions -/

section

variable (expr : Parse Expr)

/-- The call of a function; a time function of one string literal is evaluated. -/
def makeCall (name : Text) (args : List Expr) : Option Expr :=
  match args with
  | [.literal (.string s)] =>
    if caseEq name "absTime".toList then
      if G.times.absTime s then some (.literal (.absTime s)) else none
    else if caseEq name "relTime".toList then
      if G.times.relTime s then some (.literal (.relTime s)) else none
    else some (.call name args)
  | _ => some (.call name args)

def isArgSep (t : Token) : Bool := t = .comma || (t = .semicolon && G.mode.useOldClassAdSemantics)

/-- `parseArgumentList`, behind the opening parenthesis. -/
def parseArgumentList : Parse (List Expr) :=
  items (isArgSep P.toDialect) (· = .closeParen) expr P.fuel

/-- `parseExprList`, behind the opening brace. -/
def parseExprList : Parse (List Expr) :=
  items (· = .comma) (· = .closeBrace) expr P.fuel

/-- The semicolons behind an attribute are consumed, and the token behind them is looked at. -/
def skipSemicolons : List Token → Lexer
  | .semicolon :: ts => skipSemicolons ts
  | ts => ⟨ts.headD default, ts⟩

/-- The loop of `parseClassAd`, for the token that it tests. A semicolon in front of an attribute
keeps it. -/
def attrLoop : ℕ → Token → List (Text × Expr) → Parse (List (Text × Expr))
  | 0, _, _, l => (none, l)
  | n + 1, tt, attrs, l =>
    if tt = .closeBox then (some attrs, l.next)
    else
      match l.head with
      | .semicolon => attrLoop n .semicolon attrs l.next
      | .identifier s =>
        let l := l.next
        if l.head = .boundTo then
          andThen (expr l.next) fun e l =>
            if s = [] then (none, l)
            else if l.head = .semicolon ∨ l.head = .closeBox then
              let l := skipSemicolons l.rest
              attrLoop n l.head (Flat.put nameRank s e attrs) l
            else (none, l.peek)
        else (none, l.next)
      | _ => (none, l.next)

/-- `parseClassAd`, behind the opening bracket. -/
def parseClassAd : Parse (List (Text × Expr)) := fun l =>
  attrLoop expr P.fuel l.head [] l.peek

def parsePrimaryExpression : Parse Expr := fun l =>
  let l' := l.next
  match l.head with
  | .identifier s =>
    if l'.head = .openParen then
      andThen (parseArgumentList P expr l'.next) fun args l => (makeCall P.toDialect s args, l)
    else (some (.attrRef none s false), l'.peek)
  | .selection =>
    match l'.head with
    | .identifier s => (some (.attrRef none s true), l'.next)
    | _ => (none, l'.next)
  | .openParen =>
    andThen (expr l') fun e l =>
      if l.head = .closeParen then (some (.op1 .parentheses e), l.next) else (none, l.next)
  | .openBox =>
    andThen (parseClassAd P expr l') fun attrs l => (some (.classAd attrs), l)
  | .openBrace =>
    andThen (parseExprList P expr l') fun es l => (some (.list es), l)
  | .undefinedValue => (some (.literal .undefined), l')
  | .errorValue => (some (.literal .error), l')
  | .booleanValue b => (some (.literal (.boolean b)), l')
  | .integerValue i => (some (.literal (.integer i)), l')
  | .realValue r => (some (.literal (.real r)), l')
  | .stringValue s => (some (.literal (.string s)), l')
  | _ => (none, l.peek)

/-- The loop of `parsePostfixExpression`. -/
def postfixLoop : ℕ → Expr → Parse Expr
  | 0, _, l => (none, l)
  | n + 1, e, l =>
    match l.head with
    | .openBox =>
      andThen (expr l.next) fun i l =>
        if l.head = .closeBox then postfixLoop n (.op2 .subscript e i) l.next else (none, l.next)
    | .selection =>
      let l := l.next
      match l.head with
      | .identifier s => postfixLoop n (.attrRef (some e) s false) l.next
      | _ => (none, l.next)
    | _ => (some e, l.peek)

def parsePostfixExpression : Parse Expr := fun l =>
  andThen (parsePrimaryExpression P expr l) fun e l => postfixLoop expr P.fuel e l

/-- The recursion of `parseUnaryExpression`. -/
def unaryLoop : ℕ → Parse Expr
  | 0, l => (none, l)
  | n + 1, l =>
    match unaryOp l.head with
    | some o => andThen (unaryLoop n l.next) fun e l => (some (.op1 o e), l)
    | none => parsePostfixExpression P expr l.peek

def parseUnaryExpression : Parse Expr := unaryLoop P expr P.fuel

/-! ## Binary operators -/

/-- One level of left-associative binary operators over the next tighter one. -/
def binary (op : Token → Option OpKind) (sub : Parse Expr) : Parse Expr :=
  chain op Expr.op2 sub P.fuel

def parseMultiplicativeExpression : Parse Expr :=
  binary P multiplicativeOp (parseUnaryExpression P expr)

def parseAdditiveExpression : Parse Expr :=
  binary P additiveOp (parseMultiplicativeExpression P expr)

def parseShiftExpression : Parse Expr := binary P shiftOp (parseAdditiveExpression P expr)

def parseRelationalExpression : Parse Expr := binary P relationalOp (parseShiftExpression P expr)

def parseEqualityExpression : Parse Expr := binary P equalityOp (parseRelationalExpression P expr)

def parseANDExpression : Parse Expr := binary P andOp (parseEqualityExpression P expr)

def parseExclusiveORExpression : Parse Expr := binary P exclusiveOrOp (parseANDExpression P expr)

def parseInclusiveORExpression : Parse Expr :=
  binary P inclusiveOrOp (parseExclusiveORExpression P expr)

def parseLogicalANDExpression : Parse Expr :=
  binary P logicalAndOp (parseInclusiveORExpression P expr)

def parseLogicalORExpression : Parse Expr := binary P logicalOrOp (parseLogicalANDExpression P expr)

/-! ## Expressions -/

def ternaryRight (c : Expr) (m : Option Expr) : Parse Expr := fun l =>
  andThen (expr l) fun r l => (some (.op3 c m r), l)

/-- A ternary operation behind the question mark. A middle expression that fails counts as empty. -/
def ternary (c : Expr) : Parse Expr := fun l =>
  if l.head = .colon then ternaryRight expr c none l.next
  else
    let (m, l) := expr l.peek
    if l.head = .colon then
      if P.checked && m.isNone then (none, l.next)
      else ternaryRight expr c m l.next
    else (none, l.next)

/-- The body of `parseExpression`. A full parse is asked for only without a ternary operation. -/
def expression (full : Bool) : Parse Expr := fun l =>
  andThen (parseLogicalORExpression P expr l) fun e l =>
    if l.head = .qmark then ternary P expr e l.next
    else if full then (if l.head = .endOfInput then some e else none, l.next)
    else (some e, l.peek)

end

/-- `parseExpression`, when `n` calls may be nested. -/
def parseExpression : ℕ → Parse Expr
  | 0 => fun l => (none, l)
  | n + 1 => expression P (parseExpression n) false

/-! ## The parser object -/

/-- How many calls of `parseExpression` may be nested. -/
def maxDepth : ℕ := 1000

/-- The parser of the source; the loops run out of tokens before they run out of fuel. -/
def sourceEnv (l : Lexer) : Env := ⟨G, l.rest.length + 1, false⟩

/-- `parseExpression` as it is called from outside. -/
def parseTop (full : Bool) : Parse Expr := fun l =>
  expression (sourceEnv G l) (parseExpression (sourceEnv G l) (maxDepth - 1)) full l

/-- `parseClassAd` as it is called from outside. -/
def parseTopClassAd (full : Bool) : Parse (List (Text × Expr)) := fun l =>
  if l.head = .openBox then
    andThen (parseClassAd (sourceEnv G l) (parseExpression (sourceEnv G l) maxDepth) l.next)
      fun attrs l =>
        if full then (if l.head = .endOfInput then some attrs else none, l.next)
        else (some attrs, l)
  else (none, l.next)

/-- `ClassAdParser` between two calls: `Initialize` keeps the type of the last token. -/
structure ClassAdParser where
  dialect : Dialect
  last : Token

variable (p : ClassAdParser)

/-- A new `ClassAdParser`. -/
def ClassAdParser.new : ClassAdParser := ⟨G, .endOfInput⟩

/-- `Lexer::Initialize` with the text of a string. -/
def ClassAdParser.initializeLexer (s : Text) : Lexer :=
  ⟨p.last, tokens p.dialect.mode p.last s⟩

def ClassAdParser.parseExpression (s : Text) (full : Bool) : Option Expr × ClassAdParser :=
  (parseTop p.dialect full (p.initializeLexer s)).map id fun l => { p with last := l.last }

def ClassAdParser.parseClassAd (s : Text) (full : Bool) :
    Option (List (Text × Expr)) × ClassAdParser :=
  (parseTopClassAd p.dialect full (p.initializeLexer s)).map id fun l => { p with last := l.last }

end Condor.ClassAd
