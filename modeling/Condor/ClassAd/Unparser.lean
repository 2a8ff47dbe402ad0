import Condor.ClassAd.Lexer

/-!
# Printing — the model of `ClassAdUnParser`

The printer writes a tree without any parentheses of its own: those of the text that was parsed are
nodes of the tree. Names of attributes are quoted where they need it, but neither the name behind a
scope nor the name of a function is looked at.
-/

namespace Condor.ClassAd

/-! ## Strings and names -/

def isPrint (c : Char) : Bool := 0x20 ≤ c.toNat && c.toNat < 0x7f

def octalDigit (n : ℕ) : Char := Char.ofNat ('0'.toNat + n)

def octalText (c : Char) : Text :=
  [octalDigit (c.toNat / 64), octalDigit (c.toNat / 8 % 8), octalDigit (c.toNat % 8)]

/-- The letter of a character that has an escape sequence of one letter. -/
def escapeLetter : Char → Option Char
  | '\x07' => some 'a'
  | '\x08' => some 'b'
  | '\x0c' => some 'f'
  | '\n' => some 'n'
  | '\r' => some 'r'
  | '\t' => some 't'
  | '\x0b' => some 'v'
  | '\\' => some '\\'
  | _ => none

/-- A character of a string. In the old syntax only the delimiter is escaped. -/
def escapeChar (old : Bool) (delim c : Char) : Text :=
  if c = delim then ['\\', delim]
  else if old then [c]
  else
    match escapeLetter c with
    | some l => ['\\', l]
    | none => if isPrint c then [c] else '\\' :: octalText c

/-- `UnparseString` between the quotes. -/
def unparseString (old : Bool) (delim : Char) (s : Text) : Text := s.flatMap (escapeChar old delim)

/-- The words that are quoted when they are names of attributes. -/
def reservedWords : List Text :=
  ["error".toList, "false".toList, "is".toList, "isnt".toList, "parent".toList, "true".toList,
    "undefined".toList]

def isName : Text → Bool
  | [] => false
  | c :: s => (c.isAlpha || c = '_') && s.all isIdent

/-- `identifierNeedsQuoting`; the characters are looked at up to a terminator. -/
def identifierNeedsQuoting (s : Text) : Bool :=
  !isName (s.takeWhile (· ≠ nul)) || reservedWords.any (caseEq s)

/-- `UnparseAux` of the name of an attribute. -/
def unparseName (old : Bool) (s : Text) : Text :=
  let id := unparseString old '\'' s
  if identifierNeedsQuoting id then '\'' :: id ++ ['\''] else id

/-! ## Operators -/

def opString : OpKind → Text
  | .lessThan => " < ".toList
  | .lessOrEqual => " <= ".toList
  | .notEqual => " != ".toList
  | .equal => " == ".toList
  | .greaterOrEqual => " >= ".toList
  | .greaterThan => " > ".toList
  | .metaEqual => " is ".toList
  | .metaNotEqual => " isnt ".toList
  | .unaryPlus => " +".toList
  | .unaryMinus => " -".toList
  | .addition => " + ".toList
  | .subtraction => " - ".toList
  | .multiplication => " * ".toList
  | .division => " / ".toList
  | .modulus => " % ".toList
  | .logicalNot => " !".toList
  | .logicalOr => " || ".toList
  | .logicalAnd => " && ".toList
  | .bitwiseNot => " ~".toList
  | .bitwiseOr => " | ".toList
  | .bitwiseXor => " ^ ".toList
  | .bitwiseAnd => " & ".toList
  | .leftShift => " << ".toList
  | .rightShift => " >> ".toList
  | .urightShift => " >>> ".toList
  | .parentheses => " () ".toList
  | .subscript => " [] ".toList

/-- The operator between two operands; the old syntax has no words for `is` and `isnt`. -/
def binaryString (old : Bool) (o : OpKind) : Text :=
  if old && o = .metaEqual then " =?= ".toList
  else if old && o = .metaNotEqual then " =!= ".toList
  else opString o

/-! ## Trees -/

/-- How reals are printed in the old or the new syntax, and times. -/
structure Numerals where
  real : Bool → Text → Text
  absTime : Text → Text
  relTime : Text → Text

/-- The settings of the printer: `SetOldClassAd`. -/
structure Style where
  oldClassAd : Bool
  oldClassAdValue : Bool

def Style.new : Style := ⟨false, false⟩

def Style.value (st : Style) : Style := { st with oldClassAdValue := true }

def Style.brackets (st : Style) : Bool := !st.oldClassAd || st.oldClassAdValue

/-- `append_long`. -/
def integerText (i : ℤ) : Text :=
  if 0 ≤ i then Nat.toDigits 10 i.toNat else '-' :: Nat.toDigits 10 (-i).toNat

variable (W : Numerals)

def unparseLiteral (old : Bool) : Literal → Text
  | .undefined => "undefined".toList
  | .error => "error".toList
  | .boolean b => if b then "true".toList else "false".toList
  | .integer i => integerText i
  | .real r => W.real old r
  | .string s => '"' :: unparseString old '"' s ++ ['"']
  | .absTime s => "absTime(\"".toList ++ W.absTime s ++ "\")".toList
  | .relTime s => "relTime(\"".toList ++ W.relTime s ++ "\")".toList

mutual

def unparse (st : Style) : Expr → Text
  | .literal l => unparseLiteral W st.oldClassAd l
  | .attrRef none n absolute => (if absolute then ['.'] else []) ++ unparseName st.oldClassAd n
  | .attrRef (some e) n _ => unparse st e ++ '.' :: n
  | .op1 o e =>
    if o = .parentheses then '(' :: unparse st e ++ [')'] else opString o ++ unparse st e
  | .op2 o a b =>
    if o = .subscript then unparse st a ++ '[' :: unparse st b ++ [']']
    else unparse st a ++ binaryString st.oldClassAd o ++ unparse st b
  | .op3 c none r => unparse st c ++ " ?: ".toList ++ unparse st r
  | .op3 c (some m) r =>
    unparse st c ++ " ? ".toList ++ unparse st m ++ " : ".toList ++ unparse st r
  | .call f as => f ++ '(' :: unparseList st as ++ [')']
  | .classAd as =>
    if st.brackets then "[ ".toList ++ unparseAttrs st as ++ " ]".toList
    else unparseAttrs st as ++ ['\n']
  | .list as => "\x7b ".toList ++ unparseList st as ++ " \x7d".toList

def unparseList (st : Style) : List Expr → Text
  | [] => []
  | e :: es => unparse st e ++ unparseMore st es

def unparseMore (st : Style) : List Expr → Text
  | [] => []
  | e :: es => ',' :: unparse st e ++ unparseMore st es

def unparseAttrs (st : Style) : List (Text × Expr) → Text
  | [] => []
  | a :: as => unparseAttr st a ++ unparseMoreAttrs st as

def unparseMoreAttrs (st : Style) : List (Text × Expr) → Text
  | [] => []
  | a :: as =>
    (if st.brackets then "; ".toList else ['\n']) ++ unparseAttr st a ++ unparseMoreAttrs st as

def unparseAttr (st : Style) : Text × Expr → Text
  | (n, e) => unparseName st.oldClassAd n ++ " = ".toList ++ unparse st.value e

end

end Condor.ClassAd
