import Condor.ClassAd.JsonEscapes
import Condor.ClassAd.Parser
import Condor.ClassAd.Unparser

/-!
# JSON — the models of `ClassAdJsonUnParser` and `ClassAdJsonParser`

Ads are objects, lists are arrays, and what JSON has no form for is a string: the text of the
expression between `\/Expr(` and `)\/`. The slashes of a string are never escaped, so that the two
kinds of strings differ in the text, before the escapes are replaced. The parser runs on the lexer
of the expressions, in the mode `jsonLex`.
-/

namespace Condor.ClassAd

/-! ## Tokens -/

/-- The token of a number: neither leading zeros nor factors are part of JSON. -/
def finishNumberJson : Scanned → Token × Text
  | .token t rest => (t, rest)
  | .number .integer buf rest =>
    if startsWith '0' buf ∧ 1 < buf.length then (.tokenError, rest)
    else (.integerValue (fromChars buf), rest)
  | .number _ buf rest => (.realValue buf, rest)

def scanNumeralJson (buf : Text) (och : Char) (s : Text) : Token × Text :=
  finishNumberJson (scanExponent (scanFraction och (scanDigits buf och s)))

/-- `Lexer::tokenizeNumber`. -/
def tokenizeNumberJson : Text → Token × Text
  | '-' :: c :: s =>
    if c.isDigit then scanNumeralJson ['-', c] c s
    else if c = '.' && s.head?.any Char.isDigit then scanNumeralJson ['-'] '-' (c :: s)
    else (.minus, c :: s)
  | '-' :: [] => (.minus, [])
  | c :: s => scanNumeralJson [c] c s
  | [] => (.tokenError, [])

/-- The reserved words; the undefined value is `null`. -/
def reservedWordJson (w : Text) : Option Token :=
  if caseEq w "true".toList then some (.booleanValue true)
  else if caseEq w "false".toList then some (.booleanValue false)
  else if caseEq w "null".toList then some .undefinedValue
  else if caseEq w "error".toList then some .errorValue
  else if caseEq w "is".toList then some .metaEqual
  else if caseEq w "isnt".toList then some .metaNotEqual
  else none

/-- `Lexer::tokenizeAlphaHead`. -/
def tokenizeAlphaHeadJson (s : Text) : Token × Text :=
  let word := s.takeWhile Char.isAlpha
  let rest := s.dropWhile Char.isAlpha
  if rest.head?.any fun c => c.isDigit || c = '_' then
    (.identifier (word ++ rest.takeWhile isIdent), rest.dropWhile isIdent)
  else ((reservedWordJson word).getD (.identifier word), rest)

/-- `Lexer::tokenizeString`, behind the opening quote, with the flag of `SetQuotedExpr`. -/
def tokenizeStringJson (delim : Char) (s : Text) : (Token × Bool) × Text :=
  match scanString delim (.text false) s with
  | none => ((.tokenError, false), [])
  | some (w, rest) =>
    let (converted, validStr, quotedExpr) := convertEscapesJson w false
    ((if validStr then stringToken delim (cstr converted) else .tokenError, quotedExpr), rest)

def unflagged (t : Token × Text) : (Token × Bool) × Text := ((t.1, false), t.2)

def tokenizeHeadJson (last : Token) : Text → (Token × Bool) × Text
  | [] => ((.endOfInput, false), [])
  | c :: s =>
    if c = '-' then
      if last.endsOperand then unflagged (tokenizePunctOperator (c :: s))
      else unflagged (tokenizeNumberJson (c :: s))
    else if c.isDigit || c = '.' then unflagged (tokenizeNumberJson (c :: s))
    else if c.isAlpha || c = '_' then unflagged (tokenizeAlphaHeadJson (c :: s))
    else if c = '"' || c = '\'' then tokenizeStringJson c s
    else unflagged (tokenizePunctOperator (c :: s))

/-- `Lexer` in the mode `jsonLex`, between two tokens: the last token and the text that is left. -/
structure JsonLexer where
  last : Token
  text : Text
deriving DecidableEq, Repr

variable (l : JsonLexer)

namespace JsonLexer

def scan : (Token × Bool) × Text :=
  match skipBlank .space l.text with
  | .token s => tokenizeHeadJson l.last s
  | .divide s => ((.divide, false), s)
  | .unterminated => ((.tokenError, false), [])

/-- `PeekToken`. -/
def peek : Token := l.scan.1.1

/-- `GetQuotedExpr` of the next token. -/
def quotedExpr : Bool := l.scan.1.2

/-- `ConsumeToken`. -/
def next : JsonLexer := ⟨l.peek, l.scan.2⟩

/-- All commas in front are consumed. Each of them takes a character. -/
def slurpCommas : ℕ → JsonLexer → JsonLexer
  | 0, l => l
  | n + 1, l => if l.peek = .comma then slurpCommas n l.next else l

end JsonLexer

/-! ## Printing -/

/-- A hexadecimal digit of `%X`. -/
def hexDigit (n : ℕ) : Char :=
  if n < 10 then Char.ofNat ('0'.toNat + n) else Char.ofNat ('A'.toNat + n - 10)

/-- `UnparseAuxEscapeString` of a character. -/
def escapeCharJson (c : Char) : Text :=
  if c = '"' then ['\\', '"']
  else
    match c with
    | '\x08' => ['\\', 'b']
    | '\x0c' => ['\\', 'f']
    | '\n' => ['\\', 'n']
    | '\r' => ['\\', 'r']
    | '\t' => ['\\', 't']
    | '\\' => ['\\', '\\']
    | c =>
      if 0 < c.toNat ∧ c.toNat < 32 then
        "\\u00".toList ++ [hexDigit (c.toNat / 16), hexDigit (c.toNat % 16)]
      else [c]

/-- `UnparseAuxEscapeString`. -/
def escapeStringJson (s : Text) : Text := s.flatMap escapeCharJson

/-- `UnparseAuxQuoteExpr`. -/
def quoteExpr (expr : Text) : Text :=
  "\"\\/Expr(".toList ++ escapeStringJson expr ++ ")\\/\"".toList

/-- How reals are printed in JSON. -/
structure JsonNumerals extends Numerals where
  json : Text → Text

/-- `m_indentIncrement`. -/
def indentIncrement : ℕ := 2

def newLine (oneline : Bool) (level : ℕ) : Text :=
  if oneline then [] else '\n' :: List.replicate level ' '

variable (W : JsonNumerals)

/-- `ClassAdJsonUnParser::Unparse` of a value. -/
def unparseLiteralJson : Literal → Text
  | .string s => '"' :: escapeStringJson s ++ ['"']
  | .integer i => integerText i
  | .real r => W.json r
  | .boolean b => if b then "true".toList else "false".toList
  | .undefined => "null".toList
  | .error => quoteExpr "error".toList
  | .absTime s => quoteExpr ("absTime(\"".toList ++ W.absTime s ++ "\")".toList)
  | .relTime s => quoteExpr ("relTime(\"".toList ++ W.relTime s ++ "\")".toList)

mutual

/-- `ClassAdJsonUnParser::Unparse` of a tree, at an `m_indentLevel`. -/
def jsonUnparse (oneline : Bool) (level : ℕ) : Expr → Text
  | .literal l => unparseLiteralJson W l
  | .attrRef s n a => quoteExpr (unparse W.toNumerals .new (.attrRef s n a))
  | .op1 o e => quoteExpr (unparse W.toNumerals .new (.op1 o e))
  | .op2 o a b => quoteExpr (unparse W.toNumerals .new (.op2 o a b))
  | .op3 c m r => quoteExpr (unparse W.toNumerals .new (.op3 c m r))
  | .call f as => quoteExpr (unparse W.toNumerals .new (.call f as))
  | .classAd as =>
    '\x7b' :: unparseAttrsJson oneline (level + indentIncrement) as ++ newLine oneline
      level ++ ['\x7d']
  | .list es =>
    '[' :: unparseListJson oneline (level + indentIncrement) es ++ newLine oneline level ++ [']']

def unparseListJson (oneline : Bool) (level : ℕ) : List Expr → Text
  | [] => []
  | e :: es =>
    newLine oneline level ++ jsonUnparse oneline level e ++ unparseMoreJson oneline level es

def unparseMoreJson (oneline : Bool) (level : ℕ) : List Expr → Text
  | [] => []
  | e :: es =>
    ',' :: newLine oneline level ++ jsonUnparse oneline level e ++ unparseMoreJson oneline level es

/-- `UnparseAuxClassAd` between the braces. -/
def unparseAttrsJson (oneline : Bool) (level : ℕ) : List (Text × Expr) → Text
  | [] => []
  | a :: as => unparseAttrJson oneline level a ++ unparseMoreAttrsJson oneline level as

def unparseMoreAttrsJson (oneline : Bool) (level : ℕ) : List (Text × Expr) → Text
  | [] => []
  | a :: as => ',' :: unparseAttrJson oneline level a ++ unparseMoreAttrsJson oneline level as

def unparseAttrJson (oneline : Bool) (level : ℕ) : Text × Expr → Text
  | (n, e) =>
    newLine oneline level ++ '"' :: escapeStringJson n ++ "\": ".toList ++
      jsonUnparse oneline level e

end

/-! ## Parsing -/

variable (G : Dialect)

def quotedText (s : Text) : Option Text :=
  if caseEq (s.take 6) "/Expr(".toList ∧ s.drop (s.length - 2) = ")/".toList then
    some ((s.drop 6).take (s.length - 8))
  else none

/-- A string, or the expression that is quoted in it. The expression is in the new syntax. -/
def stringExpr (s : Text) (quoted : Bool) : Option Expr :=
  match (if quoted then quotedText s else none) with
  | some expr =>
    ((ClassAdParser.new { G with mode.oldClassAd := false }).parseExpression expr true).1
  | none => some (.literal (.string s))

mutual

/-- `ClassAdJsonParser::parseExpression`. The number of characters bounds that of the calls. -/
def parseExpressionJson : ℕ → JsonLexer → Option (Expr × JsonLexer)
  | 0, _ => none
  | n + 1, l =>
    match l.peek with
    | .openBrace => (parseClassAdJson n l).map fun (attrs, l) => (.classAd attrs, l)
    | .openBox => (parseExprListJson n l).map fun (es, l) => (.list es, l)
    | .undefinedValue => some (.literal .undefined, l.next)
    | .booleanValue b => some (.literal (.boolean b), l.next)
    | .integerValue i => some (.literal (.integer i), l.next)
    | .realValue r => some (.literal (.real r), l.next)
    | .stringValue s => (stringExpr G s l.quotedExpr).map fun e => (e, l.next)
    | _ => none

/-- `ClassAdJsonParser::parseClassAd`. -/
def parseClassAdJson : ℕ → JsonLexer → Option (List (Text × Expr) × JsonLexer)
  | 0, _ => none
  | n + 1, l => if l.peek = .openBrace then attrLoopJson n l.next.peek [] l.next else none

/-- The loop of `parseClassAd`, for the token that it tests; a comma keeps it. -/
def attrLoopJson : ℕ → Token → List (Text × Expr) → JsonLexer →
    Option (List (Text × Expr) × JsonLexer)
  | 0, _, _, _ => none
  | n + 1, tt, attrs, l =>
    if tt = .closeBrace then some (attrs, l.next)
    else
      match l.peek with
      | .comma => attrLoopJson n .comma attrs l.next
      | .stringValue s =>
        if l.next.peek = .colon then
          match parseExpressionJson n l.next.next with
          | none => none
          | some (e, l) =>
            if s = [] then none
            else if l.peek = .comma ∨ l.peek = .closeBrace then
              let l := l.slurpCommas l.text.length
              attrLoopJson n l.peek (Flat.put nameRank s e attrs) l
            else none
        else none
      | _ => none

/-- `ClassAdJsonParser::parseExprList`. -/
def parseExprListJson : ℕ → JsonLexer → Option (List Expr × JsonLexer)
  | 0, _ => none
  | n + 1, l => if l.peek = .openBox then exprLoopJson n l.next.peek [] l.next else none

/-- The loop of `parseExprList`, for the token that it tests; a comma keeps it. -/
def exprLoopJson : ℕ → Token → List Expr → JsonLexer → Option (List Expr × JsonLexer)
  | 0, _, _, _ => none
  | n + 1, tt, loe, l =>
    if tt = .closeBox then some (loe, l.next)
    else
      match parseExpressionJson n l with
      | none => none
      | some (e, l) =>
        match l.peek with
        | .comma => exprLoopJson n .comma (loe ++ [e]) l.next
        | .closeBox => exprLoopJson n .closeBox (loe ++ [e]) l
        | _ => none

end

/-- `ClassAdJsonParser` between two calls: `Initialize` keeps the type of the last token. -/
structure ClassAdJsonParser where
  dialect : Dialect
  last : Token

def ClassAdJsonParser.parseClassAd (p : ClassAdJsonParser) (buffer : Text) (full : Bool) :
    Option (List (Text × Expr)) :=
  let text := cstr buffer
  match parseClassAdJson p.dialect (3 * text.length + 3) ⟨p.last, text⟩ with
  | none => none
  | some (attrs, l) => if full ∧ l.peek ≠ .endOfInput then none else some attrs

end Condor.ClassAd
