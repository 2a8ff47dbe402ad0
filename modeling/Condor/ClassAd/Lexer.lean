import Condor.ClassAd.Syntax

/-!
# Tokens — the model of `Lexer`

The lexer splits a text into tokens. Only one thing in it depends on what came before: a minus sign
starts a number when the last token does not end an operand. The characters of the source and the
pending one are the text that is left, so that a step of the lexer takes the last token and a text
to a token and the rest of the text.
-/

namespace Condor.ClassAd

open List Char

/-- The token types, `LEX_*`, with the value of the token. -/
inductive Token where
  | tokenError
  | endOfInput
  | integerValue (i : ℤ)
  | realValue (digits : Text)
  | booleanValue (b : Bool)
  | stringValue (s : Text)
  | undefinedValue
  | errorValue
  | identifier (s : Text)
  | selection
  | multiply
  | divide
  | modulus
  | plus
  | minus
  | bitwiseAnd
  | bitwiseOr
  | bitwiseNot
  | bitwiseXor
  | leftShift
  | rightShift
  | urightShift
  | logicalAnd
  | logicalOr
  | logicalNot
  | lessThan
  | lessOrEqual
  | greaterThan
  | greaterOrEqual
  | equal
  | notEqual
  | metaEqual
  | metaNotEqual
  | boundTo
  | qmark
  | colon
  | comma
  | semicolon
  | openBox
  | closeBox
  | openParen
  | closeParen
  | openBrace
  | closeBrace
deriving DecidableEq, Repr

/-- `SetOldClassAd` and the global `_useOldClassAdSemantics`. -/
structure Mode where
  oldClassAd : Bool
  useOldClassAdSemantics : Bool
deriving DecidableEq, Repr

variable (m : Mode) (c : Char) (buf : Text) (och : Char)

def Mode.new : Mode := ⟨false, false⟩

/-! ## Characters -/

def isODigit : Bool := '0' ≤ c && c ≤ '7'

def isXDigit : Bool :=
  c.isDigit || ('a' ≤ c && c ≤ 'f') || ('A' ≤ c && c ≤ 'F')

def isIdent : Bool := c.isAlphanum || c = '_'

/-! ## Blanks and comments -/

/-- What the text in front of a token is part of. -/
inductive Skipping where
  | space
  | line
  | comment (star : Bool)
deriving DecidableEq, Repr

/-- What stands behind blanks and comments: a token, a division sign, or the end inside a comment.
-/
inductive Skipped where
  | token (s : Text)
  | divide (s : Text)
  | unterminated
deriving DecidableEq, Repr

/-- The loop of `PeekToken` over blanks and comments. -/
def skipBlank : Skipping → Text → Skipped
  | .space, [] => .token []
  | .space, '/' :: '/' :: s => skipBlank .line s
  | .space, '/' :: '*' :: s => skipBlank (.comment false) s
  | .space, '/' :: s => .divide s
  | .space, c :: s => if isSpace c then skipBlank .space s else .token (c :: s)
  | .line, [] => .token []
  | .line, c :: s => if c = '\n' then skipBlank .space s else skipBlank .line s
  | .comment _, [] => .unterminated
  | .comment star, c :: s =>
    if star && c = '/' then skipBlank .space s else skipBlank (.comment (c = '*')) s

/-! ## Numbers -/

def takeSign : Text → Bool × Text
  | '-' :: s => (true, s)
  | s => (false, s)

/-- An integer of 64 bits; a number that is out of range leaves the zero. -/
def int64 (i : ℤ) : ℤ := if -2 ^ 63 ≤ i ∧ i < 2 ^ 63 then i else 0

/-- `std::from_chars` to base ten. -/
def fromChars (s : Text) : ℤ :=
  let n : ℕ := Nat.ofDigitChars 10 ((takeSign s).2.takeWhile isDigit) 0
  int64 (if (takeSign s).1 then -n else n)

inductive NumberType where
  | none
  | integer
  | real
deriving DecidableEq, Repr

/-- A number as far as it has been read, or the token that was found in its place. -/
inductive Scanned where
  | number (kind : NumberType) (buf rest : Text)
  | token (t : Token) (rest : Text)
deriving DecidableEq, Repr

def startsExp (s : Text) : Bool := s.head?.any fun c => c.toLower = 'e'

/-- The character `c` is next. -/
def startsWith (s : Text) : Bool := s.head? = some c

/-- The digits in front of a point, behind the first character. -/
def scanDigits (s : Text) : Scanned :=
  if och = '0' then
    match s with
    | x :: s' =>
      if x.toLower = 'x' then
        if s'.takeWhile isXDigit = [] then .token .tokenError s'
        else .number .integer (buf ++ x :: s'.takeWhile isXDigit) (s'.dropWhile isXDigit)
      else
        let digits := s.takeWhile isDigit
        let rest := s.dropWhile isDigit
        if startsWith '.' rest || startsExp rest then .number .real (buf ++ digits) rest
        else if digits.all isODigit then .number .integer (buf ++ digits) rest
        else .token .tokenError rest
    | [] => .number .integer buf []
  else if och.isDigit then
    let rest := s.dropWhile isDigit
    .number (if startsWith '.' rest || startsExp rest then .real else .integer)
      (buf ++ s.takeWhile isDigit) rest
  else .number .none buf s

/-- The point and the digits behind it, or the selection operator. -/
def scanFraction : Scanned → Scanned
  | .number kind buf s =>
    if och = '.' || startsWith '.' s then
      let dot : Text := if startsWith '.' s then ['.'] else []
      let s := s.drop dot.length
      if s.takeWhile isDigit ≠ [] then
        .number .real (buf ++ dot ++ s.takeWhile isDigit) (s.dropWhile isDigit)
      else if kind ≠ .none then .token .tokenError s
      else .token .selection s
    else .number kind buf s
  | t => t

def scanExponent : Scanned → Scanned
  | .number .real buf s =>
    match s with
    | e :: s' =>
      if e.toLower = 'e' then
        let sign : Text := if startsWith '+' s' || startsWith '-' s' then s'.take 1 else []
        let s' := s'.drop sign.length
        if s'.takeWhile isDigit = [] then .token .tokenError s'
        else .number .real (buf ++ e :: sign ++ s'.takeWhile isDigit) (s'.dropWhile isDigit)
      else .number .real buf s
    | [] => .number .real buf s
  | t => t

/-- The letter of a factor is read, and then ignored by the parser. -/
def skipFactor : Text → Text
  | c :: s => if c.toUpper ∈ ['B', 'K', 'M', 'G', 'T'] then s else c :: s
  | [] => []

/-- The token of a number. A number without a kind does not come here. -/
def finishNumber : Scanned → Token × Text
  | .token t rest => (t, rest)
  | .number .integer buf rest =>
    if m.useOldClassAdSemantics ∧ startsWith '0' buf ∧ 1 < buf.length then (.tokenError, rest)
    else (.integerValue (fromChars buf), skipFactor rest)
  | .number _ buf rest => (.realValue buf, skipFactor rest)

def scanNumeral (s : Text) : Token × Text :=
  finishNumber m (scanExponent (scanFraction och (scanDigits buf och s)))

def tokenizeNumber : Text → Token × Text
  | '-' :: c :: s =>
    if c.isDigit then scanNumeral m ['-', c] c s
    else if c = '.' && s.head?.any isDigit then scanNumeral m ['-'] '-' (c :: s)
    else (.minus, c :: s)
  | '-' :: [] => (.minus, [])
  | c :: s => scanNumeral m [c] c s
  | [] => (.tokenError, [])

/-! ## Words -/

def reservedWord (w : Text) : Option Token :=
  if caseEq w "true".toList then some (.booleanValue true)
  else if caseEq w "false".toList then some (.booleanValue false)
  else if caseEq w "undefined".toList then some .undefinedValue
  else if caseEq w "error".toList then some .errorValue
  else if caseEq w "is".toList then some .metaEqual
  else if caseEq w "isnt".toList then some .metaNotEqual
  else none

def tokenizeAlphaHead (s : Text) : Token × Text :=
  let word := s.takeWhile isAlpha
  let rest := s.dropWhile isAlpha
  if rest.head?.any fun c => c.isDigit || c = '_' then
    (.identifier (word ++ rest.takeWhile isIdent), rest.dropWhile isIdent)
  else ((reservedWord word).getD (.identifier word), rest)

/-! ## Strings -/

/-- The character of an escape sequence of one letter; other characters stand for themselves. -/
def simpleEscape : Char → Char
  | 'a' => '\x07'
  | 'b' => '\x08'
  | 'f' => '\x0c'
  | 'n' => '\n'
  | 'r' => '\r'
  | 't' => '\t'
  | 'v' => '\x0b'
  | c => c

def octal : ℕ := c.toNat - '0'.toNat

/-- `convert_escapes`. A third octal digit is taken only when the first two are small enough. -/
def convertEscapes : Text → Text
  | '\\' :: c :: s =>
    if isODigit c then
      match s with
      | d :: s' =>
        if isODigit d then
          match s' with
          | e :: s'' =>
            if isODigit e && octal c * 8 + octal d < 0x20 then
              ofNat ((octal c * 8 + octal d) * 8 + octal e) :: convertEscapes s''
            else ofNat (octal c * 8 + octal d) :: convertEscapes (e :: s'')
          | [] => [ofNat (octal c * 8 + octal d)]
        else ofNat (octal c) :: convertEscapes (d :: s')
      | [] => [ofNat (octal c)]
    else simpleEscape c :: convertEscapes s
  | c :: s => c :: convertEscapes s
  | [] => []

/-- What a character of a string literal is part of. -/
inductive InString where
  /-- The string itself; a backslash may be pending. -/
  | text (odd : Bool)
  /-- The text behind the closing quote, where another string may follow. -/
  | closed
deriving DecidableEq, Repr

/-- The loop of `Lexer::tokenizeString`. Strings with only blanks between them are one string. -/
def scanString (delim : Char) : InString → Text → Option (Text × Text)
  | .text _, [] => none
  | .text odd, c :: s =>
    if c = delim && !odd then scanString delim .closed s
    else (scanString delim (.text (!odd && c = '\\')) s).map fun (w, rest) => (c :: w, rest)
  | .closed, [] => some ([], [])
  | .closed, c :: s =>
    if isSpace c then scanString delim .closed s
    else if c = delim then scanString delim (.text false) s
    else some ([], c :: s)

/-- The loop of `Lexer::tokenizeStringOld`: a backslash is special only in front of a quote with
text behind it. -/
def scanStringOld (delim : Char) : Text → Option (Text × Text)
  | [] => none
  | c :: s =>
    if c = delim then some ([], s)
    else if c = '\\' then
      match s with
      | d :: s' =>
        if d = delim then
          match s' with
          | [] => some ([c], [])
          | e :: s'' =>
            if e = '\n' then some ([c], s'')
            else (scanStringOld delim (e :: s'')).map fun (w, rest) => (d :: w, rest)
        else (scanStringOld delim (d :: s')).map fun (w, rest) => (c :: w, rest)
      | [] => none
    else (scanStringOld delim s).map fun (w, rest) => (c :: w, rest)

def stringToken (delim : Char) (w : Text) : Token :=
  if delim = '"' then .stringValue w else .identifier w

/-- `Lexer::tokenizeString`, behind the opening quote. -/
def tokenizeString (delim : Char) (s : Text) : Token × Text :=
  if m.oldClassAd then
    match scanStringOld delim s with
    | none => (.tokenError, [])
    | some (w, rest) => (stringToken delim w, rest)
  else
    match scanString delim (.text false) s with
    | none => (.tokenError, [])
    | some (w, rest) =>
      if nul ∈ convertEscapes w then (.tokenError, rest)
      else (stringToken delim (convertEscapes w), rest)

/-! ## Operators -/

def tokenizePunctOperator : Text → Token × Text
  | '.' :: s => (.selection, s)
  | '*' :: s => (.multiply, s)
  | '/' :: s => (.divide, s)
  | '%' :: s => (.modulus, s)
  | '+' :: s => (.plus, s)
  | '-' :: s => (.minus, s)
  | '~' :: s => (.bitwiseNot, s)
  | '^' :: s => (.bitwiseXor, s)
  | '?' :: s => (.qmark, s)
  | ':' :: s => (.colon, s)
  | ';' :: s => (.semicolon, s)
  | ',' :: s => (.comma, s)
  | '[' :: s => (.openBox, s)
  | ']' :: s => (.closeBox, s)
  | '(' :: s => (.openParen, s)
  | ')' :: s => (.closeParen, s)
  | '\x7b' :: s => (.openBrace, s)
  | '\x7d' :: s => (.closeBrace, s)
  | '&' :: '&' :: s => (.logicalAnd, s)
  | '&' :: s => (.bitwiseAnd, s)
  | '|' :: '|' :: s => (.logicalOr, s)
  | '|' :: s => (.bitwiseOr, s)
  | '<' :: '=' :: s => (.lessOrEqual, s)
  | '<' :: '<' :: s => (.leftShift, s)
  | '<' :: s => (.lessThan, s)
  | '>' :: '=' :: s => (.greaterOrEqual, s)
  | '>' :: '>' :: '>' :: s => (.urightShift, s)
  | '>' :: '>' :: s => (.rightShift, s)
  | '>' :: s => (.greaterThan, s)
  | '=' :: '=' :: s => (.equal, s)
  | '=' :: '?' :: '=' :: s => (.metaEqual, s)
  | '=' :: '?' :: s => (.tokenError, s)
  | '=' :: '!' :: '=' :: s => (.metaNotEqual, s)
  -- at the end of the source nothing is read, but one character is put back
  | '=' :: '!' :: [] => (.boundTo, ['!', '!'])
  | '=' :: s => (.boundTo, s)
  | '!' :: '=' :: s => (.notEqual, s)
  | '!' :: s => (.logicalNot, s)
  | _ :: s => (.tokenError, s)
  | [] => (.tokenError, [])

/-! ## Tokens -/

/-- The tokens behind which a minus sign is an operator. -/
def Token.endsOperand : Token → Bool
  | integerValue _ | realValue _ | booleanValue _ | stringValue _ | undefinedValue | errorValue
  | identifier _ | selection | closeBox | closeParen | closeBrace => true
  | _ => false

def tokenizeHead (last : Token) : Text → Token × Text
  | [] => (.endOfInput, [])
  | c :: s =>
    if c = '-' then
      if last.endsOperand then tokenizePunctOperator (c :: s) else tokenizeNumber m (c :: s)
    else if c.isDigit || c = '.' then tokenizeNumber m (c :: s)
    else if c.isAlpha || c = '_' then tokenizeAlphaHead (c :: s)
    else if c = '"' || c = '\'' then tokenizeString m c s
    else tokenizePunctOperator (c :: s)

/-- `Lexer::PeekToken` on a consumed token. -/
def peekToken (last : Token) (s : Text) : Token × Text :=
  match skipBlank .space s with
  | .token s => tokenizeHead m last s
  | .divide s => (.divide, s)
  | .unterminated => (.tokenError, [])

/-- The tokens of a text up to the end of the input. -/
def tokensLoop (m : Mode) : ℕ → Token → Text → List Token
  | 0, _, _ => []
  | n + 1, last, s =>
    match peekToken m last s with
    | (.endOfInput, _) => []
    | (t, s) => t :: tokensLoop m n t s

/-- The tokens of a text, whose length bounds their number. -/
def tokens (last : Token) (s : Text) : List Token :=
  tokensLoop m (s.length + 2) last (s.takeWhile (· ≠ nul))

/-! ## What a step returns -/

/-- The tokens in the place of a number end in the text. -/
def Scanned.Within (s : Text) : Scanned → Prop
  | .number _ _ rest => rest <:+ s
  | .token t rest => (t = .tokenError ∨ t = .selection) ∧ rest <:+ s

theorem within_scanDigits (s : Text) : (scanDigits buf och s).Within s := by
  simp only [scanDigits]
  repeat' split
  all_goals simp only [Scanned.Within, true_or, true_and]
  all_goals first
    | exact dropWhile_suffix _
    | exact suffix_rfl
    | exact suffix_cons _ _
    | exact (dropWhile_suffix _).trans (suffix_cons _ _)

variable {x : Scanned} {s : Text}

theorem within_scanFraction (h : x.Within s) : (scanFraction och x).Within s := by
  cases x with
  | token t rest => exact h
  | number kind buf rest =>
    have hdrop : ∀ n, rest.drop n <:+ s := fun n => (drop_suffix n rest).trans h
    simp only [scanFraction]
    split_ifs
    all_goals simp only [Scanned.Within, true_or, or_true, true_and]
    all_goals first
      | exact (dropWhile_suffix _).trans (hdrop _)
      | exact hdrop _
      | exact h

theorem within_scanExponent (h : x.Within s) : (scanExponent x).Within s := by
  fun_cases scanExponent x
  case case1 e s' _ sign s'' _ =>
    exact ⟨.inl rfl, (drop_suffix _ _).trans ((suffix_cons _ _).trans h)⟩
  case case2 e s' _ sign s'' _ =>
    exact (dropWhile_suffix _).trans
      ((drop_suffix _ _).trans ((suffix_cons _ _).trans h))
  all_goals exact h

theorem skipFactor_suffix : skipFactor s <:+ s := by
  fun_cases skipFactor s
  · exact suffix_cons _ _
  · exact suffix_rfl
  · exact suffix_rfl

/-- The tokens of numbers, with integers of 64 bits, and what may be found in their place. -/
def Token.IsNumber : Token → Prop
  | tokenError | selection | minus | realValue _ => True
  | integerValue i => -2 ^ 63 ≤ i ∧ i < 2 ^ 63
  | _ => False

theorem int64_range (i : ℤ) : -2 ^ 63 ≤ int64 i ∧ int64 i < 2 ^ 63 := by
  rw [int64]
  split
  next h => exact h
  next => norm_num

theorem int64_eq {i : ℤ} (h : -2 ^ 63 ≤ i ∧ i < 2 ^ 63) : int64 i = i := if_pos h

theorem finishNumber_spec (h : x.Within s) :
    (finishNumber m x).1.IsNumber ∧ (finishNumber m x).2 <:+ s := by
  fun_cases finishNumber m x
  case case1 t rest =>
    obtain ⟨ht, hrest⟩ := h
    exact ⟨by rcases ht with rfl | rfl <;> trivial, hrest⟩
  case case2 => exact ⟨trivial, h⟩
  case case3 => exact ⟨int64_range _, (skipFactor_suffix).trans h⟩
  case case4 => exact ⟨trivial, (skipFactor_suffix).trans h⟩

theorem scanNumeral_spec : (scanNumeral m buf och s).1.IsNumber ∧
    (scanNumeral m buf och s).2 <:+ s :=
  finishNumber_spec m
    (within_scanExponent (within_scanFraction och (within_scanDigits buf och s)))

theorem tokenizeNumber_spec (s : Text) :
    (tokenizeNumber m s).1.IsNumber ∧ (tokenizeNumber m s).2 <:+ s := by
  fun_cases tokenizeNumber m s
  case case1 c s _ =>
    exact ⟨(scanNumeral_spec ..).1, (scanNumeral_spec ..).2.trans
      ((suffix_cons _ _).trans (suffix_cons _ _))⟩
  case case2 c s _ _ =>
    exact ⟨(scanNumeral_spec ..).1, (scanNumeral_spec ..).2.trans (suffix_cons _ _)⟩
  case case3 c s _ _ => exact ⟨trivial, suffix_cons _ _⟩
  case case4 => exact ⟨trivial, suffix_cons _ _⟩
  case case5 c s _ _ =>
    exact ⟨(scanNumeral_spec ..).1, (scanNumeral_spec ..).2.trans (suffix_cons _ _)⟩
  case case6 => exact ⟨trivial, suffix_rfl⟩

end Condor.ClassAd
