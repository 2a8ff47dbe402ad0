import Condor.ClassAd.Grammar

/-!
# Reuse — a parser after other calls

`Lexer::Initialize` keeps the type of the last token of the text before. It is looked at once, when
the new text starts with a minus sign: behind an operand the sign is an operator, and at the start
of a text it belongs to the number.

* **`call_after_eq`**.
-/

namespace Condor.ClassAd

open Descent Cursor ClassAdParser

variable (p : ClassAdParser)

/-! ## Calls -/

/-- A call of a parser. -/
inductive Call where
  | expression (s : Text) (full : Bool)
  | classAd (s : Text) (full : Bool)

/-- The result of a call. -/
inductive Parsed where
  | expression (e : Option Expr)
  | classAd (attrs : Option (List (Text × Expr)))

def ClassAdParser.call : Call → Parsed × ClassAdParser
  | .expression s full => (p.parseExpression s full).map .expression id
  | .classAd s full => (p.parseClassAd s full).map .classAd id

def ClassAdParser.after (cs : List Call) : ClassAdParser :=
  cs.foldl (fun p c => (p.call c).2) p

theorem dialect_call (c : Call) : (p.call c).2.dialect = p.dialect := by
  cases c <;> simp [ClassAdParser.call, ClassAdParser.parseExpression, ClassAdParser.parseClassAd]

theorem dialect_after (cs : List Call) : (p.after cs).dialect = p.dialect := by
  induction cs generalizing p with
  | nil => rfl
  | cons c cs ih => exact (ih _).trans (dialect_call p c)

/-! ## The last token -/

/-- The text of the first token is a minus sign and a digit, or a point and a digit behind it. -/
def isNegative : Text → Bool
  | '-' :: c :: s => c.isDigit || (c = '.' && s.head?.any Char.isDigit)
  | _ => false

/-- The first token of a text is a negative number, unless a minus sign is an operator there. -/
def startsNegative (s : Text) : Bool :=
  match skipBlank .space (s.takeWhile (· ≠ nul)) with
  | .token s => isNegative s
  | _ => false

/-- The last token does not change how the text of the call is read. -/
def Call.Independent (last : Token) : Call → Prop
  | .expression s _ => last.endsOperand = false ∨ startsNegative s = false
  | .classAd _ _ => True

variable {s : Text} {m : Mode} {last : Token}

theorem tokenizeNumber_minus (h : isNegative ('-' :: s) = false) :
    tokenizeNumber m ('-' :: s) = tokenizePunctOperator ('-' :: s) := by
  cases s with
  | nil => rfl
  | cons c s =>
    simp only [isNegative, Bool.or_eq_false_iff] at h
    simp [tokenizeNumber, tokenizePunctOperator, h.1, h.2]

theorem tokenizeHead_eq (h : last.endsOperand = false ∨ isNegative s = false) :
    tokenizeHead m last s = tokenizeHead m .endOfInput s := by
  cases s with
  | nil => rfl
  | cons c s =>
    by_cases hc : c = '-'
    · subst hc
      simp only [tokenizeHead]
      rcases h with h | h
      · rw [h]
        rfl
      · rw [tokenizeNumber_minus h]
        simp
    · simp [tokenizeHead, hc]

theorem tokens_eq (h : last.endsOperand = false ∨ startsNegative s = false) :
    tokens m last s = tokens m .endOfInput s := by
  have hpeek : peekToken m last (s.takeWhile (· ≠ nul)) =
      peekToken m .endOfInput (s.takeWhile (· ≠ nul)) := by
    unfold startsNegative at h
    unfold peekToken
    split
    next s' hs =>
      rw [hs] at h
      exact tokenizeHead_eq h
    next => rfl
    next => rfl
  rw [tokens, tokens, tokensLoop, tokensLoop, hpeek]

theorem isNegative_eq (h : isNegative s = true) : ∃ c s', s = '-' :: c :: s' := by
  unfold isNegative at h
  split at h
  next c s' => exact ⟨c, s', rfl⟩
  next => cases h

theorem peekToken_ne_openBox (h : startsNegative s = true) :
    (peekToken m last (s.takeWhile (· ≠ nul))).1 ≠ .openBox := by
  unfold startsNegative at h
  unfold peekToken
  split
  next s' hs =>
    rw [hs] at h
    obtain ⟨c, s', rfl⟩ := isNegative_eq h
    simp only [tokenizeHead, if_true]
    split_ifs
    · simp [tokenizePunctOperator]
    · intro he
      have hnum := (tokenizeNumber_spec m ('-' :: c :: s')).1
      rw [he] at hnum
      exact hnum
  next => simp
  next => simp

theorem head_tokens :
    (tokens m last s).headD default = (peekToken m last (s.takeWhile (· ≠ nul))).1 := by
  rw [tokens, tokensLoop]
  split
  next h => rw [h]; rfl
  next t s' _ h => rw [h]; rfl

/-! ## Parsers that start with a look at the next token -/

theorem blind_unary (P : Env) (expr : Parse Expr) (n : ℕ) : Blind (unaryLoop P expr (n + 1)) := by
  intro l l' h
  rw [unaryLoop, unaryLoop, head_congr h, next_congr h, peek_congr h]

theorem blind_logicalOR {P : Env} (hfuel : P.fuel ≠ 0) (expr : Parse Expr) :
    Blind (parseLogicalORExpression P expr) := by
  obtain ⟨n, hn⟩ := Nat.exists_eq_succ_of_ne_zero hfuel
  rw [parseLogicalOR_eq]
  refine levels_induction ?_
    fun op ops _ ih => blind_chain ih
  intro l l' h
  have hun := blind_unary P expr n l l' h
  rwa [← Nat.succ_eq_add_one, ← hn] at hun

theorem blind_parseTop (G : Dialect) (full : Bool) : Blind (parseTop G full) := by
  intro l l' h
  have henv : sourceEnv G l = sourceEnv G l' := by rw [sourceEnv, h, sourceEnv]
  rw [parseTop, parseTop, henv, expression, expression,
    blind_logicalOR (by simp [sourceEnv]) _ l l' h]

theorem blind_parseTopClassAd (G : Dialect) (full : Bool) : Blind (parseTopClassAd G full) := by
  intro l l' h
  have henv : sourceEnv G l = sourceEnv G l' := by rw [sourceEnv, h, sourceEnv]
  rw [parseTopClassAd, parseTopClassAd, henv, head_congr h, next_congr h]

/-! ## Independence of the history -/

theorem parseExpression_eq_new {p : ClassAdParser}
    (h : p.last.endsOperand = false ∨ startsNegative s = false) (full : Bool) :
    (p.parseExpression s full).1 = ((ClassAdParser.new p.dialect).parseExpression s full).1 := by
  simp only [ClassAdParser.parseExpression, Prod.map_fst]
  exact congrArg Prod.fst (blind_parseTop p.dialect full _ _ (tokens_eq h))

theorem parseClassAd_eq_new (full : Bool) :
    (p.parseClassAd s full).1 = ((ClassAdParser.new p.dialect).parseClassAd s full).1 := by
  by_cases h : startsNegative s = true
  · have hnone : ∀ q : ClassAdParser, (q.parseClassAd s full).1 = none := by
      intro q
      have hhead : (q.initializeLexer s).head ≠ .openBox := by
        rw [head, ClassAdParser.initializeLexer, head_tokens]
        exact peekToken_ne_openBox h
      simp [ClassAdParser.parseClassAd, parseTopClassAd, if_neg hhead]
    rw [hnone, hnone]
  · simp only [ClassAdParser.parseClassAd, Prod.map_fst]
    exact congrArg Prod.fst (blind_parseTopClassAd p.dialect full _ _
      (tokens_eq (.inr (Bool.eq_false_iff.mpr h))))

theorem call_eq_new {p : ClassAdParser} {c : Call} (h : c.Independent p.last) :
    (p.call c).1 = ((new p.dialect).call c).1 := by
  cases c with
  | expression s full =>
    simp only [call, Prod.map_fst]
    rw [parseExpression_eq_new h full]
  | classAd s full =>
    simp only [call, Prod.map_fst]
    rw [parseClassAd_eq_new]

/-- **A call returns what it returns on a new parser**, unless its text starts with a negative
number behind the end of an operand. -/
theorem call_after_eq (G : Dialect) (cs : List Call) (c : Call)
    (h : c.Independent ((new G).after cs).last) :
    (((new G).after cs).call c).1 = ((new G).call c).1 := by
  have hdialect : ((new G).after cs).dialect = G := dialect_after _ cs
  rw [call_eq_new h, hdialect]

/-- The dialect of the new syntax, without time literals. -/
def newDialect : Dialect := ⟨.new, fun _ => false, fun _ => false⟩

theorem call_after_eq_failed : (((new newDialect).after [.expression "1 +".toList true]).call
      (.expression "-5".toList true)).1 =
      ((new newDialect).call (.expression "-5".toList true)).1 :=
  call_after_eq newDialect [.expression "1 +".toList true] (.expression "-5".toList true)
    (.inl (by decide))

/-- After an ad, a negative number becomes an operation. -/
theorem call_after_classAd_differs : (((new newDialect).after [.classAd "[]".toList false]).call
        (.expression "-5".toList true)).1 =
          .expression (some (.op1 .unaryMinus (.literal (.integer 5)))) ∧
      ((new newDialect).call (.expression "-5".toList true)).1 =
          .expression (some (.literal (.integer (-5)))) :=
  ⟨rfl, rfl⟩

end Condor.ClassAd
