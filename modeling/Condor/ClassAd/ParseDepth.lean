import Condor.Lib.Activations
import Condor.ClassAd.Spelling

/-!
# The depth of the parser — how many parse functions are active

The guard of `parseExpression` counts its own calls only. A unary operator is read by a call of
`parseUnaryExpression` from itself, which does not pass the guard.

* **`parseExpressionCalls_le`**;
* **`active_calls_bounded_iff`**.
-/

namespace Condor.ClassAd

open Descent List Nat Cursor ClassAdParser

variable (p : ClassAdParser)

/-! ## Active functions -/

section Calls

variable (P : Env) (expr : Parse Expr) (calls : Lexer → ℕ)

def attrLoopCalls : ℕ → Token → List (Text × Expr) → Lexer → ℕ
  | 0, _, _, _ => 0
  | n + 1, tt, attrs, l =>
    if tt = .closeBox then 0
    else
      match l.head with
      | .semicolon => attrLoopCalls n .semicolon attrs l.next
      | .identifier s =>
        let l := l.next
        if l.head = .boundTo then
          max (calls l.next) (behind (expr l.next) fun e l =>
            if s = [] then 0
            else if l.head = .semicolon ∨ l.head = .closeBox then
              let l := skipSemicolons l.rest
              attrLoopCalls n l.head (Flat.put nameRank s e attrs) l
            else 0)
        else 0
      | _ => 0

/-- `parseClassAd`. -/
def parseClassAdCalls (l : Lexer) : ℕ := attrLoopCalls expr calls P.fuel l.head [] l.peek + 1

/-- `parsePrimaryExpression`. -/
def primaryCalls (l : Lexer) : ℕ :=
  let l' := l.next
  (match l.head with
    | .identifier _ =>
      if l'.head = .openParen then
        itemsCalls (isArgSep P.toDialect) (· = .closeParen) expr calls P.fuel l'.next
      else 0
    | .openParen => calls l'
    | .openBox => parseClassAdCalls P expr calls l'
    | .openBrace => itemsCalls (· = .comma) (· = .closeBrace) expr calls P.fuel l'
    | _ => 0) + 1

def postfixLoopCalls : ℕ → Expr → Lexer → ℕ
  | 0, _, _ => 0
  | n + 1, e, l =>
    match l.head with
    | .openBox =>
      max (calls l.next) (behind (expr l.next) fun i l =>
        if l.head = .closeBox then postfixLoopCalls n (.op2 .subscript e i) l.next else 0)
    | .selection =>
      let l := l.next
      match l.head with
      | .identifier s => postfixLoopCalls n (.attrRef (some e) s false) l.next
      | _ => 0
    | _ => 0

/-- `parsePostfixExpression`. -/
def postfixCalls (l : Lexer) : ℕ :=
  max (primaryCalls P expr calls l)
    (behind (parsePrimaryExpression P expr l) fun e l => postfixLoopCalls expr calls P.fuel e l) + 1

/-- `parseUnaryExpression`. -/
def unaryCalls : ℕ → Lexer → ℕ
  | 0, _ => 0
  | n + 1, l =>
    (match unaryOp l.head with
      | some _ => unaryCalls n l.next
      | none => postfixCalls P expr calls l.peek) + 1

/-- The parse functions of some of the levels of binary operators. -/
def levelsCalls : List (Token → Option OpKind) → Lexer → ℕ
  | [] => unaryCalls P expr calls P.fuel
  | op :: ops => chainCalls op Expr.op2 (parseLevels P expr ops) (levelsCalls ops) P.fuel

def ternaryCalls (l : Lexer) : ℕ :=
  if l.head = .colon then calls l.next
  else
    let (m, l') := expr l.peek
    max (calls l.peek)
      (if l'.head = .colon then (if P.checked && m.isNone then 0 else calls l'.next) else 0)

/-- `parseExpression` below the guard. -/
def expressionCalls (l : Lexer) : ℕ :=
  max (levelsCalls P expr calls levels l)
    (behind (parseLogicalORExpression P expr l) fun _ l =>
      if l.head = .qmark then ternaryCalls P expr calls l.next else 0) + 1

end Calls

/-- `parseExpression`, when `n` calls may be nested; a rejected call is active too. -/
def parseExpressionCalls (P : Env) : ℕ → Lexer → ℕ
  | 0 => fun _ => 1
  | n + 1 => expressionCalls P (parseExpression P n) (parseExpressionCalls P n)

/-- `parseClassAd` as it is called from outside. -/
def topClassAdCalls (G : Dialect) (l : Lexer) : ℕ :=
  let P := sourceEnv G l
  if l.head = .openBox then
    parseClassAdCalls P (parseExpression P maxDepth) (parseExpressionCalls P maxDepth) l.next
  else 1

/-- The largest number of parse functions that are active during `ParseExpression`. -/
def ClassAdParser.expressionCalls (s : Text) : ℕ :=
  parseExpressionCalls (sourceEnv p.dialect (p.initializeLexer s)) maxDepth (p.initializeLexer s)

/-- The largest number of parse functions that are active during `ParseClassAd`. -/
def ClassAdParser.classAdCalls (s : Text) : ℕ :=
  topClassAdCalls p.dialect (p.initializeLexer s)

/-! ## A bound -/

section Bound

variable {P : Env} {expr : Parse Expr} {calls : Lexer → ℕ} {Q : List Token → Prop} {k : ℕ}

section

variable (hQ : Closed Q) (hexpr : Forward expr) (hcalls : Bounded Q calls k)
include hQ hexpr hcalls

theorem attrLoopCalls_le (n : ℕ)
    (tt : Token) (attrs : List (Text × Expr)) :
    Bounded Q (attrLoopCalls expr calls n tt attrs) k := by
  induction n generalizing tt attrs with
  | zero => exact fun _ _ => Nat.zero_le k
  | succ n ih =>
    intro l hl
    have hnext : Q l.next.rest := hQ l.next_suffix hl
    have hnext' : Q l.next.next.rest := hQ l.next.next_suffix hnext
    rw [attrLoopCalls]
    split
    · exact Nat.zero_le k
    · split
      · exact ih _ _ _ hnext
      · dsimp only
        split
        · refine Nat.max_le.mpr ⟨hcalls _ hnext', behind_le fun e => ?_⟩
          have hexpr' := hQ (hexpr l.next.next) hnext'
          split
          · exact Nat.zero_le k
          · split
            · exact ih _ _ _ (hQ (skipSemicolons_suffix _) hexpr')
            · exact Nat.zero_le k
        · exact Nat.zero_le k
      · exact Nat.zero_le k

theorem parseClassAdCalls_le : Bounded Q (parseClassAdCalls P expr calls) (k + 1) := fun l hl =>
  succ_le_succ (attrLoopCalls_le hQ hexpr hcalls _ _ _ l.peek hl)

theorem primaryCalls_le : Bounded Q (primaryCalls P expr calls) (k + 2) := by
  intro l hl
  have hnext : Q l.next.rest := hQ l.next_suffix hl
  refine succ_le_succ ?_
  split
  · split
    · exact itemsCalls_le hQ hexpr hcalls _ _ (hQ l.next.next_suffix hnext)
    · exact zero_le _
  · exact le_succ_of_le (hcalls _ hnext)
  · exact parseClassAdCalls_le hQ hexpr hcalls _ hnext
  · exact itemsCalls_le hQ hexpr hcalls _ _ hnext
  · exact zero_le _

theorem postfixLoopCalls_le (n : ℕ) (e : Expr) : Bounded Q (postfixLoopCalls expr calls n e) k := by
  induction n generalizing e with
  | zero => exact fun _ _ => Nat.zero_le k
  | succ n ih =>
    intro l hl
    have hnext : Q l.next.rest := hQ l.next_suffix hl
    rw [postfixLoopCalls]
    split
    · refine Nat.max_le.mpr ⟨hcalls _ hnext, behind_le fun i => ?_⟩
      split
      · exact ih _ _ (hQ next_suffix (hQ (hexpr _) hnext))
      · exact Nat.zero_le k
    · dsimp only
      split
      · exact ih _ _ (hQ l.next.next_suffix hnext)
      · exact Nat.zero_le k
    · exact Nat.zero_le k

theorem postfixCalls_le : Bounded Q (postfixCalls P expr calls) (k + 3) := fun l hl =>
  Nat.succ_le_succ (Nat.max_le.mpr ⟨primaryCalls_le hQ hexpr hcalls l hl, behind_le fun e =>
    Nat.le_add_right_of_le
      (postfixLoopCalls_le hQ hexpr hcalls _ e _ (hQ (forward_primary hexpr l) hl))⟩)

end

def isUnary (t : Token) : Bool := (unaryOp t).isSome

theorem unaryCalls_le (hQ : Closed Q) (hexpr : Forward expr) (hcalls : Bounded Q calls k) (n : ℕ)
    (l : Lexer) (hl : Q l.rest) :
    unaryCalls P expr calls n l ≤ k + 4 + (l.rest.takeWhile isUnary).length := by
  induction n generalizing l with
  | zero => exact zero_le _
  | succ n ih =>
    rw [unaryCalls]
    split
    · next o ho =>
      have hne : l.head ≠ default := fun h => by rw [h] at ho; cases ho
      have hcons := rest_of_head_ne hne
      have hun : isUnary l.head = true := by rw [isUnary, ho]; rfl
      have hlen : (l.rest.takeWhile isUnary).length =
          (l.next.rest.takeWhile isUnary).length + 1 := by
        rw [hcons, takeWhile_cons_of_pos hun]
        rfl
      have htail := ih l.next (hQ l.next_suffix hl)
      omega
    · have hpost := postfixCalls_le (P := P) hQ hexpr hcalls l.peek hl
      omega

theorem forward_parseLevels (hexpr : Forward expr) (ops : List (Token → Option OpKind)) :
    Forward (parseLevels P expr ops) := by
  induction ops with
  | nil => exact forward_unary hexpr
  | cons op ops ih => exact forward_chain ih

variable {run : ℕ}

theorem levelsCalls_le (hQ : Closed Q) (hrun : ∀ ts, Q ts → longestRun isUnary ts ≤ run)
    (hexpr : Forward expr) (hcalls : Bounded Q calls k) (ops : List (Token → Option OpKind)) :
    Bounded Q (levelsCalls P expr calls ops) (k + 4 + run + ops.length) := by
  induction ops with
  | nil =>
    intro l hl
    have hunary := unaryCalls_le (P := P) hQ hexpr hcalls P.fuel l hl
    have hle := length_takeWhile_le_longestRun isUnary l.rest
    have hlong := hrun l.rest hl
    rw [levelsCalls]
    omega
  | cons op ops ih => exact chainCalls_le hQ (forward_parseLevels hexpr ops) ih _

theorem ternaryCalls_le (hQ : Closed Q) (hexpr : Forward expr) (hcalls : Bounded Q calls k) :
    Bounded Q (ternaryCalls P expr calls) k := by
  intro l hl
  have hnext : Q l.next.rest := hQ l.next_suffix hl
  have hmiddle : Q (expr l.peek).2.next.rest := hQ next_suffix (hQ (hexpr l.peek) hl)
  rw [ternaryCalls]
  split
  · exact hcalls _ hnext
  · refine Nat.max_le.mpr ⟨hcalls _ hl, ?_⟩
    split
    · split
      · exact Nat.zero_le k
      · exact hcalls _ hmiddle
    · exact Nat.zero_le k

section

variable (hQ : Closed Q) (hrun : ∀ ts, Q ts → longestRun isUnary ts ≤ run)
include hQ hrun

theorem expressionCalls_le (hexpr : Forward expr) (hcalls : Bounded Q calls k) :
    Bounded Q (expressionCalls P expr calls) (k + (15 + run)) := by
  intro l hl
  have hlevels := levelsCalls_le (P := P) hQ hrun hexpr hcalls levels l hl
  have hlen : levels.length = 10 := rfl
  have hbehind : (behind (parseLogicalORExpression P expr l) fun _ l =>
      if l.head = .qmark then ternaryCalls P expr calls l.next else 0) ≤ k := by
    refine behind_le fun _ => ?_
    split
    · exact ternaryCalls_le hQ hexpr hcalls _ (hQ next_suffix (hQ (forward_logicalOR hexpr l) hl))
    · exact zero_le k
  rw [expressionCalls]
  omega

/-- **The nesting and the runs of unary operators bound the number of active functions.** -/
theorem parseExpressionCalls_le (n : ℕ) :
    Bounded Q (parseExpressionCalls P n) (n * (15 + run) + 1) := by
  induction n with
  | zero => exact fun _ _ => le_add_left 1 _
  | succ n ih =>
    intro l hl
    have hforward : Forward (parseExpression P n) := forward_parseExpression
    have hstep := expressionCalls_le (P := P) hQ hrun hforward ih l hl
    rw [parseExpressionCalls, succ_mul]
    omega

end

end Bound

/-! ## Runs of unary operators -/

def tildes (n : ℕ) : Text := replicate n '~' ++ ['a']

def tildeTokens (n : ℕ) : List Token := replicate n .bitwiseNot ++ [.identifier ['a']]

theorem lexes_tildes (m : Mode) (last : Token) (n : ℕ) :
    Lexes m last (tildes n) (tildeTokens n) := by
  induction n generalizing last with
  | zero => exact .step rfl (by simp) (.done rfl)
  | succ n ih => exact .step rfl (by simp) (ih _)

theorem tokens_tildes (m : Mode) (last : Token) (n : ℕ) :
    tokens m last (tildes n) = tildeTokens n := by
  refine tokens_of_lexes (lexes_tildes m last n) ?_ ?_
  · intro c hc
    rcases mem_append.mp hc with hc | hc
    · rw [eq_of_mem_replicate hc]
      decide
    · rw [mem_singleton.mp hc]
      decide
  · simp [tildeTokens, tildes]

theorem le_unaryCalls (P : Env) (expr : Parse Expr) (calls : Lexer → ℕ) {n fuel : ℕ}
    (hfuel : n < fuel) (l : Lexer) (hl : l.rest = tildeTokens n) :
    n ≤ unaryCalls P expr calls fuel l := by
  induction n generalizing l fuel with
  | zero => exact zero_le _
  | succ n ih =>
    obtain _ | fuel := fuel
    · omega
    have hrest : l.rest = .bitwiseNot :: tildeTokens n := hl
    have hhead : l.head = .bitwiseNot := head_of_rest hrest
    have hlt : n < fuel := by omega
    have hcalls := ih hlt l.next (by rw [rest_next, hrest]; rfl)
    rw [unaryCalls, hhead]
    exact succ_le_succ hcalls

theorem unaryCalls_le_levelsCalls {P : Env} {expr : Parse Expr} {calls : Lexer → ℕ}
    (ops : List (Token → Option OpKind)) (l : Lexer) :
    unaryCalls P expr calls P.fuel l ≤ levelsCalls P expr calls ops l := by
  induction ops with
  | nil => exact le_refl _
  | cons op ops ih => exact ih.trans (le_chainCalls P.fuel l)

theorem le_expressionCalls (n : ℕ) : n ≤ p.expressionCalls (tildes n) := by
  have hrest : (p.initializeLexer (tildes n)).rest = tildeTokens n := tokens_tildes _ _ n
  have hfuel : n < (sourceEnv p.dialect (p.initializeLexer (tildes n))).fuel := by
    rw [sourceEnv, hrest, tildeTokens, length_append, length_replicate]
    exact lt_succ_of_le (le_add_right n 1)
  have hunary := le_unaryCalls (sourceEnv p.dialect (p.initializeLexer (tildes n)))
    (parseExpression (sourceEnv p.dialect (p.initializeLexer (tildes n))) 999)
    (parseExpressionCalls (sourceEnv p.dialect (p.initializeLexer (tildes n))) 999) hfuel _ hrest
  refine hunary.trans ((unaryCalls_le_levelsCalls levels _).trans ?_)
  exact le_succ_of_le (le_max_left _ _)

/-- The longest run of unary operators in a text. -/
def ClassAdParser.unaryRun (s : Text) : ℕ := longestRun isUnary (p.initializeLexer s).rest

/-- **Among the texts whose longest run of unary operators is in `R`, the number of active parse
functions is bounded if and only if `R` is.** -/
theorem active_calls_bounded_iff (R : ℕ → Prop) :
    (∃ K, ∀ s, R (p.unaryRun s) → p.expressionCalls s ≤ K ∧ p.classAdCalls s ≤ K) ↔
      ∃ run, ∀ n, R n → n ≤ run := by
  constructor
  · rintro ⟨K, hK⟩
    refine ⟨K, fun n hn => (le_expressionCalls p n).trans (hK (tildes n) ?_).1⟩
    have hrun : p.unaryRun (tildes n) = n := by
      rw [unaryRun, initializeLexer, tokens_tildes]
      exact longestRun_replicate isUnary rfl rfl n
    rwa [hrun]
  · rintro ⟨run, hrun⟩
    refine ⟨maxDepth * (15 + run) + 2, fun s hs => ?_⟩
    have hclosed := closed_longestRun isUnary run
    have hbound := parseExpressionCalls_le (P := sourceEnv p.dialect (p.initializeLexer s)) hclosed
      (fun _ h => h) maxDepth
    have hl : longestRun isUnary (p.initializeLexer s).rest ≤ run := hrun _ hs
    refine ⟨le_succ_of_le (hbound _ hl), ?_⟩
    rw [classAdCalls, topClassAdCalls]
    split
    · exact parseClassAdCalls_le hclosed forward_parseExpression hbound _
        (hclosed next_suffix hl)
    · omega

/-- No number bounds the active parse functions for all texts. -/
theorem active_calls_unbounded :
    ¬ ∃ K, ∀ s, (new ⟨.new, fun _ => false, fun _ => false⟩).expressionCalls s ≤ K := by
  rintro ⟨K, hK⟩
  have hle := (le_expressionCalls _ (K + 1)).trans (hK (tildes (K + 1)))
  omega

end Condor.ClassAd
