import Condor.ClassAd.Parser

/-!
# The grammar — what the parser accepts

The productions that stand above the parse functions, as relations between token sequences and the
trees that they mean. The expressions inside parentheses, brackets, braces and ternary operations
are given by a relation `D`, so that the depth of the nesting is counted.

* `sound_expression`, **`sound_parseExpression`**;
* **`forward_parseExpression`**.
-/

namespace Condor.ClassAd

open Descent List ClassAd.Expr

variable (G : Dialect) (D : List Token → Expr → Prop)

/-! ## Productions -/

/-- Attributes and the closing bracket, behind the attributes `acc`, with semicolons in between. -/
inductive MoreAttributes : List (Text × Expr) → List Token → List (Text × Expr) → Prop
  | close {acc} : MoreAttributes acc [.closeBox] acc
  | more {acc s us e j ts attrs} : s ≠ [] → D us e → (j = 0 → ts = [.closeBox]) →
      MoreAttributes (Flat.put nameRank s e acc) ts attrs →
      MoreAttributes acc
        (.identifier s :: .boundTo :: (us ++ (replicate j .semicolon ++ ts))) attrs

/-- The attributes of an ad and the closing bracket; semicolons may precede the first attribute. -/
inductive AttributeList : List Token → List (Text × Expr) → Prop
  | mk {k ts attrs} : (k ≠ 0 → ts ≠ [.closeBox]) → MoreAttributes D [] ts attrs →
      AttributeList (replicate k .semicolon ++ ts) attrs

def literalOf : Token → Option Literal
  | .undefinedValue => some .undefined
  | .errorValue => some .error
  | .booleanValue b => some (.boolean b)
  | .integerValue i => some (.integer i)
  | .realValue r => some (.real r)
  | .stringValue s => some (.string s)
  | _ => none

/-- `PrimaryExpression`. -/
inductive Primary : List Token → Expr → Prop
  | identifier (s) : Primary [.identifier s] (.attrRef none s false)
  | call {s ts args e} : Listed D (isArgSep G) (· = .closeParen) ts args →
      makeCall G s args = some e → Primary (.identifier s :: .openParen :: ts) e
  | absolute (s) : Primary [.selection, .identifier s] (.attrRef none s true)
  | parentheses {ts e} :
    D ts e → Primary (.openParen :: (ts ++ [.closeParen])) (.op1 .parentheses e)
  | classAd {ts attrs} : AttributeList D ts attrs → Primary (.openBox :: ts) (.classAd attrs)
  | list {ts es} : Listed D (· = .comma) (· = .closeBrace) ts es →
    Primary (.openBrace :: ts) (.list es)
  | literal {t l} : literalOf t = some l → Primary [t] (.literal l)

/-- `PostfixExpression`. -/
inductive Postfix : List Token → Expr → Prop
  | primary {ts e} : Primary G D ts e → Postfix ts e
  | selection {ts e} (s) : Postfix ts e →
      Postfix (ts ++ [.selection, .identifier s]) (.attrRef (some e) s false)
  | subscript {ts e us i} : Postfix ts e → D us i →
      Postfix (ts ++ .openBox :: (us ++ [.closeBox])) (.op2 .subscript e i)

/-- `UnaryExpression`. -/
inductive Unary : List Token → Expr → Prop
  | operand {ts e} : Postfix G D ts e → Unary ts e
  | op {t o ts e} : unaryOp t = some o → Unary ts e → Unary (t :: ts) (.op1 o e)

/-- `MultiplicativeExpression`. -/
abbrev Multiplicative := Chain (Unary G D) multiplicativeOp op2

/-- `AdditiveExpression`. -/
abbrev Additive := Chain (Multiplicative G D) additiveOp op2

/-- `ShiftExpression`. -/
abbrev Shift := Chain (Additive G D) shiftOp op2

/-- `RelationalExpression`. -/
abbrev Relational := Chain (Shift G D) relationalOp op2

/-- `EqualityExpression`. -/
abbrev Equality := Chain (Relational G D) equalityOp op2

/-- `ANDExpression`. -/
abbrev AND := Chain (Equality G D) andOp op2

/-- `ExclusiveORExpression`. -/
abbrev ExclusiveOR := Chain (AND G D) exclusiveOrOp op2

/-- `InclusiveORExpression`. -/
abbrev InclusiveOR := Chain (ExclusiveOR G D) inclusiveOrOp op2

/-- `LogicalANDExpression`. -/
abbrev LogicalAND := Chain (InclusiveOR G D) logicalAndOp op2

/-- `LogicalORExpression`. -/
abbrev LogicalOR := Chain (LogicalAND G D) logicalOrOp op2

inductive Expression : List Token → Expr → Prop
  | logicalOR {ts e} : LogicalOR G D ts e → Expression ts e
  | ternary {ts c us m vs r} : LogicalOR G D ts c → D us m → D vs r →
      Expression (ts ++ .qmark :: (us ++ .colon :: vs)) (.op3 c (some m) r)
  | orElse {ts c vs r} : LogicalOR G D ts c → D vs r →
      Expression (ts ++ .qmark :: .colon :: vs) (.op3 c none r)

/-- The sentences in which `n` expressions may be nested, the outer one included. -/
def Sentence : ℕ → List Token → Expr → Prop
  | 0 => fun _ _ => False
  | n + 1 => Expression G (Sentence n)

/-! ## Soundness -/

variable {P : Env} {G} {D} {R : Lexer → List Token → Lexer → Prop} {expr : Parse Expr}

theorem record_head (hR : Record R) {l : Lexer} {t : Token} (h : l.head = t)
    (ht : t ≠ .endOfInput) : R l [t] l.next := by
  subst h
  exact hR.next l ht

theorem record_skipSemicolons (hR : Record R) (l : Lexer) :
    ∃ j, R l (replicate j .semicolon) (skipSemicolons l.rest) ∧
      (skipSemicolons l.rest).head ≠ .semicolon ∧
      (j = 0 → (skipSemicolons l.rest).head = l.head) := by
  obtain ⟨last, ts⟩ := l
  induction ts generalizing last with
  | nil => exact ⟨0, hR.peek ⟨last, []⟩, fun h => Token.noConfusion h, fun _ => rfl⟩
  | cons t ts ih =>
    by_cases ht : t = .semicolon
    · subst ht
      obtain ⟨j, hj, hhead, -⟩ := ih .semicolon
      refine ⟨j + 1, ?_, hhead, by simp⟩
      exact hR.append (hR.next ⟨last, .semicolon :: ts⟩ (by simp [Cursor.head])) hj
    · have hskip : skipSemicolons (t :: ts) = ⟨t, t :: ts⟩ := by
        cases t <;> first | rfl | exact absurd rfl ht
      rw [hskip]
      exact ⟨0, hR.peek ⟨last, t :: ts⟩, by simpa [Cursor.head] using ht, fun _ => rfl⟩

variable {l l' : Lexer} {n : ℕ} {acc attrs : List (Text × Expr)} {tt : Token}

theorem attrLoop_cases (h : attrLoop expr (n + 1) tt acc l = (some attrs, l')) :
    (tt = .closeBox ∧ attrs = acc ∧ l' = l.next) ∨ (tt ≠ .closeBox ∧ l.head = .semicolon ∧
      attrLoop expr n .semicolon acc l.next = (some attrs, l')) ∨
    (tt ≠ .closeBox ∧ ∃ s e l1, l.head = .identifier s ∧ l.next.head = .boundTo ∧
      expr l.next.next = (some e, l1) ∧ s ≠ [] ∧ (l1.head = .semicolon ∨ l1.head = .closeBox) ∧
      attrLoop expr n (skipSemicolons l1.rest).head (Flat.put nameRank s e acc)
        (skipSemicolons l1.rest) = (some attrs, l')) := by
  rw [attrLoop] at h
  by_cases hclose : tt = .closeBox
  · simp only [hclose, if_true, Prod.mk.injEq, Option.some.injEq] at h
    exact .inl ⟨hclose, h.1.symm, h.2.symm⟩
  rw [if_neg hclose] at h
  split at h
  next hhead => exact .inr (.inl ⟨hclose, hhead, h⟩)
  next s hhead =>
    by_cases hbound : l.next.head = .boundTo
    · rw [if_pos hbound] at h
      obtain ⟨e, l1, he, h⟩ := andThen_eq_some.mp h
      split_ifs at h with hs hsep
      · simp at h
      · exact .inr (.inr ⟨hclose, s, e, l1, hhead, hbound, he, hs, hsep, h⟩)
      · simp at h
    · simp [hbound] at h
  next => simp at h

theorem sound_attrLoop (hR : Record R) (hexpr : Sound R expr D)
    (htt : tt = l.head ∨ tt = .semicolon) (h : attrLoop expr n tt acc l = (some attrs, l')) :
    ∃ k ts, R l (replicate k .semicolon ++ ts) l' ∧ MoreAttributes D acc ts attrs ∧
      (k ≠ 0 → l.head = .semicolon) ∧ ((k ≠ 0 ∨ tt = .semicolon) → ts ≠ [.closeBox]) ∧
      (tt = .closeBox → ts = [.closeBox]) := by
  induction n generalizing tt acc l with
  | zero => simp [attrLoop] at h
  | succ n ih =>
    have hnext := @record_head R hR
    rcases attrLoop_cases h with ⟨rfl, rfl, rfl⟩ | ⟨hclose, hhead, h⟩ |
      ⟨hclose, s, e, l1, hhead, hbound, he, hs, hsep, h⟩
    · have hhead : l.head = .closeBox := (htt.resolve_right (by simp)).symm
      exact ⟨0, _, hnext hhead (by simp), .close, by simp, by simp, fun _ => rfl⟩
    · obtain ⟨k, ts, hts, hmore, -, hne, -⟩ := ih (.inr rfl) h
      refine ⟨k + 1, ts, ?_, hmore, fun _ => hhead, fun _ => hne (.inr rfl),
        fun hc => absurd hc hclose⟩
      rw [replicate_succ, cons_append]
      exact hR.append (hnext hhead (by simp)) hts
    · obtain ⟨us, hus, hd⟩ := hexpr _ _ _ he
      obtain ⟨j, hj, hnosemi, hj0⟩ := record_skipSemicolons hR l1
      obtain ⟨k, ts, hts, hmore, hk, -, hcl⟩ := ih (.inl rfl) h
      obtain rfl : k = 0 := by
        by_contra hk0
        exact hnosemi (hk hk0)
      refine ⟨0, _, ?_, .more hs hd (j := j) (fun h0 => hcl ?_) hmore, by simp, by simp,
        fun hc => absurd hc hclose⟩
      · have hall := hR.append (hnext hhead (by simp))
          (hR.append (hnext hbound (by simp)) (hR.append hus (hR.append hj hts)))
        simpa using hall
      · rw [hj0 h0] at hnosemi ⊢
        exact hsep.resolve_left hnosemi

theorem sound_parseClassAd (hR : Record R) (hexpr : Sound R expr D) :
    Sound R (parseClassAd P expr) (AttributeList D) := by
  intro l attrs l' h
  obtain ⟨k, ts, hts, hmore, -, hne, -⟩ := sound_attrLoop hR hexpr (l := l.peek) (.inl rfl) h
  exact ⟨_, by simpa using hR.append (hR.peek l) hts, .mk (fun hk => hne (.inl hk)) hmore⟩

theorem some_eq_some {A S : Type} {a b : A} {s s' : S} (h : (some a, s) = (some b, s')) :
    a = b ∧ s = s' := by
  simpa using h

section

variable (hR : Record R) (hexpr : Sound R expr D)
include hR hexpr

theorem sound_primary : Sound R (parsePrimaryExpression P expr) (Primary P.toDialect D) := by
  intro l e l' h
  have hnext := @record_head R hR
  rw [parsePrimaryExpression] at h
  split at h
  next s hhead =>
    by_cases hopen : l.next.head = .openParen
    · rw [if_pos hopen] at h
      obtain ⟨args, l1, hargs, h⟩ := andThen_eq_some.mp h
      obtain ⟨hcall, rfl⟩ := Prod.mk.inj h
      obtain ⟨ts, hts, hl⟩ := sound_items hR rfl rfl hexpr _ _ _ hargs
      exact ⟨_, hR.append (hnext hhead (by simp)) (hR.append (hnext hopen (by simp)) hts),
        .call hl hcall⟩
    · rw [if_neg hopen] at h
      obtain ⟨rfl, rfl⟩ := some_eq_some h
      exact ⟨_, hR.append (hnext hhead (by simp)) (hR.peek _), .identifier s⟩
  next hhead =>
    split at h
    next s hident =>
      obtain ⟨rfl, rfl⟩ := some_eq_some h
      exact ⟨_, hR.append (hnext hhead (by simp)) (hnext hident (by simp)), .absolute s⟩
    next => simp at h
  next hhead =>
    obtain ⟨c, l1, he, h⟩ := andThen_eq_some.mp h
    split_ifs at h with hclose
    · obtain ⟨rfl, rfl⟩ := some_eq_some h
      obtain ⟨ts, hts, hd⟩ := hexpr _ _ _ he
      exact ⟨_, hR.append (hnext hhead (by simp)) (hR.append hts (hnext hclose (by simp))),
        .parentheses hd⟩
    · simp at h
  next hhead =>
    obtain ⟨attrs, l1, ha, h⟩ := andThen_eq_some.mp h
    obtain ⟨rfl, rfl⟩ := some_eq_some h
    obtain ⟨ts, hts, hl⟩ := sound_parseClassAd hR hexpr _ _ _ ha
    exact ⟨_, hR.append (hnext hhead (by simp)) hts, .classAd hl⟩
  next hhead =>
    obtain ⟨es, l1, ha, h⟩ := andThen_eq_some.mp h
    obtain ⟨rfl, rfl⟩ := some_eq_some h
    obtain ⟨ts, hts, hl⟩ := sound_items hR rfl rfl hexpr _ _ _ ha
    exact ⟨_, hR.append (hnext hhead (by simp)) hts, .list hl⟩
  case h_12 => simp at h
  -- the literals
  all_goals
    rename_i hhead
    obtain ⟨rfl, rfl⟩ := some_eq_some h
    exact ⟨_, hnext hhead (by simp), .literal rfl⟩

theorem sound_postfixLoop {l0 l l' : Lexer}
    {ts : List Token} {e e' : Expr} (hts : R l0 ts l) (he : Postfix P.toDialect D ts e)
    (h : postfixLoop expr n e l = (some e', l')) :
    ∃ us, R l0 us l' ∧ Postfix P.toDialect D us e' := by
  have hnext := @record_head R hR
  induction n generalizing l ts e with
  | zero => simp [postfixLoop] at h
  | succ n ih =>
    rw [postfixLoop] at h
    split at h
    next hhead =>
      obtain ⟨i, l1, hi, h⟩ := andThen_eq_some.mp h
      split_ifs at h with hclose
      · obtain ⟨us, hus, hd⟩ := hexpr _ _ _ hi
        refine ih (hR.append hts ?_) (.subscript he hd) h
        exact hR.append (hnext hhead (by simp)) (hR.append hus (hnext hclose (by simp)))
      · simp at h
    next hhead =>
      dsimp only at h
      split at h
      next s hident =>
        refine ih (hR.append hts ?_) (.selection s he) h
        exact hR.append (hnext hhead (by simp)) (hnext hident (by simp))
      next => simp at h
    next =>
      obtain ⟨rfl, rfl⟩ := some_eq_some h
      exact ⟨ts, by simpa using hR.append hts (hR.peek l), he⟩

theorem sound_postfixExpr : Sound R (parsePostfixExpression P expr) (Postfix P.toDialect D) := by
  intro l e l' h
  obtain ⟨c, l1, hc, h⟩ := andThen_eq_some.mp h
  obtain ⟨ts, hts, hp⟩ := sound_primary hR hexpr _ _ _ hc
  exact sound_postfixLoop hR hexpr hts (.primary hp) h

theorem sound_unary : Sound R (unaryLoop P expr n) (Unary P.toDialect D) := by
  induction n with
  | zero =>
    intro l e l' h
    simp [unaryLoop] at h
  | succ n ih =>
    intro l e l' h
    rw [unaryLoop] at h
    split at h
    next o ho =>
      obtain ⟨c, l1, hc, h⟩ := andThen_eq_some.mp h
      obtain ⟨rfl, rfl⟩ := some_eq_some h
      obtain ⟨ts, hts, hu⟩ := ih _ _ _ hc
      have hne : l.head ≠ default := fun he => by rw [he] at ho; cases ho
      exact ⟨_, hR.append (hR.next l hne) hts, .op ho hu⟩
    next =>
      obtain ⟨ts, hts, hp⟩ := sound_postfixExpr hR hexpr _ _ _ h
      exact ⟨ts, by simpa using hR.append (hR.peek l) hts, .operand hp⟩

end

/-- The levels of the binary operators, from the outermost one inwards. -/
def levels : List (Token → Option OpKind) :=
  [logicalOrOp, logicalAndOp, inclusiveOrOp, exclusiveOrOp, andOp, equalityOp, relationalOp,
    shiftOp, additiveOp, multiplicativeOp]

variable (G D) in
def Levels (ops : List (Token → Option OpKind)) : List Token → Expr → Prop :=
  ops.foldr (fun op D => Chain D op op2) (Unary G D)

variable (P expr) in
def parseLevels (ops : List (Token → Option OpKind)) : Parse Expr :=
  ops.foldr (binary P) (parseUnaryExpression P expr)

variable (G D) in
theorem logicalOR_eq : LogicalOR G D = Levels G D levels := by
  simp [Levels, levels]

variable (P expr) in
theorem parseLogicalOR_eq : parseLogicalORExpression P expr = parseLevels P expr levels := by
  simp only [parseLevels, levels, foldr_cons]
  rfl

theorem levels_induction {M : List (Token → Option OpKind) → Prop} (h0 : M [])
    (hstep : ∀ op ops, op :: ops <:+ levels → M ops → M (op :: ops)) : M levels := by
  have h : ∀ ops, ops <:+ levels → M ops := by
    intro ops
    induction ops with
    | nil => exact fun _ => h0
    | cons op ops ih => exact fun hs => hstep op ops hs (ih ((suffix_cons op ops).trans hs))
  exact h levels suffix_rfl

theorem levels_default : levels.all (fun op => op default = none) = true := rfl

theorem levels_subscript (t : Token) : levels.all (fun op => op t ≠ some .subscript) = true := by
  cases t <;> rfl

theorem levels_disjoint (t : Token) : (levels.filter fun op => (op t).isSome).length ≤ 1 := by
  cases t <;> first | exact Nat.zero_le 1 | exact le_refl 1

theorem sound_logicalOR (hR : Record R) (hexpr : Sound R expr D) :
    Sound R (parseLogicalORExpression P expr) (LogicalOR P.toDialect D) := by
  rw [parseLogicalOR_eq]
  refine levels_induction
    (M := fun ops => Sound R (parseLevels P expr ops) (Levels P.toDialect D ops))
      (sound_unary hR hexpr)
    fun op ops hs ih => ?_
  have hop := all_eq_true.mp levels_default op (hs.subset mem_cons_self)
  exact sound_chain hR (of_decide_eq_true hop) ih

/-- A parse function that succeeds has read the condition, and nothing or all of a ternary
operation. -/
theorem expression_cases {e : Expr} (h : expression P expr false l = (some e, l')) :
    ∃ c l1, parseLogicalORExpression P expr l = (some c, l1) ∧
      ((l1.head ≠ .qmark ∧ e = c ∧ l' = l1.peek) ∨
      (l1.head = .qmark ∧ ∃ m r l2 l3, e = .op3 c m r ∧ expr l3 = (some r, l') ∧ l3 = l2.next ∧
        l2.head = .colon ∧ ((m = none ∧ l2 = l1.next) ∨
          (expr l1.next.peek = (m, l2) ∧ (P.checked = true → m ≠ none))))) := by
  obtain ⟨c, l1, hc, h⟩ := andThen_eq_some.mp h
  refine ⟨c, l1, hc, ?_⟩
  by_cases hq : l1.head = .qmark
  · rw [ternary] at h
    right
    refine ⟨hq, ?_⟩
    split_ifs at h with hcolon
    · obtain ⟨r, l3, hr, h⟩ := andThen_eq_some.mp h
      obtain ⟨rfl, rfl⟩ := some_eq_some h
      exact ⟨none, r, l1.next, _, rfl, hr, rfl, hcolon, .inl ⟨rfl, rfl⟩⟩
    · cases hm : expr l1.next.peek with
      | mk m l2 =>
        simp only [hm] at h
        split_ifs at h with hcolon2 hnone
        · simp at h
        · obtain ⟨r, l3, hr, h⟩ := andThen_eq_some.mp h
          obtain ⟨rfl, rfl⟩ := some_eq_some h
          refine ⟨m, r, l2, _, rfl, hr, rfl, hcolon2, .inr ⟨rfl, fun hch hm0 => ?_⟩⟩
          simp [hch, hm0] at hnone
        · simp at h
  · rw [if_neg hq] at h
    obtain ⟨rfl, rfl⟩ := some_eq_some h
    exact .inl ⟨hq, rfl, rfl⟩

theorem sound_expression (hchecked : P.checked = true) (hR : Record R) (hexpr : Sound R expr D) :
    Sound R (expression P expr false) (Expression P.toDialect D) := by
  intro l e l' h
  have hnext := @record_head R hR
  obtain ⟨c, l1, hc, h⟩ := expression_cases h
  obtain ⟨ts, hts, hor⟩ := sound_logicalOR hR hexpr _ _ _ hc
  rcases h with ⟨-, rfl, rfl⟩ | ⟨hq, m, r, l2, l3, rfl, hr, rfl, hcolon, hm⟩
  · exact ⟨ts, by simpa using hR.append hts (hR.peek l1), .logicalOR hor⟩
  obtain ⟨vs, hvs, hd⟩ := hexpr _ _ _ hr
  have htail := hR.append (hnext hcolon (by simp)) hvs
  rcases hm with ⟨rfl, rfl⟩ | ⟨hm, hne⟩
  · exact ⟨_, hR.append hts (hR.append (hnext hq (by simp)) htail), .orElse hor hd⟩
  · cases m with
    | none => exact absurd rfl (hne hchecked)
    | some m =>
      obtain ⟨us, hus, hdm⟩ := hexpr _ _ _ hm
      have hmid : R l1.next us l2 := by simpa using hR.append (hR.peek l1.next) hus
      exact ⟨_, hR.append hts (hR.append (hnext hq (by simp)) (hR.append hmid htail)),
        .ternary hor hdm hd⟩

/-- **A checked parser reads sentences.** -/
theorem sound_parseExpression (hchecked : P.checked = true) :
    Sound Exactly (parseExpression P n) (Sentence P.toDialect n) := by
  induction n with
  | zero =>
    intro l e l' h
    simp [parseExpression] at h
  | succ n ih => exact sound_expression hchecked record_exactly ih

/-! ## Moving forward

Every parse function, whether it succeeds or not, leaves an end of the tokens that it was given.
-/

theorem skipSemicolons_suffix (ts : List Token) : (skipSemicolons ts).rest <:+ ts := by
  fun_induction skipSemicolons ts with
  | case1 ts ih => exact ih.trans (suffix_cons _ _)
  | case2 ts => exact suffix_rfl

section

variable (hexpr : Forward expr)
include hexpr

theorem forward_attrLoop (tt : Token) (attrs : List (Text × Expr)) :
    Forward (attrLoop expr n tt attrs) := by
  induction n generalizing tt attrs with
  | zero => exact fun _ => suffix_rfl
  | succ n ih =>
    intro l
    rw [attrLoop]
    split_ifs
    · exact l.next_suffix
    · split
      · exact (ih _ _ l.next).trans l.next_suffix
      · have hnext : l.next.next.rest <:+ l.rest := l.next.next_suffix.trans l.next_suffix
        simp only
        split
        · refine andThen_suffix ((hexpr _).trans hnext) fun e l => ?_
          split_ifs
          · exact suffix_rfl
          · exact (ih _ _ _).trans (skipSemicolons_suffix l.rest)
          · exact suffix_rfl
        · exact hnext
      · exact l.next_suffix

theorem forward_parseClassAd : Forward (parseClassAd P expr) :=
  fun l => forward_attrLoop hexpr l.head [] l.peek

theorem forward_primary : Forward (parsePrimaryExpression P expr) := by
  intro l
  have h1 := l.next_suffix
  have h2 : l.next.next.rest <:+ l.rest := l.next.next_suffix.trans h1
  rw [parsePrimaryExpression]
  split
  next =>
    split_ifs
    · exact andThen_suffix ((forward_items hexpr _).trans h2) fun _ _ => suffix_rfl
    · exact h1
  next =>
    split
    · exact h2
    · exact h2
  next =>
    refine andThen_suffix ((hexpr _).trans h1) fun e l => ?_
    split_ifs <;> exact l.next_suffix
  next => exact andThen_suffix ((forward_parseClassAd hexpr _).trans h1) fun _ _ => suffix_rfl
  next => exact andThen_suffix ((forward_items hexpr _).trans h1) fun _ _ => suffix_rfl
  case h_12 => exact suffix_rfl
  -- the literals
  all_goals exact h1

theorem forward_postfixLoop (e : Expr) : Forward (postfixLoop expr n e) := by
  induction n generalizing e with
  | zero => exact fun _ => suffix_rfl
  | succ n ih =>
    intro l
    have h1 := l.next_suffix
    have h2 : l.next.next.rest <:+ l.rest := l.next.next_suffix.trans h1
    rw [postfixLoop]
    split
    next =>
      refine andThen_suffix ((hexpr _).trans h1) fun i l => ?_
      split_ifs
      · exact (ih _ _).trans l.next_suffix
      · exact l.next_suffix
    next =>
      simp only
      split
      · exact (ih _ _).trans h2
      · exact h2
    next => exact suffix_rfl

theorem forward_unary : Forward (unaryLoop P expr n) := by
  induction n with
  | zero => exact fun _ => suffix_rfl
  | succ n ih =>
    intro l
    rw [unaryLoop]
    split
    next => exact andThen_suffix ((ih _).trans l.next_suffix) fun _ _ => suffix_rfl
    next => exact andThen_suffix (forward_primary hexpr l.peek) fun e => forward_postfixLoop hexpr e

theorem forward_logicalOR : Forward (parseLogicalORExpression P expr) := by
  rw [parseLogicalOR_eq]
  exact levels_induction (forward_unary hexpr)
    fun op ops _ ih => forward_chain ih

theorem forward_expression (full : Bool) : Forward (expression P expr full) := by
  have hright : ∀ c m, Forward (ternaryRight expr c m) := fun c m l =>
    andThen_suffix (hexpr l) fun _ _ => suffix_rfl
  intro l
  refine andThen_suffix (forward_logicalOR hexpr l) fun e l => ?_
  split_ifs
  · rw [ternary]
    split_ifs
    · exact (hright _ _ _).trans (l.next.next_suffix.trans l.next_suffix)
    · have hm : (expr l.next.peek).2.rest <:+ l.rest := (hexpr _).trans l.next_suffix
      simp only
      split_ifs
      · exact (Cursor.next_suffix).trans hm
      · exact (hright _ _ _).trans ((Cursor.next_suffix).trans hm)
      · exact (Cursor.next_suffix).trans hm
  · exact l.next_suffix
  · exact l.next_suffix
  · exact suffix_rfl

end

/-- **The parser only moves forward.** -/
theorem forward_parseExpression : Forward (parseExpression P n) := by
  induction n with
  | zero => exact fun _ => suffix_rfl
  | succ n ih => exact forward_expression ih false

end Condor.ClassAd
