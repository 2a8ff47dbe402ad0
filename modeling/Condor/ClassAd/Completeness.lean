import Condor.ClassAd.Grammar

/-!
# Completeness — every sentence is parsed

A sentence of the grammar that is followed by a token that cannot continue it is read by the
parser, and the parser returns the tree of the sentence. The parser reads as far as it can, so that
the sentences are exactly what the checking parser accepts; the parser of the source also accepts a
ternary operation whose middle expression fails.

* `complete_primary` to `complete_expression`, **`complete_parseExpression`**;
* `stops_primary` to `stops_expression`, **`stops_parseExpression`**;
* **`parseExpression_sentence_iff`**.
-/

namespace Condor.ClassAd

open Descent List Cursor

variable {G : Dialect} {P : Env} {D : List Token → Expr → Prop} {expr : Parse Expr}
  {acc attrs : List (Text × Expr)} {l l' : Lexer} {op : Token → Option OpKind} {ts us : List Token}
  {e : Expr} {t : Token} {o : OpKind} {n : ℕ}

/-! ## First and following tokens -/

def Token.startsExpr : Token → Bool
  | identifier _ | selection | openParen | openBox | openBrace | undefinedValue | errorValue
  | booleanValue _ | integerValue _ | realValue _ | stringValue _
  | minus | plus | bitwiseNot | logicalNot => true
  | _ => false

def Starts (D : List Token → Expr → Prop) : Prop :=
  ∀ ts e, D ts e → ∃ t us, ts = t :: us ∧ t.startsExpr = true

theorem starts_chain (h : Starts D) : Starts (Chain D op Expr.op2) := by
  intro ts e hc
  induction hc with
  | one hd => exact h _ _ hd
  | more _ _ _ ih =>
    obtain ⟨t, us, rfl, ht⟩ := ih
    exact ⟨t, _, rfl, ht⟩

theorem starts_primary (h : Primary G D ts e) :
    ∃ t us, ts = t :: us ∧ t.startsExpr = true ∧ unaryOp t = none := by
  cases h with
  | @literal t l hl =>
    refine ⟨t, [], rfl, ?_⟩
    cases t <;> first | exact ⟨rfl, rfl⟩ | cases hl
  | _ => exact ⟨_, _, rfl, rfl, rfl⟩

theorem starts_postfixExpr (h : Postfix G D ts e) :
    ∃ t us, ts = t :: us ∧ t.startsExpr = true ∧ unaryOp t = none := by
  induction h with
  | primary hp => exact starts_primary hp
  | selection s _ ih | subscript _ _ ih =>
    obtain ⟨t, us, rfl, ht⟩ := ih
    exact ⟨t, _, rfl, ht⟩

theorem starts_unary : Starts (Unary G D) := by
  intro ts e h
  induction h with
  | operand hp =>
    obtain ⟨t, us, rfl, ht, -⟩ := starts_postfixExpr hp
    exact ⟨t, us, rfl, ht⟩
  | @op t o ts e ho _ _ =>
    refine ⟨t, ts, rfl, ?_⟩
    cases t <;> first | rfl | cases ho

theorem starts_logicalOR : Starts (LogicalOR G D) := by
  rw [logicalOR_eq]
  exact levels_induction starts_unary
    fun _ _ _ ih => starts_chain ih

theorem starts_expression : Starts (Expression G D) := by
  intro ts e h
  cases h with
  | logicalOR hor => exact starts_logicalOR _ _ hor
  | ternary hor _ _ | orElse hor _ =>
    obtain ⟨t, us, rfl, ht⟩ := starts_logicalOR _ _ hor
    exact ⟨t, _, rfl, ht⟩

theorem starts_sentence : Starts (Sentence G n) := by
  cases n with
  | zero => exact fun _ _ h => h.elim
  | succ n => exact starts_expression

/-- The expression ends in a name that becomes the name of a function in front of a parenthesis. -/
def Expr.endsInName : Expr → Bool
  | attrRef none _ absolute => !absolute
  | op1 o e => o ≠ .parentheses && e.endsInName
  | op2 o _ e => o ≠ .subscript && e.endsInName
  | op3 _ _ e => e.endsInName
  | _ => false

def StopsPrimary (e : Expr) (t : Token) : Prop := t = .openParen → e.endsInName = false

attribute [local simp] StopsPrimary

def StopsPostfix (e : Expr) (t : Token) : Prop := StopsPrimary e t ∧ t ≠ .openBox ∧ t ≠ .selection

attribute [local simp] StopsPostfix

/-- The token does not continue an expression of some levels of binary operators. -/
def StopsLevels (ops : List (Token → Option OpKind)) (e : Expr) (t : Token) : Prop :=
  (∀ op ∈ ops, op t = none) ∧ StopsPostfix e t

def StopsExpr (e : Expr) (t : Token) : Prop := t ≠ .qmark ∧ StopsLevels levels e t

theorem stopsPostfix_op1 (h : unaryOp t = some o) (u : Token) :
    StopsPostfix (.op1 o e) u ↔ StopsPostfix e u := by
  have ho : o ≠ .parentheses := by cases t <;> cases h <;> decide
  simp [Expr.endsInName, ho]

theorem stopsPostfix_op2 (h : o ≠ .subscript) (a b : Expr) (u : Token) :
    StopsPostfix (.op2 o a b) u ↔ StopsPostfix b u := by
  simp [Expr.endsInName, h]

def Token.closes : Token → Bool
  | closeParen | closeBox | closeBrace | comma | colon | semicolon | boundTo | endOfInput => true
  | _ => false

theorem stopsExpr_of_closes (h : t.closes = true) : StopsExpr e t := by
  have hops : levels.all (fun op => op t = none) = true := by cases t <;> cases h <;> rfl
  have hpost : StopsPostfix e t ∧ t ≠ .qmark := by
    cases t <;> cases h <;> simp
  exact ⟨hpost.2, by simpa using hops, hpost.1⟩

/-! ## Ads -/

theorem skipSemicolons_replicate (j : ℕ) (h : ts.headD default ≠ .semicolon) :
    skipSemicolons (replicate j .semicolon ++ ts) = ⟨ts.headD default, ts⟩ := by
  induction j with
  | zero =>
    cases ts with
    | nil => rfl
    | cons t ts => cases t <;> first | rfl | exact absurd rfl h
  | succ j ih => rw [replicate_succ, cons_append, skipSemicolons, ih]

theorem MoreAttributes.head_ne (h : MoreAttributes D acc ts attrs) :
    (ts ++ us).headD default ≠ .semicolon := by
  cases h <;> simp

theorem stopsExpr_behind {j : ℕ} (h : j = 0 → ts = [.closeBox]) (us : List Token) :
    (replicate j Token.semicolon ++ ts ++ us).headD default = .semicolon ∨
      (replicate j Token.semicolon ++ ts ++ us).headD default = .closeBox := by
  cases j with
  | zero => simp [h rfl]
  | succ j => simp [replicate_succ]

theorem complete_attrLoop (hexpr : Complete n StopsExpr expr D) (h : MoreAttributes D acc ts attrs)
    {k : ℕ} (hk : ts.length ≤ k) (hn : ts.length < n) (hl : l.rest = ts ++ us) {tt : Token}
    (htt : tt = l.head ∨ (tt = .semicolon ∧ ts ≠ [.closeBox])) :
    ∃ l', attrLoop expr k tt acc l = (some attrs, l') ∧ l'.rest = us := by
  induction h generalizing k l tt with
  | close =>
    obtain _ | k := k
    · simp at hk
    have htt : tt = .closeBox := by
      rcases htt with htt | ⟨-, hne⟩
      · rw [htt, Cursor.head_of_rest hl]
      · exact absurd rfl hne
    exact ⟨l.next, by rw [attrLoop, if_pos htt], by simp [hl]⟩
  | @more acc s vs e j ts attrs hs hd hj hmore ih =>
    simp only [length_cons, length_append] at hk hn
    obtain _ | k := k
    · omega
    have hhead : l.head = .identifier s := Cursor.head_of_rest hl
    have hclose : tt ≠ .closeBox := by
      rcases htt with htt | ⟨htt, -⟩ <;> simp [htt, hhead]
    have hbound : l.next.head = .boundTo := Cursor.head_of_rest (by simp [hl]; rfl)
    have hrest : l.next.next.rest = vs ++ (replicate j .semicolon ++ ts ++ us) := by simp [hl]
    have hstop := stopsExpr_behind hj us
    obtain ⟨l1, he, hr1⟩ := hexpr l.next.next vs _ e hd hrest
      (stopsExpr_of_closes (by rcases hstop with h | h <;> rw [h] <;> rfl)) (by omega)
    have hsep : l1.head = .semicolon ∨ l1.head = .closeBox := by
      rw [Cursor.head, hr1]
      exact hstop
    have hskip : skipSemicolons l1.rest = ⟨(ts ++ us).headD default, ts ++ us⟩ := by
      rw [hr1, append_assoc]
      exact skipSemicolons_replicate j hmore.head_ne
    obtain ⟨l', hl', hr'⟩ := ih (k := k) (by omega) (by omega) (l := skipSemicolons l1.rest)
      (by rw [hskip]) (.inl rfl)
    refine ⟨l', ?_, hr'⟩
    rw [attrLoop, if_neg hclose]
    simp only [hhead, hbound, he, andThen_some, hs, hsep]
    exact hl'

theorem complete_parseClassAd (hexpr : Complete P.fuel StopsExpr expr D) :
    Complete P.fuel (fun _ _ => True) (parseClassAd P expr) (AttributeList D) := by
  intro l ts us attrs h hl _ hn
  obtain ⟨hk, hmore⟩ := h
  rename_i k ts
  rw [append_assoc] at hl
  simp only [length_append, length_replicate] at hn
  -- the semicolons in front are read one by one
  have hsemi : ∀ j m (l : Lexer) (tt : Token), l.rest = replicate j .semicolon ++ (ts ++ us) →
      (tt = l.head ∨ (tt = .semicolon ∧ ts ≠ [.closeBox])) → (j ≠ 0 → ts ≠ [.closeBox]) →
      j + ts.length ≤ m → ∃ l', attrLoop expr m tt [] l = (some attrs, l') ∧ l'.rest = us := by
    intro j
    induction j with
    | zero =>
      intro m l tt hl htt _ hm
      exact complete_attrLoop hexpr hmore (by omega) (by omega) hl htt
    | succ j ih =>
      intro m l tt hl htt hj hm
      obtain _ | m := m
      · omega
      have hhead : l.head = .semicolon := head_of_rest (by rw [hl]; rfl)
      have hclose : tt ≠ .closeBox := by
        rcases htt with htt | ⟨htt, -⟩ <;> simp [htt, hhead]
      have hne := hj (by simp)
      obtain ⟨l', hl', hr'⟩ := ih m l.next .semicolon (by simp [hl])
        (.inr ⟨rfl, hne⟩) (fun _ => hne) (by omega)
      refine ⟨l', ?_, hr'⟩
      rw [attrLoop, if_neg hclose]
      simp only [hhead]
      exact hl'
  exact hsemi k P.fuel l.peek l.head hl (.inl rfl) hk (by omega)

/-! ## Expressions -/

theorem not_close_of_starts (hD : Starts D) (close : Token → Bool)
    (h : ∀ t, t.startsExpr = true → close t = false) (ts : List Token) (e : Expr) (hd : D ts e)
    (us : List Token) : close ((ts ++ us).headD default) = false := by
  obtain ⟨t, vs, rfl, ht⟩ := hD ts e hd
  exact h t ht

section

variable (hD : Starts D) (hexpr : Complete P.fuel StopsExpr expr D)
include hD hexpr

theorem complete_args : Complete P.fuel (fun _ _ => True) (parseArgumentList P expr)
      (Listed D (isArgSep P.toDialect) (· = .closeParen)) := by
  refine complete_items hexpr ?_ ?_ ?_
    (not_close_of_starts hD (fun t => decide (t = .closeParen)) ?_)
  · intro e t ht
    simp only [isArgSep, Bool.or_eq_true, decide_eq_true_eq, Bool.and_eq_true] at ht
    rcases ht with rfl | ⟨rfl, -⟩ <;> exact stopsExpr_of_closes rfl
  · intro e t ht
    obtain rfl := of_decide_eq_true ht
    exact stopsExpr_of_closes rfl
  · intro t ht
    obtain rfl := of_decide_eq_true ht
    rfl
  · intro t ht
    cases t <;> first | rfl | cases ht

theorem complete_list : Complete P.fuel (fun _ _ => True) (parseExprList P expr)
      (Listed D (· = .comma) (· = .closeBrace)) := by
  refine complete_items hexpr ?_ ?_ ?_
    (not_close_of_starts hD (fun t => decide (t = .closeBrace)) ?_)
  · intro e t ht
    obtain rfl := of_decide_eq_true ht
    exact stopsExpr_of_closes rfl
  · intro e t ht
    obtain rfl := of_decide_eq_true ht
    exact stopsExpr_of_closes rfl
  · intro t ht
    obtain rfl := of_decide_eq_true ht
    rfl
  · intro t ht
    cases t <;> first | rfl | cases ht

theorem complete_primary :
    Complete P.fuel StopsPrimary (parsePrimaryExpression P expr) (Primary P.toDialect D) := by
  intro l ts us e h hl hstop hn
  have hhead : ∀ {t vs}, l.rest = t :: vs → l.head = t := Cursor.head_of_rest
  have hnext : ∀ {t t' vs}, l.rest = t :: t' :: vs → l.next.head = t' := fun h =>
    Cursor.head_of_rest (by rw [Cursor.rest_next, h]; rfl)
  rw [parsePrimaryExpression]
  cases h with
  | identifier s =>
    have hno : l.next.head ≠ .openParen := by
      rw [Cursor.head, Cursor.rest_next, hl]
      exact fun h => Bool.noConfusion (hstop h)
    simp only [hhead hl, if_neg hno]
    exact ⟨_, rfl, by simp [hl]⟩
  | @call s ts args e hargs hcall =>
    simp only [hhead hl, hnext hl, if_true]
    obtain ⟨l1, h1, hr1⟩ :=
      complete_args hD hexpr l.next.next ts us args hargs (by simp [hl]) trivial
        (by simp at hn; omega)
    exact ⟨l1, by rw [h1, andThen_some, hcall], hr1⟩
  | absolute s =>
    simp only [hhead hl, hnext hl]
    exact ⟨_, rfl, by simp [hl]⟩
  | @parentheses ts e hd =>
    simp only [hhead hl]
    obtain ⟨l1, h1, hr1⟩ := hexpr l.next ts (.closeParen :: us) e hd (by simp [hl])
      (stopsExpr_of_closes rfl) (by simp at hn; omega)
    rw [h1, andThen_some, if_pos (Cursor.head_of_rest hr1)]
    exact ⟨_, rfl, by simp [hr1]⟩
  | @classAd ts attrs ha =>
    simp only [hhead hl]
    obtain ⟨l1, h1, hr1⟩ := complete_parseClassAd hexpr l.next ts us attrs ha (by simp [hl]) trivial
      (by simp at hn; omega)
    exact ⟨l1, by rw [h1, andThen_some], hr1⟩
  | @list ts es ha =>
    simp only [hhead hl]
    obtain ⟨l1, h1, hr1⟩ := complete_list hD hexpr l.next ts us es ha (by simp [hl]) trivial
      (by simp at hn; omega)
    exact ⟨l1, by rw [h1, andThen_some], hr1⟩
  | @literal t lit hlit =>
    have hr : l.next.rest = us := by simp [hl]
    rw [hhead hl]
    cases t <;> cases hlit <;> exact ⟨_, rfl, hr⟩

theorem postfix_eq_loop (h : Postfix P.toDialect D ts e)
    (hl : l.rest = ts ++ us) (hstop : StopsPrimary e (us.headD default)) (hn : ts.length < P.fuel) :
    ∃ k l', parsePostfixExpression P expr l = postfixLoop expr k e l' ∧ l'.rest = us ∧
      P.fuel ≤ k + ts.length := by
  induction h generalizing us with
  | primary hp =>
    obtain ⟨l', hl', hr⟩ := complete_primary hD hexpr l _ us _ hp hl hstop hn
    exact ⟨P.fuel, l', by rw [parsePostfixExpression, hl', andThen_some], hr, by omega⟩
  | @selection ts e s _ ih =>
    rw [append_assoc] at hl
    simp only [length_append, length_cons] at hn ⊢
    obtain ⟨k, l1, hk, hr1, hle⟩ := ih hl (by simp) (by omega)
    obtain _ | k := k
    · omega
    have hident : l1.next.head = .identifier s := head_of_rest (by simp [hr1]; rfl)
    refine ⟨k, l1.next.next, ?_, by simp [hr1], by omega⟩
    rw [hk, postfixLoop]
    simp [show l1.head = .selection from head_of_rest hr1, hident]
  | @subscript ts e vs i _ hi ih =>
    rw [append_assoc] at hl
    simp only [length_append, length_cons] at hn ⊢
    obtain ⟨k, l1, hk, hr1, hle⟩ := ih hl (by simp) (by omega)
    obtain _ | k := k
    · omega
    obtain ⟨l2, h2, hr2⟩ := hexpr l1.next vs (.closeBox :: us) i hi (by simp [hr1])
      (stopsExpr_of_closes rfl) (by omega)
    refine ⟨k, l2.next, ?_, by simp [hr2], by omega⟩
    rw [hk, postfixLoop]
    simp [show l1.head = .openBox from head_of_rest hr1, h2,
      show l2.head = .closeBox from head_of_rest hr2]

theorem complete_postfixExpr :
    Complete P.fuel StopsPostfix (parsePostfixExpression P expr) (Postfix P.toDialect D) := by
  intro l ts us e h hl hstop hn
  obtain ⟨k, l', hk, hr, hle⟩ := postfix_eq_loop hD hexpr h hl hstop.1 hn
  obtain _ | k := k
  · omega
  have hhead : l'.head = us.headD default := by rw [Cursor.head, hr]
  refine ⟨l'.peek, ?_, hr⟩
  rw [hk, postfixLoop, hhead]
  split
  next h => exact absurd h hstop.2.1
  next h => exact absurd h hstop.2.2
  next => rfl

theorem complete_unaryLoop (h : Unary P.toDialect D ts e) {k : ℕ} (hk : ts.length ≤ k)
    (hn : ts.length < P.fuel) (hl : l.rest = ts ++ us) (hstop : StopsPostfix e (us.headD default)) :
    ∃ l', unaryLoop P expr k l = (some e, l') ∧ l'.rest = us := by
  induction h generalizing k l with
  | operand hp =>
    obtain ⟨t, vs, rfl, -, ht⟩ := starts_postfixExpr hp
    obtain _ | k := k
    · simp at hk
    have hhead : unaryOp l.head = none := by rw [head_of_rest hl, ht]
    rw [unaryLoop, hhead]
    exact complete_postfixExpr hD hexpr l.peek _ us _ hp hl hstop hn
  | @op t o ts e ho _ ih =>
    simp only [length_cons] at hk hn
    obtain _ | k := k
    · omega
    have hhead : unaryOp l.head = some o := by rw [head_of_rest hl, ho]
    obtain ⟨l', hl', hr⟩ := ih (k := k) (by omega) (by omega) (l := l.next) (by simp [hl])
      ((stopsPostfix_op1 ho _).mp hstop)
    exact ⟨l', by rw [unaryLoop, hhead]; simp [hl'], hr⟩

theorem complete_unary :
    Complete P.fuel StopsPostfix (parseUnaryExpression P expr) (Unary P.toDialect D) :=
  fun _ _ _ _ h hl hstop hn => complete_unaryLoop hD hexpr h hn.le hn hl hstop

end

theorem stopsLevels_of_op {ops : List (Token → Option OpKind)}
    (hs : op :: ops <:+ levels) (ht : op t ≠ none) (e : Expr) : StopsLevels ops e t := by
  have hmem : op ∈ levels := hs.subset mem_cons_self
  constructor
  · have hle := (hs.sublist.filter fun op => (op t).isSome).length_le.trans (levels_disjoint t)
    have hpos : (op t).isSome = true := Option.isSome_iff_ne_none.mpr ht
    simp only [filter_cons, hpos, if_true, length_cons] at hle
    have hnil : ops.filter (fun op => (op t).isSome) = [] := length_eq_zero_iff.mp (by omega)
    simpa using hnil
  · have hall : levels.all (fun op => op t = none) = true ∨ StopsPostfix e t := by
      cases t <;> first | exact .inl rfl | exact .inr (by simp)
    exact hall.resolve_left fun h => ht (of_decide_eq_true (all_eq_true.mp h op hmem))

theorem stopsLevels_op2 {ops ops' : List (Token → Option OpKind)}
    (hs : op :: ops <:+ levels) (ho : op t = some o) (a b : Expr)
    (u : Token) : StopsLevels ops' (.op2 o a b) u ↔ StopsLevels ops' b u := by
  have hop := all_eq_true.mp (levels_subscript t) op (hs.subset mem_cons_self)
  rw [StopsLevels, stopsPostfix_op2 fun h => of_decide_eq_true hop (h ▸ ho), StopsLevels]

theorem complete_logicalOR (hD : Starts D) (hexpr : Complete P.fuel StopsExpr expr D) :
    Complete P.fuel (StopsLevels levels) (parseLogicalORExpression P expr)
      (LogicalOR P.toDialect D) := by
  rw [parseLogicalOR_eq]
  refine levels_induction
    (M := fun ops => Complete P.fuel (StopsLevels ops) (parseLevels P expr ops)
      (Levels P.toDialect D ops))
    ?_ fun op ops hs ih => ?_
  · intro l ts us e h hl hstop hn
    exact complete_unary hD hexpr l ts us e h hl hstop.2 hn
  · intro l ts us e h hl hstop hn
    refine complete_chain ih (fun e t ht => stopsLevels_of_op hs ht e)
      (fun t o a b u ho => stopsLevels_op2 hs ho a b u) l ts us e h hl ?_ hn
    exact ⟨hstop.1 op mem_cons_self, fun op' h' => hstop.1 op' (mem_cons_of_mem _ h'), hstop.2⟩

theorem stopsLevels_qmark : StopsLevels levels e .qmark := by
  have hops : levels.all (fun op => op .qmark = none) = true := rfl
  exact ⟨by simpa using hops, by simp⟩

theorem complete_expression (hD : Starts D) (hexpr : Complete P.fuel StopsExpr expr D) :
    Complete P.fuel StopsExpr (expression P expr false) (Expression P.toDialect D) := by
  intro l ts us e h hl hstop hn
  rw [expression]
  cases h with
  | logicalOR h =>
    obtain ⟨l1, h1, hr1⟩ := complete_logicalOR hD hexpr l ts us e h hl hstop.2 hn
    have hno : l1.head ≠ .qmark := by simpa [Cursor.head, hr1] using hstop.1
    exact ⟨l1.peek, by rw [h1, andThen_some, if_neg hno]; rfl, hr1⟩
  | @orElse ts c vs r h hd =>
    rw [append_assoc] at hl
    simp only [length_append, length_cons] at hn
    obtain ⟨l1, h1, hr1⟩ := complete_logicalOR hD hexpr l ts _ c h hl stopsLevels_qmark
      (by omega)
    have hcolon : l1.next.head = .colon := Cursor.head_of_rest (by simp [hr1]; rfl)
    obtain ⟨l2, h2, hr2⟩ := hexpr l1.next.next vs us r hd (by simp [hr1]) hstop (by omega)
    refine ⟨l2, ?_, hr2⟩
    rw [h1, andThen_some, if_pos (Cursor.head_of_rest hr1), ternary, if_pos hcolon,
      ternaryRight, h2, andThen_some]
  | @ternary ts c ms m vs r h hm hd =>
    simp only [append_assoc] at hl
    simp only [length_append, length_cons] at hn
    obtain ⟨l1, h1, hr1⟩ := complete_logicalOR hD hexpr l ts _ c h hl stopsLevels_qmark
      (by omega)
    have hr1' : l1.next.rest = ms ++ .colon :: (vs ++ us) := by simp [hr1]
    obtain ⟨l2, h2, hr2⟩ := hexpr l1.next.peek ms (.colon :: (vs ++ us)) m hm hr1'
      (stopsExpr_of_closes rfl) (by omega)
    obtain ⟨l3, h3, hr3⟩ := hexpr l2.next vs us r hd (by simp [hr2]) hstop (by omega)
    -- The middle expression does not start with a colon.
    have hno : l1.next.head ≠ .colon := by
      obtain ⟨t, ws, rfl, ht⟩ := hD ms m hm
      rw [Cursor.head_of_rest hr1']
      rintro rfl
      cases ht
    refine ⟨l3, ?_, hr3⟩
    rw [h1, andThen_some, if_pos (Cursor.head_of_rest hr1), ternary, if_neg hno]
    simp only [h2]
    rw [if_pos (Cursor.head_of_rest hr2), if_neg (by simp), ternaryRight, h3, andThen_some]

/-- **The parser reads every sentence**, checked or not. -/
theorem complete_parseExpression :
    Complete P.fuel StopsExpr (parseExpression P n) (Sentence P.toDialect n) := by
  induction n with
  | zero => exact fun _ _ _ _ h => h.elim
  | succ n ih => exact complete_expression starts_sentence ih

/-! ## Where the parser stops -/

theorem makeCall_endsInName {s : Text} {args : List Expr}
    (h : makeCall G s args = some e) : e.endsInName = false := by
  unfold makeCall at h
  split at h
  · split_ifs at h <;> cases h <;> rfl
  · cases h
    rfl

theorem stops_primary : Stops StopsPrimary (parsePrimaryExpression P expr) := by
  intro l e l' h hopen
  rw [parsePrimaryExpression] at h
  split at h
  next s _ =>
    by_cases hcall : l.next.head = .openParen
    · rw [if_pos hcall] at h
      obtain ⟨args, l1, -, h⟩ := andThen_eq_some.mp h
      exact makeCall_endsInName (Prod.mk.inj h).1
    · rw [if_neg hcall] at h
      obtain ⟨-, rfl⟩ := some_eq_some h
      exact absurd hopen hcall
  next =>
    split at h
    · obtain ⟨rfl, -⟩ := some_eq_some h
      rfl
    · simp at h
  next =>
    obtain ⟨c, l1, -, h⟩ := andThen_eq_some.mp h
    split_ifs at h
    · obtain ⟨rfl, -⟩ := some_eq_some h
      rfl
    · simp at h
  next =>
    obtain ⟨attrs, l1, -, h⟩ := andThen_eq_some.mp h
    obtain ⟨rfl, -⟩ := some_eq_some h
    rfl
  next =>
    obtain ⟨es, l1, -, h⟩ := andThen_eq_some.mp h
    obtain ⟨rfl, -⟩ := some_eq_some h
    rfl
  case h_12 => simp at h
  -- the literals
  all_goals
    obtain ⟨rfl, -⟩ := some_eq_some h
    rfl

theorem stops_postfixLoop {e e' : Expr} (he : StopsPrimary e l.head)
    (h : postfixLoop expr n e l = (some e', l')) : StopsPostfix e' l'.head := by
  induction n generalizing e l with
  | zero => simp [postfixLoop] at h
  | succ n ih =>
    rw [postfixLoop] at h
    split at h
    next =>
      obtain ⟨i, l1, -, h⟩ := andThen_eq_some.mp h
      split_ifs at h
      · exact ih (fun _ => rfl) h
      · simp at h
    next =>
      simp only at h
      split at h
      · exact ih (fun _ => rfl) h
      · simp at h
    next hbox hsel =>
      obtain ⟨rfl, rfl⟩ := some_eq_some h
      exact ⟨he, hbox, hsel⟩

theorem stops_postfixExpr : Stops StopsPostfix (parsePostfixExpression P expr) := by
  intro l e l' h
  obtain ⟨c, l1, hc, h⟩ := andThen_eq_some.mp h
  exact stops_postfixLoop (stops_primary l c l1 hc) h

theorem stops_unary : Stops StopsPostfix (unaryLoop P expr n) := by
  induction n with
  | zero =>
    intro l e l' h
    simp [unaryLoop] at h
  | succ n ih =>
    intro l e l' h
    rw [unaryLoop] at h
    split at h
    next o ho =>
      obtain ⟨c, l1, hc, h⟩ := andThen_eq_some.mp h
      obtain ⟨rfl, rfl⟩ := some_eq_some h
      exact (stopsPostfix_op1 ho _).mpr (ih _ _ _ hc)
    next => exact stops_postfixExpr _ _ _ h

theorem stops_logicalOR : Stops (StopsLevels levels) (parseLogicalORExpression P expr) := by
  rw [parseLogicalOR_eq]
  refine levels_induction (M := fun ops => Stops (StopsLevels ops) (parseLevels P expr ops)) ?_
    fun op ops hs ih => ?_
  · intro l e l' h
    exact ⟨by simp, stops_unary _ _ _ h⟩
  · intro l e l' h
    obtain ⟨hop, hops, hpost⟩ :=
      stops_chain (fun t o a b u ho => stopsLevels_op2 hs ho a b u) ih l e l' h
    exact ⟨by simpa using ⟨hop, hops⟩, hpost⟩

theorem stops_expression (hexpr : Stops StopsExpr expr) :
    Stops StopsExpr (expression P expr false) := by
  intro l e l' h
  obtain ⟨c, l1, hc, h⟩ := expression_cases h
  rcases h with ⟨hq, rfl, rfl⟩ | ⟨-, m, r, l2, l3, rfl, hr, -⟩
  · exact ⟨hq, stops_logicalOR l e l1 hc⟩
  · exact hexpr l3 r l' hr

/-- **The parser reads as far as it can.** -/
theorem stops_parseExpression (n : ℕ) : Stops StopsExpr (parseExpression P n) := by
  induction n with
  | zero =>
    intro l e l' h
    simp [parseExpression] at h
  | succ n ih => exact stops_expression ih

/-! ## Ignored failures -/

/-- The parser that also looks at the result of the middle expression. -/
def Env.check (P : Env) : Env := { P with checked := true }

theorem expression_of_full {full : Bool} (h : expression P expr full l = (some e, l')) :
    ∃ l1, expression P expr false l = (some e, l1) ∧
      (l' = l1 ∨ (full = true ∧ l1.head = .endOfInput ∧ l' = l1.next)) := by
  obtain ⟨c, l1, hc, h⟩ := andThen_eq_some.mp h
  by_cases hq : l1.head = .qmark
  · rw [if_pos hq] at h
    exact ⟨l', by rw [expression, hc, andThen_some, if_pos hq, h], .inl rfl⟩
  · rw [if_neg hq] at h
    have hfalse : expression P expr false l = (some c, l1.peek) := by
      rw [expression, hc, andThen_some, if_neg hq]
      rfl
    cases full with
    | false =>
      obtain ⟨rfl, rfl⟩ := some_eq_some h
      exact ⟨_, hfalse, .inl rfl⟩
    | true =>
      simp only [if_true, Prod.mk.injEq] at h
      obtain ⟨he, rfl⟩ := h
      split_ifs at he with hend
      obtain rfl := Option.some.inj he
      exact ⟨_, hfalse, .inr ⟨rfl, hend, rfl⟩⟩

theorem parseExpression_of_check (hn : l.rest.length < P.fuel)
    (h : parseExpression P.check n l = (some e, l')) :
    ∃ l1, parseExpression P n l = (some e, l1) ∧ l1.rest = l'.rest := by
  obtain ⟨ts, hts, hd⟩ := sound_parseExpression rfl l e l' h
  have hstop := stops_parseExpression n l e l' h
  refine complete_parseExpression l ts l'.rest e hd hts hstop ?_
  rw [hts, length_append] at hn
  omega

/-- **The parser has read a sentence with the returned tree as its meaning just when the checking
parser accepts it.** -/
theorem parseExpression_sentence_iff {n : ℕ} {full : Bool} {l l' : Lexer} {e : Expr}
    (hn : l.rest.length < P.fuel) (h : expression P (parseExpression P n) full l = (some e, l')) :
    ∃ l₁, expression P (parseExpression P n) false l = (some e, l₁) ∧
      (l' = l₁ ∨ (full = true ∧ l₁.head = .endOfInput ∧ l' = l₁.next)) ∧
      ((∃ ts, l.rest = ts ++ l₁.rest ∧ Sentence P.toDialect (n + 1) ts e) ↔
        (parseExpression P.check (n + 1) l).1.isSome) := by
  obtain ⟨l₁, h₁, hl1⟩ := expression_of_full h
  refine ⟨l₁, h₁, hl1, ?_, ?_⟩
  · rintro ⟨ts, hts, hd⟩
    have hstop := stops_parseExpression (n + 1) l e l₁ h₁
    have hlen : ts.length < P.fuel := by
      rw [hts, length_append] at hn
      omega
    obtain ⟨l₂, h₂, -⟩ :=
      complete_parseExpression (P := P.check) l ts l₁.rest e hd hts hstop hlen
    rw [h₂]
    rfl
  · intro hsome
    obtain ⟨e2, l₂, h₂⟩ : ∃ e2 l₂, parseExpression P.check (n + 1) l = (some e2, l₂) := by
      cases hrun : parseExpression P.check (n + 1) l with
      | mk r l₂ =>
        rw [hrun] at hsome
        exact ⟨r.get hsome, l₂, by simp⟩
    obtain ⟨l₃, h₃, hr⟩ := parseExpression_of_check hn h₂
    obtain ⟨rfl, rfl⟩ := some_eq_some (h₁.symm.trans h₃)
    obtain ⟨ts, hts, hd⟩ := sound_parseExpression rfl l e l₂ h₂
    exact ⟨ts, by rw [hr]; exact hts, hd⟩

/-- The parser of the source in the new syntax, for texts of a few tokens. -/
def newParser : Env := ⟨⟨.new, fun _ => false, fun _ => false⟩, 20, false⟩

/-- The lexer in front of `a ? t : c`. -/
def ternaryOf (t : Token) : Lexer :=
  ⟨.endOfInput, [.identifier ['a'], .qmark, t, .colon, .identifier ['c']]⟩

theorem parseExpression_sentence_iff_ternary :
    ∃ l₁, expression newParser (parseExpression newParser 999) false
        (ternaryOf (.identifier ['b'])) =
        (some (.op3 (.attrRef none ['a'] false) (some (.attrRef none ['b'] false))
          (.attrRef none ['c'] false)), l₁) ∧
      ((∃ ts, (ternaryOf (.identifier ['b'])).rest = ts ++ l₁.rest ∧
        Sentence newParser.toDialect 1000 ts (.op3 (.attrRef none ['a'] false)
          (some (.attrRef none ['b'] false)) (.attrRef none ['c'] false))) ↔
        (parseExpression newParser.check 1000 (ternaryOf (.identifier ['b']))).1.isSome) := by
  obtain ⟨l₁, h₁, -, hiff⟩ := parseExpression_sentence_iff
    (l := ternaryOf (.identifier ['b'])) (by decide)
    (show expression newParser (parseExpression newParser 999) true _ = _ from rfl)
  exact ⟨l₁, h₁, hiff⟩

/-- The middle expression of `a ? + : c` fails, and the operation is accepted without it. -/
theorem parseExpression_ignores_failure : ∃ l', parseExpression newParser 1000 (ternaryOf .plus) =
        (some (.op3 (.attrRef none ['a'] false) none (.attrRef none ['c'] false)), l') ∧
      ¬ ∃ ts, (ternaryOf .plus).rest = ts ++ l'.rest ∧ Sentence newParser.toDialect 1000 ts
        (.op3 (.attrRef none ['a'] false) none (.attrRef none ['c'] false)) := by
  refine ⟨⟨.endOfInput, []⟩, rfl, ?_⟩
  rintro ⟨ts, hts, hd⟩
  have hlen : ts.length = 5 := by simpa [ternaryOf] using (congrArg length hts).symm
  obtain ⟨l₂, h₂, -⟩ := complete_parseExpression (P := newParser.check) _ ts _ _ hd hts
    (stopsExpr_of_closes rfl) (by rw [hlen]; decide)
  have hnone : (parseExpression newParser.check 1000 (ternaryOf .plus)).1.isSome = false := rfl
  rw [h₂] at hnone
  cases hnone

end Condor.ClassAd
