import Condor.ClassAd.Reuse

/-!
# Full parses — what is left of the text

A full parse asks for the end of the text behind an expression, but not behind a ternary operation:
the branch of `parseExpression` that builds it returns at once.

* `expression_full_cases`: what a parse returns, with and without the flag;
* **`full_parse_consumes_iff`**.
-/

namespace Condor.ClassAd

open Descent Cursor ClassAdParser

variable {G : Dialect} {P : Env} {D : List Token → Expr → Prop} {expr : Parse Expr} {e : Expr}
  {l l' : Lexer} {ts : List Token} {m : Mode}

/-! ## Ternary operations -/

/-- The operator at the root is `?:`. -/
def Expr.isTernary : Expr → Bool
  | .op3 .. => true
  | _ => false

theorem makeCall_not_ternary {name : Text} {args : List Expr} (h : makeCall G name args = some e) :
    e.isTernary = false := by
  unfold makeCall at h
  split at h
  · split_ifs at h <;> cases h <;> rfl
  · cases h
    rfl

theorem unary_not_ternary (h : Unary G D ts e) : e.isTernary = false := by
  cases h with
  | op => rfl
  | operand h =>
    cases h with
    | selection => rfl
    | subscript => rfl
    | primary h =>
      cases h with
      | call _ hcall => exact makeCall_not_ternary hcall
      | _ => rfl

theorem chain_not_ternary {op : Token → Option OpKind} (hD : ∀ ts e, D ts e → e.isTernary = false)
    (h : Chain D op Expr.op2 ts e) : e.isTernary = false := by
  cases h with
  | one h => exact hD _ _ h
  | more => rfl

theorem logicalOR_not_ternary (h : parseLogicalORExpression P expr l = (some e, l')) :
    e.isTernary = false := by
  have hany : Sound Anything expr fun _ _ => True := fun _ _ _ _ => ⟨[], trivial, trivial⟩
  obtain ⟨ts, -, hor⟩ := sound_logicalOR record_anything hany _ _ _ h
  have hlevels := levels_induction
    (M := fun ops => ∀ ts e, Levels P.toDialect (fun _ _ => True) ops ts e → e.isTernary = false)
    (fun _ _ => unary_not_ternary) fun op ops _ ih _ _ => chain_not_ternary ih
  exact hlevels ts e hor

theorem ternary_isTernary {c : Expr} (h : ternary P expr c l = (some e, l')) :
    e.isTernary = true := by
  have hright : ∀ {m : Option Expr} {l : Lexer}, ternaryRight expr c m l = (some e, l') →
      e.isTernary = true := by
    intro m l h
    obtain ⟨r, l1, -, h⟩ := andThen_eq_some.mp h
    cases h
    rfl
  rw [ternary] at h
  split_ifs at h
  · exact hright h
  · dsimp only at h
    split_ifs at h
    · cases h
    · exact hright h
    · cases h

/-- A parse returns a ternary operation, or an expression behind which a full one asks for the end.
-/
theorem expression_full_cases {full : Bool} (h : expression P expr full l = (some e, l')) :
    (e.isTernary = true ∧ ∀ full', expression P expr full' l = (some e, l')) ∨
      (e.isTernary = false ∧ (full = true → ∃ l1 : Lexer, l1.head = .endOfInput ∧ l' = l1.next ∧
        expression P expr false l = (some e, l1.peek))) := by
  obtain ⟨c, l1, hc, h⟩ := andThen_eq_some.mp h
  by_cases hq : l1.head = .qmark
  · rw [if_pos hq] at h
    refine .inl ⟨ternary_isTernary h, fun full' => ?_⟩
    rw [expression, hc, andThen_some, if_pos hq, h]
  · have hterm := logicalOR_not_ternary hc
    have hfalse : expression P expr false l = (some c, l1.peek) := by
      rw [expression, hc, andThen_some, if_neg hq]
      rfl
    rw [if_neg hq] at h
    cases full with
    | false =>
      obtain ⟨rfl, -⟩ := some_eq_some h
      exact .inr ⟨hterm, fun h => by cases h⟩
    | true =>
      simp only [if_true, Prod.mk.injEq] at h
      obtain ⟨he, rfl⟩ := h
      split_ifs at he with hend
      obtain rfl := Option.some.inj he
      exact .inr ⟨hterm, fun _ => ⟨l1, hend, rfl, hfalse⟩⟩

/-! ## The end of the input -/

theorem endOfInput_notMem_tokensLoop (n : ℕ) (last : Token) (s : Text) :
    .endOfInput ∉ tokensLoop m n last s := by
  induction n generalizing last s with
  | zero => simp [tokensLoop]
  | succ n ih =>
    rw [tokensLoop]
    split
    · simp
    · next t s' hne hpeek =>
      rw [List.mem_cons, not_or]
      exact ⟨fun h => hne (h ▸ rfl), ih _ _⟩

theorem rest_eq_nil (hmem : .endOfInput ∉ l.rest) (hhead : l.head = .endOfInput) : l.rest = [] := by
  cases hrest : l.rest with
  | nil => rfl
  | cons t ts =>
    rw [Cursor.head_of_rest hrest] at hhead
    rw [hrest, hhead] at hmem
    exact absurd List.mem_cons_self hmem

/-- **A full parse that succeeds has consumed the text just when the expression at its front is no
ternary operation, or nothing follows.** -/
theorem full_parse_consumes_iff (p : ClassAdParser) (s : Text) :
    (∀ e l, parseTop p.dialect true (p.initializeLexer s) = (some e, l) → l.rest = []) ↔
      ∀ e l, parseTop p.dialect false (p.initializeLexer s) = (some e, l) → e.isTernary = true →
      l.rest = [] := by
  constructor
  · intro hfull e l h hternary
    rcases expression_full_cases h with ⟨-, hsame⟩ | ⟨hnot, -⟩
    · exact hfull e l (hsame true)
    · rw [hnot] at hternary
      cases hternary
  · intro hplain e l h
    rcases expression_full_cases h with ⟨hternary, hsame⟩ | ⟨-, hend⟩
    · exact hplain e l (hsame false) hternary
    · obtain ⟨l₁, hhead, rfl, hfalse⟩ := hend rfl
      have hparse : parseTop p.dialect false (p.initializeLexer s) = (some e, l₁.peek) := hfalse
      have hforward : (parseTop p.dialect false (p.initializeLexer s)).2.rest <:+
          (p.initializeLexer s).rest :=
        forward_expression forward_parseExpression false (p.initializeLexer s)
      rw [hparse] at hforward
      have hnil : l₁.rest = [] := rest_eq_nil
        (fun hmem => endOfInput_notMem_tokensLoop _ _ _ (hforward.subset hmem)) hhead
      rw [Cursor.rest_next, hnil, List.tail_nil]

/-- A full parse of `a ? b : c d` leaves `d`. -/
theorem full_parse_leaves_rest :
    parseTop newDialect true ((ClassAdParser.new newDialect).initializeLexer "a ? b : c d".toList) =
      (some (.op3 (.attrRef none ['a'] false) (some (.attrRef none ['b'] false))
      (.attrRef none ['c'] false)), ⟨.identifier ['d'], [.identifier ['d']]⟩) := rfl

end Condor.ClassAd
