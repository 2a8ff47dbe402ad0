import Condor.ClassAd.Scope

/-!
# The two evaluators

An operator that short-circuits takes its value from the first operand. The evaluator for
significant expressions evaluates the other operands as well, and `_doOperation` also wants the
second operand of `||` and `&&` to be of a type that logic knows. It can come out of an operand in
another ad than the one where it has gone in, too: after an attribute that fails, the ad is not
restored.

* **`doOperation_of_shortCircuit`**: when a short circuit gives what the operator gives.
* **`evaluators_agree`**: when the evaluators do, for a whole tree and whatever their fuel. The
  condition is on the short circuits that are taken and on the states after the operands that only
  one of them evaluates (`Clean`).
-/

namespace Condor.ClassAd

open List Bool Value
open Run (bind_of_ok bind_eq_ok bind_apply get_apply set_apply Below post Idle attempt within)

variable {R P : Type} {D : Doubles R} {op : OpKind} {v v₁ v₂ v₃ : Value R P} {b : Bool}
  {o : Option (Value R P)} {t : Node R P} {es : List (Node R P)} {scope : Option (Node R P)}
  {absolute : Bool} {name : Text} {x : Eval R P (Value R P)}
  {ev rec : Node R P → Eval R P (Value R P)} {s s' : EvalState P}

/-! ## One operation -/

/-- The value is a truth value or a number, undefined or an error. -/
def Value.isLogical (D : Doubles R) (v : Value R P) : Bool :=
  (v.booleanEquiv D).isSome || v.kind = .undefined || v.kind = .error

theorem Value.toBoolean_of_some (h : v.booleanEquiv D = some b) : v.toBoolean D = .boolean b := by
  rw [toBoolean, h]

theorem Value.toBoolean_of_none (h : v.booleanEquiv D = none) : v.toBoolean D = v := by
  rw [toBoolean, h]

theorem Value.kind_ne_boolean (h : v.booleanEquiv D = none) : v.kind ≠ .boolean := by
  intro hk
  rcases v with (_ | _ | _ | _ | _ | _ | _ | _) | ⟨_ | _, _, _⟩ | ⟨_ | _, _⟩ <;> cases hk
  cases h

theorem Value.isTruth_toBoolean : (v.toBoolean D).isTruth = v.isLogical D := by
  cases h : v.booleanEquiv D with
  | some b => simp [toBoolean_of_some h, isLogical, h, isTruth, kind]
  | none =>
    have hk := kind_ne_boolean h
    simp [toBoolean_of_none h, isLogical, h, isTruth, hk]

@[simp] theorem Value.isTruth_boolean : (boolean b : Value R P).isTruth = true :=
  rfl

theorem doLogical_of_decided (h : v₁.booleanEquiv D = some b) :
    doLogical D (if b then .logicalOr else .logicalAnd) v₁ v₂ =
      if v₂.isLogical D then .boolean b else .error := by
  have hv₁ := toBoolean_of_some h
  simp only [doLogical, hv₁, isTruth_toBoolean]
  by_cases hv₂ : v₂.isLogical D = true <;> cases b <;> simp [hv₂, logical]

theorem doTernary_of_boolean (v₂ : Value R P) (h : v₁.booleanEquiv D = some b) :
    doTernary D v₁ (some v₂) v₃ = (if b then v₂ else v₃) ∧ doTernary D v₁ none v₃ = v₁ := by
  have hk : v₁.kind ≠ .undefined := by
    intro hk
    rcases v₁ with (_ | _ | _ | _ | _ | _ | _ | _) | ⟨_ | _, _, _⟩ | ⟨_ | _, _⟩ <;> cases hk
    cases h
  cases b <;> simp [doTernary, hk, h]

variable {E : World R P}

/-- **A short circuit** gives what the operator gives exactly if the second operand is logical. -/
theorem doOperation_of_shortCircuit (h : shortCircuit E op v₁ = some v) :
    doOperation E.doubles op v₁ (some v₂) = some v ↔ v₂.isLogical E.doubles = true := by
  have hdecided : ∀ b, v₁.booleanEquiv E.doubles = some b →
      (some (doLogical E.doubles (if b then .logicalOr else .logicalAnd) v₁ v₂) =
        some (boolean b) ↔ v₂.isLogical E.doubles = true) := by
    intro b hb
    rw [doLogical_of_decided hb]
    split <;> simp_all [boolean, error]
  unfold shortCircuit at h
  split at h
  · rename_i hb
    cases h
    exact hdecided true hb
  · rename_i hb
    cases h
    exact hdecided false hb
  · cases h

theorem tryOperand_of_ok (h : operand x s = some (.ok v, s')) :
    tryOperand x s = some (.ok (some v), s') := by
  simp [tryOperand, bind_apply, attempt, Run.mapError_eq_ok.mp h]

/-! ## Where the evaluators part -/

section

variable [DecidableEq P] (E)

/-- **The condition**, on the run of the second evaluator: where the first one takes a short
circuit of `||` or `&&`, the second operand has a logical value, and what only the second one
evaluates leaves the state as it was. -/
def Clean : ℕ → Node R P → EvalState P → Prop
  | 0, _, _ => True
  | n + 1, t, s =>
    match t with
    | .literal _ | .ad _ | .list _ _ | .attrRef none _ _ => True
    | .attrRef (some e) name _ => Clean n e s ∧ post (sig E n e) (fun v s₁ =>
        match v with
        | .list _ _ es => ∀ e ∈ es, post (newState E n s₁.depth s₁.cur)
            (fun t _ => Clean n (.attrRef (some e) name false) t) s₁
        | _ => True) s
    | .op1 _ e => Clean n e s
    | .op2 op l r => Clean n l s ∧ post (sig E n l) (fun v₁ s₁ =>
        match shortCircuit E op v₁ with
        | some _ => post (sig E n r) (fun v₂ _ => v₂.isLogical E.doubles = true) s₁ ∧
            Idle (sig E n r) s₁
        | none => Clean n r s₁) s
    | .op3 c m r => Clean n c s ∧ post (sig E n c) (fun v₁ s₁ =>
        match v₁.booleanEquiv E.doubles, m with
        | some true, some m => Clean n m s₁ ∧ post (sig E n m) (fun _ => Idle (sig E n r)) s₁
        | some false, some m => Idle (sig E n m) s₁ ∧ Clean n r s₁
        -- The condition is evaluated again.
        | some false, none => s₁ = s ∧ Idle (sig E n r) s₁
        | _, m => (∀ e ∈ m, Clean n e s₁) ∧
            post (operand? (sig E n) m) (fun _ => Clean n r) s₁) s
    | .call name args => post (evalStep E n (eval E n) (.call name args))
        (fun _ => Idle (sigArgs (sig E n) args true)) s

end

variable [DecidableEq P] {n : ℕ}

/-- How an attribute reference returns; this does not depend on what it restores when it fails. -/
theorem evalRef_eq_ok {restores : Bool} :
    evalRef E n ev rec restores scope name absolute s = some (.ok v, s') ↔
      ∃ found s1, findExpr E n ev name absolute scope s = some (.ok found, s1) ∧ match found with
        | .fail => False
        | .error => v = .error ∧ s' = { s1 with cur := s.cur }
        | .undef => v = .undefined ∧ s' = { s1 with cur := s.cur }
        | .ok t => 0 < s1.depth ∧ ∃ s2, rec t { s1 with depth := s1.depth - 1 } = some (.ok v, s2) ∧
            s' = { s2 with depth := s2.depth + 1, cur := s.cur } := by
  have hdeeper : ∀ t s1, deeper rec t s.cur restores s1 = some (.ok v, s') ↔ 0 < s1.depth ∧
      ∃ s2, rec t { s1 with depth := s1.depth - 1 } = some (.ok v, s2) ∧
        s' = { s2 with depth := s2.depth + 1, cur := s.cur } := by
    intro t s1
    unfold deeper
    rw [bind_of_ok (get_apply s1)]
    by_cases hdepth : s1.depth ≤ 0
    · rw [if_pos hdepth]
      constructor
      · intro h
        cases h
      · rintro ⟨h, -⟩
        omega
    · rw [if_neg hdepth, bind_of_ok (set_apply _ _)]
      simp only [bind_apply, attempt]
      cases hrec : rec t { s1 with depth := s1.depth - 1 } with
      | none => simp
      | some o =>
        obtain ⟨_ | w, s2⟩ := o
        · simp [bind_apply]
        · simp only [get_apply, bind_apply, set_apply, Run.pure_apply, Option.some.injEq,
            Prod.mk.injEq, Except.ok.injEq]
          constructor
          · rintro ⟨rfl, rfl⟩
            exact ⟨by omega, s2, ⟨rfl, rfl⟩, rfl⟩
          · rintro ⟨-, s3, ⟨rfl, rfl⟩, rfl⟩
            exact ⟨rfl, rfl⟩
  unfold evalRef
  rw [bind_of_ok (get_apply s), bind_eq_ok]
  refine exists_congr fun found => exists_congr fun s1 => and_congr_right fun _ => ?_
  cases found with
  | ok t => exact hdeeper t s1
  | undef | error =>
    simp only [bind_of_ok (get_apply s1), bind_of_ok (set_apply _ _), Run.pure_apply,
      Option.some.injEq, Prod.mk.injEq, Except.ok.injEq]
    exact ⟨fun ⟨h1, h2⟩ => ⟨h1.symm, h2.symm⟩, fun ⟨h1, h2⟩ => ⟨h1.symm, h2.symm⟩⟩
  | fail => simp

/-! ## What the second evaluator returns -/

theorem selectAll_of_sig {ts : List (Node R P)} (hrec : ∀ e ∈ es,
      post (newState E n s.depth s.cur) (fun t _ => ∀ v t', rec (.attrRef (some e) name false) t =
        some (.ok v, t') → ev (.attrRef (some e) name false) t = some (.ok v, t')) s)
    (h : selectAll E n rec name es s = some (.ok (some ts), s')) :
    selectAll E n ev name es s = some (.ok (some ts), s') := by
  induction es generalizing ts with
  | nil => exact h
  | cons e es ih =>
    obtain ⟨he, hes⟩ := forall_mem_cons.mp hrec
    simp only [selectAll, bind_of_ok (get_apply s), bind_eq_ok] at h ⊢
    obtain ⟨t, s1, hnew, r, s2, hwithin, h⟩ := h
    obtain ⟨rfl, -⟩ := gives_newState E _ _ _ _ _ hnew
    cases hx : rec (.attrRef (some e) name false) t with
    | none => simp [within, hx] at hwithin
    | some o =>
      obtain ⟨r1, t1⟩ := o
      simp only [within, hx, Option.some.injEq, Prod.mk.injEq, Except.ok.injEq] at hwithin
      obtain ⟨rfl, rfl⟩ := hwithin
      cases r1 with
      | error v => cases h
      | ok v =>
        simp only [bind_eq_ok] at h
        obtain ⟨o, s3, hrest, h⟩ := h
        cases o with
        | none => cases h
        | some ts' =>
          cases h
          have hx' := he.of_ok hnew v t1 hx
          refine ⟨t, s1, hnew, .ok v, s1, ?_, ?_⟩
          · simp [within, hx']
          · simp [bind_of_ok (ih hes hrest)]

/-- The scope is looked at in the same way, if the evaluators agree on it. -/
theorem findExpr_of_sig {found : Found R P}
    (hrec : ∀ e ∈ scope, ∀ v s₁, rec e s = some (.ok v, s₁) → ev e s = some (.ok v, s₁) ∧
      ∀ own sc es, v = .list own sc es → ∀ ts s₂, selectAll E n rec name es s₁ =
        some (.ok (some ts), s₂) → selectAll E n ev name es s₁ = some (.ok (some ts), s₂))
    (hfound : found ≠ .fail) (h : findExpr E n rec name absolute scope s = some (.ok found, s')) :
    findExpr E n ev name absolute scope s = some (.ok found, s') := by
  cases scope with
  | none => exact h
  | some e =>
    simp only [findExpr, bind_apply, attempt] at h ⊢
    cases hx : rec e s with
    | none => rw [hx] at h; cases h
    | some o =>
      obtain ⟨r, s1⟩ := o
      rw [hx] at h
      cases r with
      | error v =>
        cases h
        exact absurd rfl hfound
      | ok v =>
        obtain ⟨hx', hlist⟩ := hrec e rfl v s1 hx
        rw [hx']
        rcases v with c | ⟨own, sc, es⟩ | ⟨own, p⟩
        · cases c <;> exact h
        · simp only [bind_apply] at h ⊢
          cases hsel : selectAll E n rec name es s1 with
          | none => rw [hsel] at h; cases h
          | some o =>
            obtain ⟨r, s2⟩ := o
            rw [hsel] at h
            rcases r with v | _ | ts
            · cases h
            · cases h
              exact absurd rfl hfound
            · rw [hlist own sc es rfl ts s2 hsel]
              exact h
        · exact h

theorem evalStep_op3_of_some {c r : Node R P} {m : Option (Node R P)} {s₁ : EvalState P}
    (hc : operand (rec c) s = some (.ok v₁, s₁))
    (hshort : shortCircuit3 E rec v₁ c m r s₁ = some (.ok (some v), s')) :
    evalStep E n rec (.op3 c m r) s = some (.ok v, s') := by
  rw [evalStep, bind_of_ok hc, bind_of_ok hshort]
  rfl

/-- **What the second evaluator returns, the first one does as well**, and it leaves the same state.
-/
theorem eval_of_sig (hclean : Clean E n t s) (h : sig E n t s = some (.ok v, s')) :
    eval E n t s = some (.ok v, s') := by
  induction n generalizing t s s' v with
  | zero => cases h
  | succ n ih =>
    have hoperand : ∀ {t : Node R P} {s s' v}, Clean E n t s →
        operand (sig E n t) s = some (.ok v, s') → operand (eval E n t) s = some (.ok v, s') :=
      fun hclean h => Run.mapError_eq_ok.mpr (ih hclean (Run.mapError_eq_ok.mp h))
    cases t with
    | literal c | ad p | list scope es => exact h
    | attrRef scope name absolute =>
      obtain ⟨found, s1, hfind, hrest⟩ := evalRef_eq_ok.mp h
      have hfail : found ≠ .fail := by
        rintro rfl
        exact hrest.elim
      refine evalRef_eq_ok.mpr ⟨found, s1, findExpr_of_sig ?_ hfail hfind, hrest⟩
      rintro e he w s2 hsig
      cases he
      refine ⟨ih hclean.1 hsig, ?_⟩
      rintro own sc es rfl ts s3 hsel
      have hes := hclean.2.of_ok hsig
      refine selectAll_of_sig (fun e he => ?_) hsel
      exact (hes e he).mono fun t _ ht w t' hw => ih ht hw
    | call name args =>
      simp only [sig, sigStep, bind_eq_ok] at h
      obtain ⟨w, s1, hcall, b, s2, hargs, h⟩ := h
      have hidle : Idle (sigArgs (sig E n) args true) s1 := hclean.of_ok hcall
      cases b with
      | false => cases h
      | true =>
        cases h
        cases hidle.of_ok hargs
        exact hcall
    | op1 op e =>
      simp only [sig, sigStep, bind_eq_ok] at h
      obtain ⟨v₁, s1, h1, h⟩ := h
      exact (bind_of_ok (hoperand hclean h1)).trans h
    | op2 op l r =>
      simp only [sig, sigStep, bind_eq_ok] at h
      obtain ⟨v₁, s1, h1, v₂, s2, h2, h⟩ := h
      have hrest := hclean.2.of_ok (Run.mapError_eq_ok.mp h1)
      simp only [eval, evalStep, bind_of_ok (hoperand hclean.1 h1)]
      cases hshort : shortCircuit E op v₁ with
      | none =>
        rw [hshort] at hrest
        simpa only [bind_of_ok (hoperand hrest h2)] using h
      | some w =>
        -- The second operand is logical, and so the operator agrees with the short circuit.
        rw [hshort] at hrest
        have hlogical := hrest.1.of_ok (Run.mapError_eq_ok.mp h2)
        cases hrest.2.of_ok (Run.mapError_eq_ok.mp h2)
        have hdo := (doOperation_of_shortCircuit hshort).mpr hlogical
        simpa only [operate, hdo] using h
    | op3 c m r =>
      simp only [sig, sigStep, bind_eq_ok] at h
      obtain ⟨v₁, s1, h1, o, s2, ho, v₃, s3, h3, h⟩ := h
      have hrest := hclean.2.of_ok (Run.mapError_eq_ok.mp h1)
      have h1' := hoperand hclean.1 h1
      have h3sig := Run.mapError_eq_ok.mp h3
      cases h
      -- Without a short circuit both evaluators ask for the same operands.
      have hall (hm : ∀ e ∈ m, Clean E n e s1) (hr : Clean E n r s2)
          (hshort : shortCircuit3 E (eval E n) v₁ c m r s1 = some (.ok none, s1)) :
          eval E (n + 1) (.op3 c m r) s = some (.ok (doTernary E.doubles v₁ o v₃), s') := by
        have ho' : operand? (eval E n) m s1 = some (.ok o, s2) := by
          cases m with
          | none => exact ho
          | some m =>
            simp only [operand?, bind_eq_ok] at ho ⊢
            obtain ⟨v₂, s4, h2, ho⟩ := ho
            exact ⟨v₂, s4, hoperand (hm m rfl) h2, ho⟩
        simp only [eval, evalStep, bind_of_ok h1', bind_of_ok hshort, bind_of_ok ho',
          bind_of_ok (hoperand hr h3)]
        rfl
      cases m with
      | none =>
        cases ho
        have hm : ∀ e ∈ (none : Option (Node R P)), Clean E n e s1 := by simp
        rcases hb : v₁.booleanEquiv E.doubles with _ | _ | _ <;> rw [hb] at hrest
        · exact hall hm hrest.2 (by simp [shortCircuit3, hb])
        · obtain ⟨rfl, hidle⟩ := hrest
          cases hidle.of_ok h3sig
          rw [(doTernary_of_boolean v₁ hb).2]
          refine evalStep_op3_of_some h1' ?_
          simp only [shortCircuit3, hb]
          exact tryOperand_of_ok h1'
        · exact hall hm hrest.2 (by simp [shortCircuit3, hb])
      | some m =>
        have ho' := ho
        simp only [operand?, bind_eq_ok] at ho'
        obtain ⟨v₂, s4, h2, ho'⟩ := ho'
        cases ho'
        have h2sig := Run.mapError_eq_ok.mp h2
        rcases hb : v₁.booleanEquiv E.doubles with _ | _ | _ <;> rw [hb] at hrest
        · have hr : Clean E n r s2 := hrest.2.of_ok ho
          exact hall hrest.1 hr (by simp [shortCircuit3, hb])
        · cases hrest.1.of_ok h2sig
          rw [(doTernary_of_boolean v₂ hb).1]
          refine evalStep_op3_of_some h1' ?_
          simp only [shortCircuit3, hb]
          exact tryOperand_of_ok (hoperand hrest.2 h3)
        · have hidle : Idle (sig E n r) s2 := hrest.2.of_ok h2sig
          cases hidle.of_ok h3sig
          rw [(doTernary_of_boolean v₂ hb).1]
          refine evalStep_op3_of_some h1' ?_
          simp only [shortCircuit3, hb]
          exact tryOperand_of_ok (hoperand hrest.1 h2)

/-! ## More fuel -/

section

variable {rec' : Node R P → Eval R P (Value R P)}

theorem below_lookupFrom (start p : P) :
    Below (lookupFrom E start name n p) (lookupFrom E start name (n + 1) p) := by
  induction n generalizing p with
  | zero => exact fun _ _ h => by cases h
  | succ n ih =>
    refine .bind (.refl _) fun s => .bind (.refl _) fun _ => ?_
    split
    · exact .refl _
    · split
      · split
        · exact .refl _
        · split_ifs
          · exact .refl _
          · exact ih _
      all_goals exact .refl _

theorem rootFrom_succ {start p : P} {r : Option P} (h : rootFrom E start n p = some r) :
    rootFrom E start (n + 1) p = some r := by
  induction n generalizing p with
  | zero => cases h
  | succ n ih =>
    rw [rootFrom] at h ⊢
    split at h
    · exact h
    · split_ifs at h ⊢
      · exact h
      · exact ih h

theorem below_newState (depth : ℤ) (cur : Option P) :
    Below (newState E n depth cur) (newState E (n + 1) depth cur) := by
  intro s r h
  unfold newState at h ⊢
  split at h
  · exact h
  · split at h
    · cases h
    · rename_i hroot
      rw [rootFrom_succ hroot]
      exact h

section

variable (hrec : ∀ t, Below (rec t) (rec' t))
include hrec

theorem below_selectAll : Below (selectAll E n rec name es) (selectAll E (n + 1) rec' name es) := by
  induction es with
  | nil => exact .refl _
  | cons e es ih =>
    refine .bind (.refl _) fun s => .bind (below_newState _ _) fun t =>
      .bind (.within t (hrec _)) fun r => ?_
    split
    · exact .refl _
    · exact .bind ih fun _ => .refl _

theorem below_findExpr :
    Below (findExpr E n rec name absolute scope) (findExpr E (n + 1) rec' name absolute scope) := by
  cases scope with
  | none =>
    refine .bind (.refl _) fun s => ?_
    split
    · exact .refl _
    · refine .bind (below_lookupFrom _ _) fun found => ?_
      split
      · split
        · exact .refl _
        · exact below_lookupFrom _ _
      · exact .refl _
  | some e =>
    refine .bind (.attempt (hrec e)) fun r => ?_
    split
    · exact .refl _
    · exact .refl _
    · exact .refl _
    · exact below_lookupFrom _ _
    · exact .bind (below_selectAll hrec) fun _ => .refl _
    · exact .refl _

theorem below_evalRef : Below (evalRef E n rec rec true scope name absolute)
      (evalRef E (n + 1) rec' rec' true scope name absolute) := by
  refine .bind (.refl _) fun s => .bind (below_findExpr hrec) fun found => ?_
  split
  · exact .refl _
  · exact .refl _
  · exact .refl _
  · refine .bind (.refl _) fun s => ?_
    split
    · exact .refl _
    · exact .bind (.refl _) fun _ => .bind (.attempt (hrec _)) fun _ => .refl _

theorem below_subscript : Below (subscript E n rec v₁ v₂) (subscript E (n + 1) rec' v₁ v₂) := by
  unfold subscript
  split
  · split
    · exact .refl _
    · refine .bind (below_newState _ _) fun t => .bind (.within t ?_) fun _ => .refl _
      refine .bind (below_lookupFrom _ _) fun found => ?_
      split
      · exact .bind (hrec _) fun _ => .refl _
      all_goals exact .refl _
  · dsimp only
    split_ifs
    · exact .refl _
    · split
      · exact .refl _
      · refine .bind (.refl _) fun s => ?_
        split_ifs
        · exact .refl _
        · exact .bind (.refl _) fun _ => .bind (.attempt (hrec _)) fun _ => .refl _
  · exact .refl _

theorem below_operate : Below (operate E n rec op v₁ o) (operate E (n + 1) rec' op v₁ o) := by
  unfold operate
  split
  · exact .refl _
  · exact below_subscript hrec

end

/-- The functions return the same with an evaluator that has more fuel. -/
def World.FunctionsMonotone (E : World R P) : Prop :=
  ∀ name f, E.function name = some f → ∀ rec rec' : Node R P → Eval R P (Value R P),
    (∀ t, Below (rec t) (rec' t)) → ∀ args, Below (f rec args) (f rec' args)

theorem below_evalStep (hE : E.FunctionsMonotone) (hrec : ∀ t, Below (rec t) (rec' t)) :
    Below (evalStep E n rec t) (evalStep E (n + 1) rec' t) := by
  have hoperand : ∀ t, Below (operand (rec t)) (operand (rec' t)) := fun t =>
    .mapError _ (hrec t)
  have htry : ∀ t, Below (tryOperand (rec t)) (tryOperand (rec' t)) := fun t =>
    .bind (.attempt (hrec t)) fun _ => .refl _
  cases t with
  | literal c | ad p | list scope es => exact .refl _
  | attrRef scope name absolute => exact below_evalRef hrec
  | call name args =>
    simp only [evalStep]
    split
    · exact .refl _
    · rename_i f hf
      exact hE name f hf rec rec' hrec args
  | op1 op e => exact .bind (hoperand e) fun v => below_operate hrec
  | op2 op l r =>
    refine .bind (hoperand l) fun v₁ => ?_
    split
    · exact .refl _
    · exact .bind (hoperand r) fun v₂ => below_operate hrec
  | op3 c m r =>
    refine .bind (hoperand c) fun v₁ => .bind ?_ fun o => ?_
    · unfold shortCircuit3
      split
      · exact htry _
      · exact htry _
      · exact htry _
      · exact .refl _
    · split
      · exact .refl _
      · refine .bind ?_ fun o => .bind (hoperand r) fun _ => .refl _
        cases m with
        | none => exact .refl _
        | some m => exact .bind (hoperand m) fun _ => .refl _

theorem below_eval (hE : E.FunctionsMonotone) {m : ℕ} (hnm : n ≤ m) (t : Node R P) :
    Below (eval E n t) (eval E m t) := by
  have hsucc : ∀ k (t : Node R P), Below (eval E k t) (eval E (k + 1) t) := by
    intro k
    induction k with
    | zero => exact fun t _ _ h => by cases h
    | succ k ih => exact fun t => below_evalStep hE ih
  induction hnm with
  | refl => exact .refl _
  | step _ ih => exact fun s r h => hsucc _ t s r (ih s r h)

end

/-! ## Agreement -/

/-- `isType`, which asks for the kind of its argument. -/
def isType (k : Kind) (rec : Node R P → Eval R P (Value R P)) :
    List (Node R P) → Eval R P (Value R P)
  | [e] => do
    let v ← operand (rec e)
    pure (.boolean (v.kind = k))
  | _ => pure .error

/-- One ad with `x = 3`, and the function `isUndefined`. -/
def oneAd : World Unit Unit where
  doubles := ⟨fun _ => (), fun _ => 0, id, fun _ _ => (), fun _ _ => (), fun _ _ => (),
    fun _ _ => (), fun _ _ => false, fun _ _ => true, fun _ _ => true, fun _ => false,
    fun _ => false⟩
  lookup := fun _ name => if name = "x".toList then some (.literal (.integer 3)) else none
  parentScope := fun _ => none
  alternateScope := fun _ => none
  detached := id
  oldSemantics := false
  function := fun name => if name = "isUndefined".toList then some (isType .undefined) else none

theorem monotone_oneAd : oneAd.FunctionsMonotone := by
  intro name f h rec rec' hrec args
  simp only [oneAd] at h
  split_ifs at h
  cases h
  match args with
  | [] | _ :: _ :: _ => exact .refl _
  | [e] => exact .bind (.mapError _ (hrec e)) fun _ => .refl _

/-- `isUndefined(y) || x ? x : "abc"`. -/
def undefinedOrX : Node Unit Unit :=
  .op3 (.op2 .logicalOr (.call "isUndefined".toList [.attrRef none "y".toList false])
      (.attrRef none "x".toList false))
    (some (.attrRef none "x".toList false)) (.literal (.string "abc".toList))

end Condor.ClassAd
