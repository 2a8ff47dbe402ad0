import Condor.ClassAd.Eval

/-!
# The scope of an evaluation

A lookup moves the current ad of the state, and the reference that has made it moves it back. Only a
lookup of `toplevel` that fails for want of a root leaves the ad where it is, and `?:` goes on after
such a failure.

* **`eval_keeps`**.
-/

namespace Condor.ClassAd

open Run (wp wp_pure wp_mono wp_get wp_bind wp_set wp_fail wp_attempt wp_within Keeps Gives)

variable {R P : Type}

/-- The scope is kept, up to the current ad where there is no root. -/
structure Kept (s s' : EvalState P) : Prop where
  root : s'.root = s.root
  depth : s'.depth = s.depth
  cur : s.root ≠ none → s'.cur = s.cur

instance : IsPreorder (EvalState P) Kept where
  refl _ := ⟨rfl, rfl, fun _ => rfl⟩
  trans _ _ _ h h' := ⟨h'.root.trans h.root, h'.depth.trans h.depth, fun hr =>
    (h'.cur (by rw [h.root]; exact hr)).trans (h.cur hr)⟩

theorem Kept.eq {s s' : EvalState P} (h : Kept s s') (hroot : s.root ≠ none) : s' = s := by
  obtain ⟨depth, root, cur⟩ := s
  obtain ⟨hr, hd, hc⟩ := h
  cases hr
  cases hd
  cases hc hroot
  rfl

variable {n : ℕ} {s s0 : EvalState P} {name : Text} {rec : Node R P → Eval R P (Value R P)}

/-- A search moves the current ad, but not when it fails and there is a root. -/
structure Moves (s : EvalState P) (found : Found R P) (s' : EvalState P) : Prop where
  root : s'.root = s.root
  depth : s'.depth = s.depth
  fail : found = .fail → s.root ≠ none → s'.cur = s.cur

def Searched (s : EvalState P) (r : Except (Value R P) (Found R P)) (s' : EvalState P) : Prop :=
  ∃ found, r = .ok found ∧ Moves s found s'

theorem searched_of_kept {found : Found R P} (h : Kept s0 s) : Searched s0 (.ok found) s :=
  ⟨found, rfl, h.root, h.depth, fun _ => h.cur⟩

/-! ## Operands and elements -/

section

variable (hrec : ∀ t, Keeps Kept (rec t))
include hrec

theorem deeper_kept (t : Node R P) (hroot : s.root = s0.root)
    (hdepth : s.depth = s0.depth) : wp (deeper rec t s0.cur true) (fun _ s' => Kept s0 s') s := by
  refine wp_get ?_
  split
  · exact wp_set (wp_fail ⟨hroot, hdepth, fun _ => rfl⟩)
  · refine wp_set (wp_bind (wp_attempt (wp_mono (hrec t _) fun r s' hkept => ?_)))
    have hback : s'.depth + 1 = s0.depth := by
      rw [hkept.depth]
      dsimp only
      omega
    refine wp_get ?_
    cases r with
    | ok v => exact wp_set (wp_pure ⟨hkept.root.trans hroot, hback, fun _ => rfl⟩)
    | error v => exact wp_set (wp_fail ⟨hkept.root.trans hroot, hback, fun _ => rfl⟩)

theorem getValueAt_keeps (scope : Option P) (t : Node R P) :
    Keeps Kept (getValueAt rec scope t) := by
  intro s
  refine wp_get ?_
  split
  · exact wp_pure (Std.Refl.refl s)
  · refine wp_set (wp_bind (wp_attempt (wp_mono (hrec t _) fun r s' hkept => ?_)))
    have hback : s'.depth + 1 = s.depth := by
      rw [hkept.depth]
      dsimp only
      omega
    refine wp_get (wp_set (wp_get (wp_get (wp_set ?_))))
    cases r with
    | ok v | error v => exact wp_pure ⟨hkept.root, hback, fun _ => rfl⟩

end

theorem tryOperand_keeps {x : Eval R P (Value R P)} (hx : Keeps Kept x) :
    Keeps Kept (tryOperand x) :=
  .bind (.attempt hx) fun r => by cases r <;> exact .pure _

variable [DecidableEq P] (E : World R P)

/-! ## Lookups -/

/-- A lookup moves the current ad, and it fails only for want of a root. -/
theorem lookupFrom_searched (start : P) (p : P) (hroot : s.root = s0.root)
    (hdepth : s.depth = s0.depth) :
    wp (lookupFrom E start name n p) (Searched s0) s := by
  have hfound : ∀ (found : Found R P) (c : Option P), (found = .fail → s.root = none) →
      Searched s0 (.ok found) { s with cur := c } := fun found c hfail =>
    ⟨found, rfl, hroot, hdepth, fun h h' => absurd (hroot.symm.trans (hfail h)) h'⟩
  induction n generalizing p s with
  | zero => exact Run.wp_pending
  | succ n ih =>
    refine wp_get (wp_set ?_)
    split
    · exact wp_pure (hfound _ _ nofun)
    · split
      · split
        · exact wp_pure (hfound _ _ nofun)
        · split
          · exact wp_pure (hfound _ _ nofun)
          · exact ih _ hroot hdepth fun found c => hfound found c
      · split
        · next h => exact wp_pure (hfound _ _ fun _ => h)
        · exact wp_pure (hfound _ _ nofun)
      · exact wp_pure (hfound _ _ nofun)
      · split <;> exact wp_pure (hfound _ _ nofun)
      · exact wp_pure (hfound _ _ nofun)

theorem gives_newState (depth : ℤ) (cur : Option P) :
    Gives (newState E n depth cur) fun r => ∃ s, r = .ok s := by
  intro s r s' h
  unfold newState at h
  split at h
  · cases h
    exact ⟨rfl, _, rfl⟩
  · split at h
    · cases h
    · cases h
      exact ⟨rfl, _, rfl⟩

theorem selectAll_kept (es : List (Node R P)) :
    wp (selectAll E n rec name es) (fun r s' => (∃ ts, r = .ok ts) ∧ s' = s) s := by
  induction es with
  | nil => exact wp_pure ⟨⟨_, rfl⟩, rfl⟩
  | cons e es ih =>
    refine wp_get (wp_bind (wp_mono (gives_newState E _ _ s) ?_))
    rintro r s' ⟨rfl, t, rfl⟩
    refine wp_bind (wp_within fun r _ _ => ?_)
    cases r with
    | error v => exact wp_pure ⟨⟨_, rfl⟩, rfl⟩
    | ok v =>
      refine wp_bind (wp_mono ih ?_)
      rintro r s' ⟨⟨ts, rfl⟩, rfl⟩
      cases ts with
      | none | some ts => exact wp_pure ⟨⟨_, rfl⟩, rfl⟩

section

variable (hrec : ∀ t, Keeps Kept (rec t))
include hrec

theorem findExpr_searched (absolute : Bool) (scope : Option (Node R P)) :
    wp (findExpr E n rec name absolute scope) (Searched s) s := by
  have hrefl : Kept s s := Std.Refl.refl s
  cases scope with
  | none =>
    refine wp_get ?_
    split
    · exact wp_pure (searched_of_kept hrefl)
    · next p _ =>
      refine wp_bind (wp_mono (lookupFrom_searched E p p rfl rfl) ?_)
      rintro r s' ⟨found, rfl, hmoves⟩
      dsimp only
      split
      · split
        · exact wp_pure ⟨_, rfl, hmoves.root, hmoves.depth, nofun⟩
        · exact lookupFrom_searched E _ _ hmoves.root hmoves.depth
      · exact wp_pure ⟨_, rfl, hmoves⟩
  | some e =>
    refine wp_bind (wp_attempt (wp_mono (hrec e s) fun r s' hkept => ?_))
    dsimp only
    split
    iterate 3 · exact wp_pure (searched_of_kept hkept)
    · exact lookupFrom_searched E _ _ hkept.root hkept.depth
    · refine wp_bind (wp_mono (selectAll_kept E _) ?_)
      rintro r s'' ⟨⟨ts, rfl⟩, rfl⟩
      cases ts with
      | none | some ts => exact wp_pure (searched_of_kept hkept)
    · exact wp_pure (searched_of_kept hkept)

/-! ## Evaluation -/

theorem evalRef_keeps (scope : Option (Node R P)) (absolute : Bool) :
    Keeps Kept (evalRef E n rec rec true scope name absolute) := by
  intro s
  refine wp_get (wp_bind (wp_mono (findExpr_searched E hrec absolute scope) ?_))
  rintro r s' ⟨found, rfl, hmoves⟩
  cases found with
  | fail => exact wp_fail ⟨hmoves.root, hmoves.depth, hmoves.fail rfl⟩
  | error | undef =>
    exact wp_get (wp_set (wp_pure ⟨hmoves.root, hmoves.depth, fun _ => rfl⟩))
  | ok t => exact deeper_kept hrec t hmoves.root hmoves.depth

theorem subscript_keeps (v1 v2 : Value R P) : Keeps Kept (subscript E n rec v1 v2) := by
  unfold subscript
  split
  · split
    · exact .pure _
    · intro s
      refine wp_bind (wp_mono (gives_newState E _ _ s) ?_)
      rintro r s' ⟨rfl, t, rfl⟩
      refine wp_bind (wp_within fun r _ _ => ?_)
      cases r with
      | ok v | error v => exact wp_pure (Std.Refl.refl _)
  · dsimp only
    split
    · exact .pure _
    · split
      · exact .pure _
      · exact getValueAt_keeps hrec _ _
  · exact .pure _

theorem operate_keeps (op : OpKind) (v1 : Value R P)
    (v2 : Option (Value R P)) : Keeps Kept (operate E n rec op v1 v2) := by
  unfold operate
  split
  · exact .pure _
  · exact subscript_keeps E hrec _ _

end

/-- The functions keep the scope, if the evaluator that they get does. -/
def World.FunctionsKeep : Prop :=
  ∀ name f, E.function name = some f → ∀ rec : Node R P → Eval R P (Value R P),
    (∀ t, Keeps Kept (rec t)) → ∀ args, Keeps Kept (f rec args)

variable {E}

theorem evalStep_keeps (hE : E.FunctionsKeep) (hrec : ∀ t, Keeps Kept (rec t)) (t : Node R P) :
    Keeps Kept (evalStep E n rec t) := by
  have hoperand : ∀ t, Keeps Kept (operand (rec t)) := fun t => (hrec t).mapError
  cases t with
  | literal c | ad p | list scope es => exact .pure _
  | op1 op e => exact .bind (hoperand e) fun v => operate_keeps E hrec op v none
  | op2 op l r =>
    refine .bind (hoperand l) fun v1 => ?_
    split
    · exact .pure _
    · exact .bind (hoperand r) fun v2 => operate_keeps E hrec op v1 (some v2)
  | op3 c m r =>
    refine .bind (hoperand c) fun v1 => .bind ?_ fun o => ?_
    · unfold shortCircuit3
      split
      iterate 3 · exact tryOperand_keeps (hrec _)
      · exact .pure _
    · cases o with
      | some v => exact .pure _
      | none =>
        refine .bind ?_ fun v2 => .bind (hoperand r) fun v3 => .pure _
        cases m with
        | none => exact .pure _
        | some m => exact .bind (hoperand m) fun v => .pure _
  | attrRef scope name absolute => exact evalRef_keeps E hrec scope absolute
  | call name args =>
    rw [evalStep]
    split
    · exact .pure _
    · next f hf => exact hE name f hf rec hrec args

/-- **An evaluation keeps the root and the depth, and the current ad if there is a root.** -/
theorem eval_keeps (hE : E.FunctionsKeep) (t : Node R P) : Keeps Kept (eval E n t) := by
  induction n generalizing t with
  | zero => exact .pending
  | succ n ih => exact evalStep_keeps hE ih t

end Condor.ClassAd
