import Condor.ClassAd.Flatten
import Condor.ClassAd.Scope

/-!
# Flattening and the scope

A reference that is flattened moves the current ad as a lookup does, and does not always move it
back: not if it refers to an ad, nor if its tree is inlined. Then a call of `Flatten` leaves the
scope as it was only if the lookup has ended where it began. All other calls leave it as it was if
their parts do.
-/

namespace Condor.ClassAd

open Run (bind_apply get_apply set_apply bind_of_ok Keeps)
open Traced (wp wp_get wp_set wp_fail wp_bind wp_pure wp_mono)

variable {R P α : Type} {t : Node R P} {s s' s0 s1 : EvalState P}

/-- A state with the root and the recursion depth of another one; the current ad may differ. -/
structure SameLevel (s s' : EvalState P) : Prop where
  root : s'.root = s.root
  depth : s'.depth = s.depth

instance : IsPreorder (EvalState P) SameLevel where
  refl _ := ⟨rfl, rfl⟩
  trans _ _ _ h h' := ⟨h'.root.trans h.root, h'.depth.trans h.depth⟩

def Rooted (s : EvalState P) : Prop := s.root ≠ none

theorem Rooted.of_sameLevel (hs : Rooted s) (h : SameLevel s s') : Rooted s' := by
  unfold Rooted
  rw [h.root]
  exact hs

theorem SameLevel.eq_iff (h : SameLevel s s') : s' = s ↔ s'.cur = s.cur := by
  obtain ⟨depth, root, cur⟩ := s
  obtain ⟨depth', root', cur'⟩ := s'
  obtain ⟨rfl, rfl⟩ := h
  simp

theorem SameLevel.setCur_eq (h : SameLevel s s') : { s' with cur := s.cur } = s := by
  obtain ⟨depth, root, cur⟩ := s
  obtain ⟨rfl, rfl⟩ := h
  rfl

/-! ## The nodes -/

section Nodes

variable {E : World R P} {attrList : P → List (Text × Node R P)} {inline : Bool} {name : Text}
  {scope : Option (Node R P)} {rec : Bool → Node R P → Flattening R P (Flat R P)}
  {A B : FlattenCall R P → Prop}

theorem setCur_wp {k : Unit → Flattening R P α} {cur : Option P}
    {C : Except (Value R P) α → EvalState P → List (FlattenCall R P) → Prop}
    (h : wp (k ()) C { s with cur := cur }) : wp (setCur cur >>= k) C s :=
  wp_bind (wp_get (Traced.wp_lift fun _ _ hrun => by cases hrun; exact h))

theorem framed_bind {α β : Type} {x : Flattening R P α} {f : α → Flattening R P β}
    (hx : Traced.Framed Rooted SameLevel A B x)
    (hf : ∀ a, Traced.Framed Rooted SameLevel A B (f a)) :
    Traced.Framed Rooted SameLevel A B (x >>= f) :=
  .bind (fun _ _ => Rooted.of_sameLevel) hx hf

theorem framed_lift {x : Eval R P α} (hx : Keeps Kept x) :
    Traced.Framed Rooted SameLevel A B (Traced.lift x) :=
  .lift fun s hs => Run.wp_mono (hx s) fun _ _ hkept =>
    ⟨⟨hkept.root, hkept.depth⟩, fun _ _ => hkept.eq hs⟩

theorem orFail_framed (o : Option α) :
    Traced.Framed Rooted SameLevel A B (orFail o : Flattening R P α) := by
  cases o with
  | none => exact .fail _
  | some a => exact .pure a

section

variable (hrec : ∀ b t, Traced.Framed Rooted SameLevel A B (rec b t))
include hrec

theorem flattenDeeper_frame (hs : Rooted s) (cur : Option P) :
    wp (flattenDeeper rec cur t) (fun r s' l => SameLevel s s' ∧ ((∀ c ∈ l, A c) ↔ ∀ c ∈ l, B c) ∧
      ((∃ v, r = .error v) ∧ s.depth ≤ 0 ∨ 0 < s.depth ∧ ∃ o s2, r = .ok o ∧
        rec false t { s with depth := s.depth - 1 } = some (o, s2, l) ∧
        ((∀ c ∈ l, A c) → ∀ f, o = .ok f → s' = s))) s := by
  refine wp_get ?_
  split
  · next hdepth => exact wp_set (wp_fail ⟨⟨rfl, rfl⟩, by simp, .inl ⟨⟨_, rfl⟩, hdepth⟩⟩)
  · next hdepth =>
    refine wp_set (wp_bind (Traced.wp_attempt fun o s2 l hrun => ?_))
    have hframe := hrec false t { s with depth := s.depth - 1 } hs o s2 l hrun
    refine wp_get (wp_set (wp_pure ?_))
    rw [List.append_nil]
    have hlevel : SameLevel s { s2 with depth := s2.depth + 1 } := by
      refine ⟨hframe.frame.root, ?_⟩
      have := hframe.frame.depth
      dsimp only at this ⊢
      omega
    refine ⟨hlevel, hframe.same, .inr ⟨by omega, o, s2, rfl, hrun, fun hA f hf => ?_⟩⟩
    rw [hlevel.eq_iff]
    have hkept := hframe.kept hA f hf
    rw [hkept]

theorem flattenScope_frame (hs : Rooted s) (cur : Option P) :
    wp (flattenScope inline rec cur name scope) (fun _ s' l => SameLevel s s' ∧
      ((∀ c ∈ l, A c) ↔ ∀ c ∈ l, B c)) s := by
  have hrefl : SameLevel s s := Std.Refl.refl s
  cases scope with
  | none => exact wp_pure ⟨hrefl, by simp⟩
  | some e =>
    unfold flattenScope
    dsimp only
    split
    · refine wp_bind (wp_mono (flattenDeeper_frame hrec hs cur) fun r s' l h => ?_)
      cases r with
      | error v => exact ⟨h.1, h.2.1⟩
      | ok o => cases o <;> exact wp_pure (by rw [List.append_nil]; exact ⟨h.1, h.2.1⟩)
    · exact wp_pure ⟨hrefl, by simp⟩

theorem flattenAll_framed (es : List (Node R P)) :
    Traced.Framed Rooted SameLevel A B (flattenAll rec es) := by
  induction es with
  | nil => exact .pure _
  | cons e es ih =>
    exact framed_bind (hrec _ _) fun f => framed_bind (orFail_framed _) fun t =>
      framed_bind ih fun _ => .pure _

theorem flattenAttrs_framed (attrs : List (Text × Node R P)) :
    Traced.Framed Rooted SameLevel A B (flattenAttrs rec attrs) := by
  induction attrs with
  | nil => exact .pure _
  | cons attr attrs ih =>
    exact framed_bind (hrec _ _) fun f => framed_bind (orFail_framed _) fun t =>
      framed_bind ih fun _ => .pure _

theorem flattenAd_framed (p : P) :
    Traced.Framed Rooted SameLevel A B (flattenAd attrList rec p) := by
  intro s hs
  refine wp_get (wp_set (wp_bind (Traced.wp_attempt (wp_mono
    (flattenAttrs_framed hrec (attrList p) { s with cur := some p } hs) fun r s' l h =>
      setCur_wp ?_))))
  have hback : { s' with cur := s.cur } = s := SameLevel.setCur_eq ⟨h.frame.root, h.frame.depth⟩
  have hframe : ∀ r : Except (Value R P) (Flat R P), Traced.Frame SameLevel A B s r
      { s' with cur := s.cur }
      (l ++ []) := by
    intro r
    rw [hback, List.append_nil]
    exact ⟨Std.Refl.refl s, h.same, fun _ _ _ => rfl⟩
  cases r with
  | ok ts => exact wp_pure (hframe _)
  | error v => exact wp_fail (hframe _)

theorem flattenArms_framed (c : Node R P) (f : Flat R P) (m : Option (Node R P)) (r : Node R P) :
    Traced.Framed Rooted SameLevel A B (flattenArms rec c f m r) := by
  refine framed_bind ?_ fun a => framed_bind (hrec _ _) fun b =>
    framed_bind (orFail_framed _) fun t => .pure _
  cases m with
  | none => exact .pure _
  | some m => exact framed_bind (hrec _ _) fun _ => .pure _

theorem flattenOperation3_framed (c : Node R P) (m : Option (Node R P)) (r : Node R P) :
    Traced.Framed Rooted SameLevel A B (flattenOperation3 E rec c m r) := by
  refine framed_bind (hrec _ _) fun f => ?_
  split
  · split
    · exact flattenArms_framed hrec _ _ _ _
    · split
      · exact .pure _
      · split
        · exact hrec _ _
        · exact .fail _
      · exact hrec _ _
  · exact flattenArms_framed hrec _ _ _ _

theorem flattenOperation1_framed (op : OpKind) (e : Node R P) :
    Traced.Framed Rooted SameLevel A B (flattenOperation1 E rec op e) :=
  framed_bind (hrec _ _) fun f => by cases f <;> exact .pure _

end

variable [DecidableEq P] {n : ℕ}

theorem subscriptAlone_keeps (hE : E.FunctionsKeep) (v1 v2 : Value R P) :
    Keeps Kept (subscriptAlone E n v1 v2) := by
  unfold subscriptAlone
  split
  · exact .pure _
  · split
    · dsimp only
      split
      · exact .pure _
      · exact .pending
    · exact subscript_keeps E (eval_keeps hE) _ _

section

variable (hrec : ∀ b t, Traced.Framed Rooted SameLevel A B (rec b t)) (hE : E.FunctionsKeep)
include hrec hE

theorem flattenOperation2_framed (split : Bool) (op : OpKind)
    (l r : Node R P) :
    Traced.Framed Rooted SameLevel A B (flattenOperation2 E n rec split op l r) := by
  unfold flattenOperation2
  split
  · exact framed_bind (hrec _ _) fun a => framed_bind (hrec _ _) fun b => .pure _
  · split
    · refine framed_bind (hrec _ _) fun a => framed_bind (hrec _ _) fun b => ?_
      split
      · exact framed_bind (framed_lift (subscriptAlone_keeps hE _ _)) fun v => .pure _
      · exact framed_bind (orFail_framed _) fun _ => framed_bind (orFail_framed _) fun _ => .pure _
    · exact framed_bind (hrec _ _) fun a => framed_bind (hrec _ _) fun b =>
        framed_bind (orFail_framed _) fun f => orFail_framed _

theorem flattenCall_framed (args : List (Node R P)) :
    Traced.Framed Rooted SameLevel A B (flattenCall E n rec name args) := by
  unfold flattenCall
  split
  · exact .pure _
  · next f hf =>
    refine framed_bind (flattenAll_framed hrec args) fun o => ?_
    dsimp only
    split
    · exact framed_bind (framed_lift (hE name f hf _ (eval_keeps hE) args)) fun v => .pure _
    · exact .pure _

end

end Nodes

/-! ## References -/

/-- If the call has returned, the scope is as it was. -/
def FlattenCall.Restored (c : FlattenCall R P) : Prop := ∀ f, c.outcome = .ok f → c.after = c.before

variable [DecidableEq P] (E : World R P) (attrList : P → List (Text × Node R P)) (inline : Bool)

/-- The expression of an attribute is a value, or it is neither an ad nor inlined. -/
def Undone (n : ℕ) (t : Node R P) (s : EvalState P) : Prop :=
  t.isAd = false ∧ (inline = true → 0 < s.depth → ∀ f s' l,
    flatten E attrList inline n false t { s with depth := s.depth - 1 } = some (.ok f, s', l) →
    f.tree? = none)

/-- If the call is for a reference, its lookup ends where it began, or it is undone. -/
def FlattenCall.Settled (c : FlattenCall R P) : Prop :=
  match c.tree with
  | .attrRef scope name absolute => ∀ t s,
    findExpr E c.fuel (eval E c.fuel) name absolute scope c.before = some (.ok (.ok t), s) →
      s.cur = c.before.cur ∨ Undone E attrList inline c.fuel t s
  | _ => True

/-- What there is to prove of a call for the reference from state `s`. -/
def RefFrame (n : ℕ) (t : Node R P) (s : EvalState P) (r : Except (Value R P) (Flat R P))
    (s' : EvalState P) (l : List (FlattenCall R P)) : Prop :=
  SameLevel s s' ∧ ((∀ c ∈ l, c.Restored) ↔ ∀ c ∈ l, c.Settled E attrList inline) ∧
    ((∀ c ∈ l, c.Restored) → ((⟨n, t, s, r, s'⟩ : FlattenCall R P).Restored ↔
      (⟨n, t, s, r, s'⟩ : FlattenCall R P).Settled E attrList inline))

section Reference

variable {E attrList inline} {n : ℕ} {scope : Option (Node R P)} {name : Text} {absolute : Bool}
  {found : Found R P} {r : Except (Value R P) (Flat R P)} {l : List (FlattenCall R P)}

section

variable (hfind : findExpr E n (eval E n) name absolute scope s = some (.ok found, s1))
  (hfound : ∀ t, found = .ok t → Undone E attrList inline n t s1) (hlevel : SameLevel s s')
  (hsame : (∀ c ∈ l, c.Restored) ↔ ∀ c ∈ l, c.Settled E attrList inline)
include hfind hfound hlevel hsame

theorem refFrame_of_restored (hrestored : ∀ f, r = .ok f → s' = s) :
    RefFrame E attrList inline n (.attrRef scope name absolute) s r s' l := by
  refine ⟨hlevel, hsame, fun _ => iff_of_true hrestored fun t s2 hfind' => .inr ?_⟩
  rw [hfind] at hfind'
  cases hfind'
  exact hfound t rfl

theorem refFrame_of_setCur :
    RefFrame E attrList inline n (.attrRef scope name absolute) s r { s' with cur := s.cur }
      (l ++ []) := by
  rw [List.append_nil, hlevel.setCur_eq]
  exact refFrame_of_restored hfind hfound (Std.Refl.refl s) hsame fun _ _ => rfl

end

theorem refFrame_of_moved {f : Flat R P}
    (hfind : findExpr E n (eval E n) name absolute scope s = some (.ok (.ok t), s1))
    (hfound : ¬ Undone E attrList inline n t s1) (hlevel : SameLevel s s')
    (hsame : (∀ c ∈ l, c.Restored) ↔ ∀ c ∈ l, c.Settled E attrList inline)
    (hmoved : (∀ c ∈ l, c.Restored) → s' = s1) :
    RefFrame E attrList inline n (.attrRef scope name absolute) s (.ok f) s' l := by
  refine ⟨hlevel, hsame, fun hl => ?_⟩
  have hs' := hmoved hl
  subst hs'
  constructor
  · intro hrestored t' s2 hfind'
    rw [hfind] at hfind'
    cases hfind'
    exact .inl (hlevel.eq_iff.mp (hrestored f rfl))
  · intro hsettled f' _
    exact hlevel.eq_iff.mpr ((hsettled t s' hfind).resolve_right hfound)

/-- **For a reference, a call restores the scope exactly if it is settled.** -/
theorem flattenRef_frame (hE : E.FunctionsKeep)
    (hrec : ∀ b t, Traced.Framed Rooted SameLevel FlattenCall.Restored
      (FlattenCall.Settled E attrList inline)
      (flatten E attrList inline n b t)) (hs : Rooted s) :
    wp (flattenRef E inline n (flatten E attrList inline n) scope name absolute)
      (RefFrame E attrList inline n (.attrRef scope name absolute) s) s := by
  refine wp_get (Traced.wp_lift_bind fun r s1 hfind => ?_)
  obtain ⟨found, rfl, hmoves⟩ := findExpr_searched E (eval_keeps hE) absolute scope _ _ hfind
  have hlevel : SameLevel s s1 := ⟨hmoves.root, hmoves.depth⟩
  cases found with
  | fail => exact wp_fail (refFrame_of_restored hfind nofun hlevel (by simp) nofun)
  | error => exact setCur_wp (wp_pure (refFrame_of_setCur (l := []) hfind nofun hlevel (by simp)))
  | undef =>
    refine wp_bind (wp_mono (flattenScope_frame hrec (hs.of_sameLevel hlevel) _) ?_)
    rintro r s2 l ⟨hlevel2, hsame⟩
    have hlevel' := IsTrans.trans _ _ _ hlevel hlevel2
    cases r with
    | error v => exact refFrame_of_restored hfind nofun hlevel' hsame nofun
    | ok o => exact setCur_wp (wp_pure (refFrame_of_setCur hfind nofun hlevel' hsame))
  | ok t =>
    dsimp only
    split
    · next had =>
      refine wp_pure (refFrame_of_moved hfind (fun h => ?_) hlevel (by simp) fun _ => rfl)
      exact absurd h.1 (by rw [had]; nofun)
    · next had =>
      have had' : t.isAd = false := by simpa using had
      refine wp_bind (wp_mono (flattenDeeper_frame hrec (hs.of_sameLevel hlevel) _) ?_)
      rintro r s2 l ⟨hlevel2, hsame, ⟨⟨v, rfl⟩, hdepth⟩ | ⟨hdepth, o, s3, rfl, hrun, hkept⟩⟩
      all_goals have hlevel' := IsTrans.trans _ _ _ hlevel hlevel2
      · refine refFrame_of_restored hfind ?_ hlevel' hsame nofun
        rintro _ ⟨⟩
        exact ⟨had', fun _ h => absurd h (by omega)⟩
      -- what the found expression becomes, the condition says by running it again
      have hundone : (inline = true → ∀ f, o = .ok f → f.tree? = none) →
          ∀ t', Found.ok t = .ok t' → Undone E attrList inline n t' s1 := by
        rintro h _ ⟨⟩
        refine ⟨had', fun hinline _ f s' l' hrun' => h hinline f ?_⟩
        rw [hrun] at hrun'
        cases hrun'
        rfl
      cases o with
      | error v =>
        exact setCur_wp (wp_fail (refFrame_of_setCur hfind (hundone nofun) hlevel' hsame))
      | ok f =>
        dsimp only
        split
        · next htree =>
          refine setCur_wp (wp_pure (refFrame_of_setCur hfind (hundone ?_) hlevel' hsame))
          rintro _ _ ⟨⟩
          exact htree
        · next htree =>
          split
          · next hinline =>
            refine wp_pure ?_
            rw [List.append_nil]
            refine refFrame_of_moved hfind (fun h => ?_) hlevel' hsame fun hA => hkept hA f rfl
            rw [h.2 hinline hdepth f _ _ hrun] at htree
            cases htree
          · next hinline =>
            exact setCur_wp (wp_pure (refFrame_of_setCur hfind (hundone fun h => absurd h hinline)
              hlevel' hsame))

end Reference

section Calls

variable {E attrList inline}

theorem record_framed {n : ℕ} {x : Flattening R P (Flat R P)}
    (hsettled : ∀ s r s', (⟨n, t, s, r, s'⟩ : FlattenCall R P).Settled E attrList inline)
    (hx : Traced.Framed Rooted SameLevel FlattenCall.Restored
      (FlattenCall.Settled E attrList inline) x) :
    Traced.Framed Rooted SameLevel FlattenCall.Restored (FlattenCall.Settled E attrList inline)
      (Traced.record (fun s r s' => ⟨n, t, s, r, s'⟩) x) := fun s hs =>
  Traced.wp_record_frame (wp_mono (hx s hs) fun r s' _ h =>
    ⟨h.frame, h.same, fun hl => ⟨iff_of_true (h.kept hl) (hsettled s r s'), id⟩⟩)

/-- **The calls of `Flatten` restore the scope exactly if they are settled.** -/
theorem flatten_framed {n : ℕ} (hE : E.FunctionsKeep) (split : Bool) (t : Node R P) :
    Traced.Framed Rooted SameLevel FlattenCall.Restored (FlattenCall.Settled E attrList inline)
      (flatten E attrList inline n split t) := by
  induction n generalizing split t with
  | zero => exact .pending
  | succ n ih =>
    cases t with
    | attrRef scope name absolute =>
      exact fun s hs => Traced.wp_record_frame (wp_mono (flattenRef_frame hE ih hs)
        fun _ _ _ ⟨hlevel, hsame, hcall⟩ => ⟨hlevel, hsame, fun hl => ⟨hcall hl, id⟩⟩)
    | literal c => exact record_framed (t := .literal c) (fun _ _ _ => trivial) (.pure _)
    | op1 op e => exact record_framed (fun _ _ _ => trivial) (flattenOperation1_framed ih op e)
    | op2 op l r =>
      exact record_framed (fun _ _ _ => trivial) (flattenOperation2_framed ih hE split op l r)
    | op3 c m r => exact record_framed (fun _ _ _ => trivial) (flattenOperation3_framed ih c m r)
    | call name args => exact record_framed (fun _ _ _ => trivial) (flattenCall_framed ih hE args)
    | ad p => exact record_framed (fun _ _ _ => trivial) (flattenAd_framed ih p)
    | list scope es =>
      exact record_framed (fun _ _ _ => trivial)
        (framed_bind (flattenAll_framed ih es) fun _ => .pure _)

end Calls

/-! ## Evaluation without root -/

/-- A world where only ad `q` has an attribute, `x`. -/
def onlyX (D : Doubles R) (q : P) : World R P where
  doubles := D
  lookup p name := if p = q ∧ name = "x".toList then some (.literal (.boolean true)) else none
  parentScope _ := none
  alternateScope _ := none
  detached := id
  oldSemantics := false
  function _ := none

section NoRoot

variable (D : Doubles R) {q : P} {cur : Option P} (n : ℕ)

theorem eval_x_missing (hq : cur ≠ some q) :
    eval (onlyX D q) (n + 2) (.attrRef none "x".toList false) ⟨1, none, cur⟩ =
      some (.ok .undefined, ⟨1, none, cur⟩) := by
  cases cur with
  | none => rfl
  | some p =>
    have hlookup : (onlyX D q).lookup p "x".toList = none := if_neg fun h => hq (by rw [h.1])
    have hfind : lookupFrom (onlyX D q) p "x".toList (n + 1) p ⟨1, none, some p⟩ =
        some (.ok .undef, ⟨1, none, some p⟩) := by
      simp only [lookupFrom, hlookup]
      rfl
    simp only [eval, evalStep, evalRef, findExpr, lookupInScope, bind_apply, get_apply,
      Bool.false_eq_true, if_false, hfind]
    rfl

theorem eval_x_there : eval (onlyX D q) (n + 2) (.attrRef none "x".toList false) ⟨1, none, some q⟩ =
      some (.ok (.boolean true), ⟨1, none, some q⟩) := by
  have hlookup : (onlyX D q).lookup q "x".toList = some (.literal (.boolean true) : Node R P) :=
    if_pos ⟨rfl, rfl⟩
  have hfind : lookupFrom (onlyX D q) q "x".toList (n + 1) q ⟨1, none, some q⟩ =
      some (.ok (.ok (.literal (.boolean true))), ⟨1, none, some q⟩) := by
    simp only [lookupFrom, hlookup]
    rfl
  simp only [eval, evalStep, evalRef, findExpr, lookupInScope, bind_apply, get_apply,
    Bool.false_eq_true, if_false, hfind]
  rfl

/-- `x =?= undefined ? [ad q] : true`. -/
def seeksAd (q : P) : Node R P :=
  .op3 (.op2 .metaEqual (.attrRef none "x".toList false) (.literal .undefined)) (some (.ad q))
    (.literal (.boolean true))

theorem eval_seeksAd_missing (hq : cur ≠ some q) :
    eval (onlyX D q) (n + 4) (seeksAd q) ⟨1, none, cur⟩ =
      some (.ok (.ad false q), ⟨1, none, cur⟩) := by
  have hx := eval_x_missing D n hq
  have hop : eval (onlyX D q) (n + 3)
      (.op2 .metaEqual (.attrRef none "x".toList false) (.literal .undefined))
      ⟨1, none, cur⟩ = some (.ok (.boolean true), ⟨1, none, cur⟩) := by
    rw [eval]
    simp only [evalStep, operand, bind_apply, Run.mapError, hx]
    rfl
  rw [eval]
  simp only [seeksAd, evalStep, operand, bind_apply, Run.mapError, hop]
  rfl

theorem eval_seeksAd_there :
    eval (onlyX D q) (n + 4) (seeksAd q) ⟨1, none, some q⟩ =
      some (.ok (.boolean true), ⟨1, none, some q⟩) := by
  have hx := eval_x_there D (q := q) n
  have hop : eval (onlyX D q) (n + 3)
      (.op2 .metaEqual (.attrRef none "x".toList false) (.literal .undefined))
      ⟨1, none, some q⟩ = some (.ok (.boolean false), ⟨1, none, some q⟩) := by
    rw [eval]
    simp only [evalStep, operand, bind_apply, Run.mapError, hx]
    rfl
  rw [eval]
  simp only [seeksAd, evalStep, operand, bind_apply, Run.mapError, hop]
  rfl

theorem eval_ref_missing (hq : cur ≠ some q) :
    eval (onlyX D q) (n + 5) (.attrRef (some (seeksAd q)) "toplevel".toList false) ⟨1, none, cur⟩ =
      some (.error .undefined, ⟨1, none, some q⟩) := by
  have hlookup : (onlyX D q).lookup q "toplevel".toList = none := if_neg fun h =>
    absurd h.2 (by decide)
  have hfind : lookupFrom (onlyX D q) q "toplevel".toList (n + 4) q ⟨1, none, cur⟩ =
      some (.ok .fail, ⟨1, none, some q⟩) := by
    simp only [lookupFrom, hlookup]
    rfl
  rw [eval]
  simp only [evalStep, evalRef, findExpr, Run.attempt, bind_apply, get_apply,
    eval_seeksAd_missing D n hq, lookupInScope, hfind]
  rfl

theorem eval_ref_there :
    eval (onlyX D q) (n + 5) (.attrRef (some (seeksAd q)) "toplevel".toList false)
      ⟨1, none, some q⟩ = some (.ok .error, ⟨1, none, some q⟩) := by
  rw [eval]
  simp only [evalStep, evalRef, findExpr, Run.attempt, bind_apply, get_apply,
    eval_seeksAd_there D n]
  rfl

/-- `true ? (x =?= undefined ? [ad q] : true).toplevel : true`. -/
def seeksRoot (q : P) : Node R P :=
  .op3 (.literal (.boolean true)) (some (.attrRef (some (seeksAd q)) "toplevel".toList false))
    (.literal (.boolean true))

theorem eval_seeksRoot (hq : cur ≠ some q) :
    eval (onlyX D q) 6 (seeksRoot q) ⟨1, none, cur⟩ = some (.ok .error, ⟨1, none, some q⟩) := by
  have hfirst : tryOperand
      (eval (onlyX D q) 5 (.attrRef (some (seeksAd q)) "toplevel".toList false))
      ⟨1, none, cur⟩ = some (.ok none, ⟨1, none, some q⟩) := by
    simp only [tryOperand, Run.attempt, bind_apply, eval_ref_missing D 0 hq]
    rfl
  have hsecond : operand? (eval (onlyX D q) 5)
      (some (.attrRef (some (seeksAd q)) "toplevel".toList false))
      ⟨1, none, some q⟩ = some (.ok (some .error), ⟨1, none, some q⟩) := by
    simp only [operand?, operand, Run.mapError, bind_apply, eval_ref_there D 0]
    rfl
  change (tryOperand _ >>= _) _ = _
  rw [bind_of_ok hfirst]
  change (operand? _ _ >>= _) _ = _
  rw [bind_of_ok hsecond]
  rfl
end NoRoot

/-- **An evaluation leaves the scope as it was exactly if there is a root, and calls of `Flatten`
exactly if they are settled.** -/
theorem scope_restored_iff [Nontrivial P] (D : Doubles R) :
    (∀ root cur : Option P, (∀ E : World R P, E.doubles = D → E.FunctionsKeep → ∀ n t depth v s',
      eval E n t ⟨depth, root, cur⟩ = some (.ok v, s') → s' = ⟨depth, root, cur⟩) ↔ root ≠ none) ∧
    ∀ E : World R P, E.FunctionsKeep → ∀ attrList inline n split t s r s' calls, s.root ≠ none →
      flatten E attrList inline n split t s = some (r, s', calls) →
        ((∀ c ∈ calls, c.Restored) ↔ ∀ c ∈ calls, c.Settled E attrList inline) := by
  refine ⟨fun root cur => ⟨fun h hroot => ?_, fun hroot E _ hE n t depth v s' hrun => ?_⟩, ?_⟩
  · obtain ⟨q, hq⟩ : ∃ q, cur ≠ some q := by
      cases cur with
      | none => exact ⟨Classical.arbitrary P, nofun⟩
      | some p =>
        obtain ⟨q, hq⟩ := exists_ne p
        exact ⟨q, fun h => hq (Option.some.inj h).symm⟩
    subst hroot
    have hmoved := h (onlyX D q) rfl nofun 6 (seeksRoot q) 1 _ _ (eval_seeksRoot D hq)
    exact hq (EvalState.mk.inj hmoved).2.2.symm
  · exact (eval_keeps hE t _ _ _ hrun).eq hroot
  · intro E hE attrList inline n split t s r s' calls hroot hrun
    exact (flatten_framed hE split t s hroot _ _ _ hrun).same

/-- The attributes of the ads `[ a = [ c = [ ]; b = y + 1 ] ]`. -/
def nestedAttrs : ℕ → List (Text × Node Unit ℕ)
  | 0 => [("a".toList, .ad 1)]
  | 1 => [("c".toList, .ad 2),
    ("b".toList, .op2 .addition (.attrRef none "y".toList false) (.literal (.integer 1)))]
  | _ => []

def nestedAds : World Unit ℕ where
  doubles := ⟨fun _ => (), fun _ => 0, id, fun _ _ => (), fun _ _ => (), fun _ _ => (),
    fun _ _ => (), fun _ _ => false, fun _ _ => true, fun _ _ => true, fun _ => false,
    fun _ => false⟩
  lookup p name := (nestedAttrs p).lookup name
  parentScope p := match p with
    | 0 => none
    | p + 1 => some p
  alternateScope _ := none
  detached := id
  oldSemantics := false
  function _ := none

/-- `a.name`. -/
def inA (name : String) : Node Unit ℕ :=
  .attrRef (some (.attrRef none "a".toList false)) name.toList false

/-- `a.c` is flattened to itself, and the current ad is `a`. -/
theorem scope_restored_iff_nested :
    ∃ calls, flatten nestedAds nestedAttrs false 4 false (inA "c") ⟨10, some 0, some 0⟩ =
        some (.ok (.tree (.copy (inA "c"))), ⟨10, some 0, some 1⟩, calls) ∧
      ((∀ c ∈ calls, c.Restored) ↔ ∀ c ∈ calls, c.Settled nestedAds nestedAttrs false) :=
  ⟨_, rfl, (scope_restored_iff nestedAds.doubles).2 nestedAds nofun
    nestedAttrs false 4 false (inA "c")
    ⟨10, some 0, some 0⟩ _ _ _ nofun rfl⟩

/-- `Flatten` of `a.c`, `FlattenAndInline` of `a.b` and an evaluation without root move. -/
theorem scope_not_restored :
    (∃ f calls, flatten nestedAds nestedAttrs false 4 false (inA "c") ⟨10, some 0, some 0⟩ =
      some (.ok f, ⟨10, some 0, some 1⟩, calls)) ∧
    (∃ f calls, flatten nestedAds nestedAttrs true 6 false (inA "b") ⟨10, some 0, some 0⟩ =
      some (.ok f, ⟨10, some 0, some 1⟩, calls)) ∧
    ∃ v, eval (onlyX nestedAds.doubles 1) 6 (seeksRoot 1) ⟨10, none, some 0⟩ =
      some (.ok v, ⟨10, none, some 1⟩) :=
  ⟨⟨_, _, rfl⟩, ⟨_, _, rfl⟩, _, rfl⟩

end Condor.ClassAd
