import Mathlib.Logic.Function.Basic

/-!
# Runs — computations on a state that may fail, and may need more fuel

A computation gets a state and leaves one, whether it returns or fails; `none` is for a computation
that has not come to its end with the fuel it has been given.
-/

namespace Condor

/-- A computation on states `σ` that fails with an `ε` or returns an `α`. -/
def Run (σ ε α : Type) : Type := σ → Option (Except ε α × σ)

namespace Run

variable {σ ε α β : Type}

instance : Monad (Run σ ε) where
  pure a := fun s => some (.ok a, s)
  bind x f := fun s =>
    match x s with
    | none => none
    | some (.error e, s) => some (.error e, s)
    | some (.ok a, s) => f a s

def fail (e : ε) : Run σ ε α := fun s => some (.error e, s)

def pending : Run σ ε α := fun _ => none

def get : Run σ ε σ := fun s => some (.ok s, s)

def set (s : σ) : Run σ ε Unit := fun _ => some (.ok (), s)

/-- The outcome of the computation, which does not make the whole one fail. -/
def attempt (x : Run σ ε α) : Run σ ε (Except ε α) := fun s =>
  match x s with
  | none => none
  | some (r, s) => some (.ok r, s)

def within (t : σ) (x : Run σ ε α) : Run σ ε (Except ε α) := fun s =>
  match x t with
  | none => none
  | some (r, _) => some (.ok r, s)

def mapError (f : ε → ε) (x : Run σ ε α) : Run σ ε α := fun s =>
  match x s with
  | none => none
  | some (.error e, s) => some (.error (f e), s)
  | some (.ok a, s) => some (.ok a, s)

variable {x : Run σ ε α} {f : α → Run σ ε β} {s s' : σ} {b : β} {a : α}

@[simp] theorem pure_apply : (pure a : Run σ ε α) s = some (.ok a, s) := rfl

@[simp] theorem fail_apply (e : ε) : (fail e : Run σ ε α) s = some (.error e, s) := rfl

@[simp] theorem get_apply (s : σ) : (get : Run σ ε σ) s = some (.ok s, s) := rfl

@[simp] theorem set_apply (t s : σ) : (set t : Run σ ε Unit) s = some (.ok (), t) := rfl

theorem bind_apply (x : Run σ ε α) (f : α → Run σ ε β) (s : σ) : (x >>= f) s = match x s with
    | none => none
    | some (.error e, s) => some (.error e, s)
    | some (.ok a, s) => f a s := rfl

theorem bind_of_ok (h : x s = some (.ok a, s')) : (x >>= f) s = f a s' := by
  rw [bind_apply, h]

theorem bind_eq_ok : (x >>= f) s = some (.ok b, s') ↔
    ∃ a s1, x s = some (.ok a, s1) ∧ f a s1 = some (.ok b, s') := by
  rw [bind_apply]
  constructor
  · intro h
    split at h
    · cases h
    · cases h
    · exact ⟨_, _, by assumption, h⟩
  · rintro ⟨a, s1, hx, hf⟩
    rw [hx]
    exact hf

variable {g : ε → ε}

theorem mapError_eq_ok : mapError g x s = some (.ok a, s') ↔ x s = some (.ok a, s') := by
  unfold mapError
  split <;> simp_all

/-! ## More fuel -/

/-- What the first computation has come to, the second comes to as well. -/
def Below (x y : Run σ ε α) : Prop := ∀ s r, x s = some r → y s = some r

variable {x' : Run σ ε α} {f' : α → Run σ ε β}

theorem Below.refl (x : Run σ ε α) : Below x x := fun _ _ h => h

theorem Below.bind (hx : Below x x') (hf : ∀ a, Below (f a) (f' a)) :
    Below (x >>= f) (x' >>= f') := by
  intro s r h
  rw [bind_apply] at h ⊢
  cases hxs : x s with
  | none => rw [hxs] at h; cases h
  | some o =>
    rw [hxs] at h
    rw [hx s o hxs]
    obtain ⟨_ | a, s1⟩ := o
    · exact h
    · exact hf a s1 r h

theorem Below.attempt (hx : Below x x') : Below (attempt x) (attempt x') := by
  intro s r h
  unfold Run.attempt at h ⊢
  cases hxs : x s with
  | none => rw [hxs] at h; cases h
  | some o => rw [hxs] at h; rw [hx s o hxs]; exact h

theorem Below.within (t : σ) (hx : Below x x') : Below (within t x) (within t x') := by
  intro s r h
  unfold Run.within at h ⊢
  cases hxs : x t with
  | none => rw [hxs] at h; cases h
  | some o => rw [hxs] at h; rw [hx t o hxs]; exact h

theorem Below.mapError (g : ε → ε) (hx : Below x x') : Below (mapError g x) (mapError g x') := by
  intro s r h
  unfold Run.mapError at h ⊢
  cases hxs : x s with
  | none => rw [hxs] at h; cases h
  | some o => rw [hxs] at h; rw [hx s o hxs]; exact h

/-! ## Outcomes -/

/-- If the computation ends, its outcome and the state it leaves are as described. -/
def wp (x : Run σ ε α) (C : Except ε α → σ → Prop) (s : σ) : Prop :=
  ∀ r s', x s = some (r, s') → C r s'

variable {C : Except ε α → σ → Prop} {C' : Except ε β → σ → Prop}

theorem wp_mono {D : Except ε α → σ → Prop} (h : wp x C s) (hCD : ∀ r s', C r s' → D r s') :
    wp x D s :=
  fun r s' hrun => hCD r s' (h r s' hrun)

theorem wp_pure (h : C (.ok a) s) : wp (pure a) C s := by
  rintro r s' hrun
  cases hrun
  exact h

theorem wp_fail {e : ε} (h : C (.error e) s) : wp (fail e) C s := by
  rintro r s' hrun
  cases hrun
  exact h

theorem wp_pending : wp (pending : Run σ ε α) C s := fun _ _ h => by cases h

theorem wp_bind (h : wp x (fun r s' => match r with
    | .error e => C' (.error e) s'
    | .ok a => wp (f a) C' s') s) : wp (x >>= f) C' s := by
  intro r s' hrun
  rw [bind_apply] at hrun
  split at hrun
  · cases hrun
  · rename_i hxs
    cases hrun
    exact h _ _ hxs
  · rename_i hxs
    exact h _ _ hxs _ _ hrun

theorem wp_get {f : σ → Run σ ε β} (h : wp (f s) C' s) : wp (get >>= f) C' s :=
  wp_bind fun _ _ hrun => by cases hrun; exact h

theorem wp_set {f : Unit → Run σ ε β} {t : σ} (h : wp (f ()) C' t) : wp (set t >>= f) C' s :=
  wp_bind fun _ _ hrun => by cases hrun; exact h

theorem wp_attempt {C : Except ε (Except ε α) → σ → Prop} (h : wp x (fun r s' => C (.ok r) s') s) :
    wp (attempt x) C s := by
  intro r s' hrun
  unfold Run.attempt at hrun
  split at hrun
  · cases hrun
  · rename_i hxs
    cases hrun
    exact h _ _ hxs

theorem wp_within {t : σ} {C : Except ε (Except ε α) → σ → Prop}
    (h : wp x (fun r _ => C (.ok r) s) t) :
    wp (within t x) C s := by
  intro r s' hrun
  unfold Run.within at hrun
  split at hrun
  · cases hrun
  · rename_i hxs
    cases hrun
    exact h _ _ hxs

theorem wp_mapError (h : wp x (fun r s' => C (r.mapError g) s') s) : wp (mapError g x) C s := by
  intro r s' hrun
  unfold Run.mapError at hrun
  split at hrun <;> cases hrun
  all_goals
    rename_i hxs
    exact h _ _ hxs

/-! ## What is returned -/

/-- If the computation returns, its value and the state it leaves are as described. -/
def post (x : Run σ ε α) (Q : α → σ → Prop) (s : σ) : Prop :=
  match x s with
  | some (.ok a, s') => Q a s'
  | _ => True

theorem post.of_ok {Q : α → σ → Prop} (h : post x Q s) (hx : x s = some (.ok a, s')) : Q a s' := by
  rwa [post, hx] at h

theorem post.mono {Q Q' : α → σ → Prop} (h : post x Q s) (hQ : ∀ a s', Q a s' → Q' a s') :
    post x Q' s := by
  unfold post at *
  split at h
  · exact hQ _ _ h
  · exact trivial

/-- If the computation returns, it leaves the state as it was. -/
def Idle (x : Run σ ε α) (s : σ) : Prop := post x (fun _ s' => s' = s) s

theorem Idle.of_ok (h : Idle x s) (hx : x s = some (.ok a, s')) : s' = s := by
  rwa [Idle, post, hx] at h

/-! ## The state is kept -/

/-- The computation leaves the state as it was, also when it fails, and its outcome is as described.
-/
def Gives (x : Run σ ε α) (Q : Except ε α → Prop) : Prop :=
  ∀ s r s', x s = some (r, s') → s' = s ∧ Q r

/-! ## States that are related -/

/-- The state that is left is related to the one before, also after a failure. -/
def Keeps (K : σ → σ → Prop) (x : Run σ ε α) : Prop := ∀ s, wp x (fun _ s' => K s s') s

variable {K : σ → σ → Prop}

theorem Keeps.pending : Keeps K (pending : Run σ ε α) := fun _ => wp_pending

theorem Keeps.mapError (hx : Keeps K x) : Keeps K (mapError g x) := fun s => wp_mapError (hx s)

theorem Keeps.attempt (hx : Keeps K x) : Keeps K (attempt x) := fun s => wp_attempt (hx s)

variable [IsPreorder σ K]

theorem Keeps.pure (a : α) : Keeps K (pure a : Run σ ε α) := fun s => wp_pure (Std.Refl.refl s)

theorem Keeps.bind (hx : Keeps K x) (hf : ∀ a, Keeps K (f a)) : Keeps K (x >>= f) := fun s =>
  wp_bind (wp_mono (hx s) fun r s' hs' => match r with
    | .error _ => hs'
    | .ok a => wp_mono (hf a s') fun _ _ h => IsTrans.trans _ _ _ hs' h)

end Run

/-! ## Traced computations

A computation on a state leaves a record of each call that it has made, in the order in which they
have come to their ends.
-/

/-- A computation on states `σ` that fails or returns an `α`, and records calls `κ`. -/
def Traced (σ ε κ α : Type) : Type := σ → Option (Except ε α × σ × List κ)

namespace Traced

variable {σ ε κ α β : Type}

instance : Monad (Traced σ ε κ) where
  pure a := fun s => some (.ok a, s, [])
  bind x f := fun s =>
    match x s with
    | none => none
    | some (.error e, s, l) => some (.error e, s, l)
    | some (.ok a, s, l) =>
      match f a s with
      | none => none
      | some (r, s, l') => some (r, s, l ++ l')

def lift (x : Run σ ε α) : Traced σ ε κ α := fun s =>
  match x s with
  | none => none
  | some (r, s) => some (r, s, [])

def fail (e : ε) : Traced σ ε κ α := lift (Run.fail e)

def pending : Traced σ ε κ α := lift Run.pending

def get : Traced σ ε κ σ := lift Run.get

def set (s : σ) : Traced σ ε κ Unit := lift (Run.set s)

/-- The outcome of the computation, which does not make the whole one fail. -/
def attempt (x : Traced σ ε κ α) : Traced σ ε κ (Except ε α) := fun s =>
  match x s with
  | none => none
  | some (r, s, l) => some (.ok r, s, l)

/-- The computation is a call: it is recorded with the states and the outcome. -/
def record (call : σ → Except ε α → σ → κ) (x : Traced σ ε κ α) : Traced σ ε κ α := fun s =>
  match x s with
  | none => none
  | some (r, s', l) => some (r, s', l ++ [call s r s'])

/-! ## Outcomes -/

/-- If the computation ends, its outcome, the state it leaves and its calls are as described. -/
def wp (x : Traced σ ε κ α) (C : Except ε α → σ → List κ → Prop) (s : σ) : Prop :=
  ∀ r s' l, x s = some (r, s', l) → C r s' l

variable {x : Traced σ ε κ α} {f : α → Traced σ ε κ β} {s : σ} {a : α}
  {C D : Except ε α → σ → List κ → Prop} {C' : Except ε β → σ → List κ → Prop}

theorem bind_apply (x : Traced σ ε κ α) (f : α → Traced σ ε κ β) (s : σ) :
    (x >>= f) s = match x s with
    | none => none
    | some (.error e, s, l) => some (.error e, s, l)
    | some (.ok a, s, l) =>
      match f a s with
      | none => none
      | some (r, s, l') => some (r, s, l ++ l') := rfl

theorem wp_mono (h : wp x C s) (hCD : ∀ r s' l, C r s' l → D r s' l) :
    wp x D s := fun r s' l hrun =>
  hCD r s' l (h r s' l hrun)

theorem wp_pure (h : C (.ok a) s []) : wp (pure a) C s := by
  rintro r s' l hrun
  cases hrun
  exact h

theorem wp_lift {x : Run σ ε α} (h : Run.wp x (fun r s' => C r s' []) s) : wp (lift x) C s := by
  intro r s' l hrun
  unfold lift at hrun
  split at hrun
  · cases hrun
  · rename_i hx
    cases hrun
    exact h _ _ hx

theorem wp_fail {e : ε} (h : C (.error e) s []) : wp (fail e) C s := wp_lift (Run.wp_fail h)

theorem wp_bind (h : wp x (fun r s' l => match r with
    | .error e => C' (.error e) s' l
    | .ok a => wp (f a) (fun r s'' l' => C' r s'' (l ++ l')) s') s) : wp (x >>= f) C' s := by
  intro r s' l hrun
  rw [bind_apply] at hrun
  split at hrun
  · cases hrun
  · rename_i hx
    cases hrun
    exact h _ _ _ hx
  · rename_i hx
    split at hrun
    · cases hrun
    · rename_i hf
      cases hrun
      exact h _ _ _ hx _ _ _ hf

theorem wp_lift_bind {x : Run σ ε α} (h : Run.wp x (fun r s' => match r with
    | .error e => C' (.error e) s' []
    | .ok a => wp (f a) C' s') s) : wp (lift x >>= f) C' s :=
  wp_bind (wp_lift (Run.wp_mono h fun r _ h => match r with
    | .error _ => h
    | .ok _ => h))

theorem wp_get {f : σ → Traced σ ε κ β} (h : wp (f s) C' s) : wp (get >>= f) C' s :=
  wp_lift_bind fun _ _ hrun => by cases hrun; exact h

theorem wp_set {f : Unit → Traced σ ε κ β} {t : σ} (h : wp (f ()) C' t) : wp (set t >>= f) C' s :=
  wp_lift_bind fun _ _ hrun => by cases hrun; exact h

theorem wp_attempt {C : Except ε (Except ε α) → σ → List κ → Prop}
    (h : wp x (fun r s' l => C (.ok r) s' l) s) :
    wp (attempt x) C s := by
  intro r s' l hrun
  unfold attempt at hrun
  split at hrun
  · cases hrun
  · rename_i hx
    cases hrun
    exact h _ _ _ hx

variable {call : σ → Except ε α → σ → κ}

theorem wp_record (h : wp x (fun r s' l => C r s' (l ++ [call s r s'])) s) : wp
    (record call x) C s := by
  intro r s' l hrun
  unfold record at hrun
  split at hrun
  · cases hrun
  · rename_i hx
    cases hrun
    exact h _ _ _ hx

/-! ## Frames -/

section Frame

variable (I : σ → Prop) (F : σ → σ → Prop) (A B : κ → Prop)

/-- From `s` to outcome `r` and state `s'` by the calls `l`: the state is within its frame, and the
calls have one property if they have the other, when the state is the same after a return. -/
structure Frame (s : σ) (r : Except ε α) (s' : σ) (l : List κ) : Prop where
  frame : F s s'
  same : (∀ c ∈ l, A c) ↔ ∀ c ∈ l, B c
  kept : (∀ c ∈ l, A c) → ∀ a, r = .ok a → s' = s

/-- Every run from a state with invariant `I` is framed. -/
def Framed (x : Traced σ ε κ α) : Prop := ∀ s, I s → wp x (Frame F A B s) s

variable {I F A B}

theorem Framed.pending : Framed I F A B (pending : Traced σ ε κ α) :=
  fun _ _ => wp_lift Run.wp_pending

theorem Framed.lift {x : Run σ ε α}
    (hx : ∀ s, I s → Run.wp x (fun r s' => F s s' ∧ ∀ a, r = .ok a → s' = s) s) :
    Framed I F A B (lift x) := fun s hs =>
  wp_lift (Run.wp_mono (hx s hs) fun _ _ h => ⟨h.1, by simp, fun _ => h.2⟩)

variable [IsPreorder σ F]

theorem Framed.pure (a : α) : Framed I F A B (pure a : Traced σ ε κ α) := fun s _ =>
  wp_pure ⟨Std.Refl.refl s, by simp, fun _ _ _ => rfl⟩

theorem Framed.fail (e : ε) : Framed I F A B (fail e : Traced σ ε κ α) := fun s _ =>
  wp_fail ⟨Std.Refl.refl s, by simp, nofun⟩

omit [IsPreorder σ F] in
theorem Frame.append [IsTrans σ F] {s s1 s2 : σ} {r : Except ε β} {l l1 : List κ}
    (h : Frame F A B s (Except.ok a : Except ε α) s1 l) (h1 : Frame F A B s1 r s2 l1) :
    Frame F A B s r s2 (l ++ l1) where
  frame := IsTrans.trans _ _ _ h.frame h1.frame
  same := by
    simp only [List.forall_mem_append]
    rw [h.same, h1.same]
  kept hA b hr := by
    obtain ⟨hl, hl1⟩ := List.forall_mem_append.mp hA
    rw [h1.kept hl1 b hr, h.kept hl a rfl]

theorem Framed.bind (hI : ∀ s s', I s → F s s' → I s') (hx : Framed I F A B x)
    (hf : ∀ a, Framed I F A B (f a)) : Framed I F A B (x >>= f) := fun s hs =>
  wp_bind (wp_mono (hx s hs) fun r s' _ h => match r with
    | .error _ => ⟨h.frame, h.same, nofun⟩
    | .ok a => wp_mono (hf a s' (hI s s' hs h.frame)) fun _ _ _ h' => h.append h')

omit [IsPreorder σ F] in
theorem wp_record_frame (h : wp x (fun r s' l => F s s' ∧ ((∀ c ∈ l, A c) ↔ ∀ c ∈ l, B c) ∧
      ((∀ c ∈ l, A c) → (A (call s r s') ↔ B (call s r s')) ∧
      (A (call s r s') → ∀ a, r = .ok a → s' = s))) s) :
    wp (record call x) (Frame F A B s) s := by
  refine wp_record (wp_mono h fun r s' l ⟨hframe, hsame, hcall⟩ => ⟨hframe, ?_, ?_⟩)
  · simp only [List.forall_mem_append, List.forall_mem_singleton]
    constructor
    · rintro ⟨hl, hc⟩
      exact ⟨hsame.mp hl, (hcall hl).1.mp hc⟩
    · rintro ⟨hl, hc⟩
      exact ⟨hsame.mpr hl, (hcall (hsame.mpr hl)).1.mpr hc⟩
  · intro hA
    obtain ⟨hl, hc⟩ := List.forall_mem_append.mp hA
    exact (hcall hl).2 (hc _ (List.mem_singleton_self _))

end Frame

end Traced

end Condor
