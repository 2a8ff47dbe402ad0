import Mathlib.Data.List.Basic

/-!
# Recursive descent — parsers with one token of lookahead

A parser reads a stream of tokens, of which it may look at the next one. The laws of this module
relate the loops of a recursive-descent parser to the productions that they implement.

* `Chain`, `chain`: left-associative operators, **`sound_chain`**, **`complete_chain`**,
  **`stops_chain`**;
* `Items`, `items`: items between separators up to a closing token, **`sound_items`**,
  **`complete_items`**.
-/

namespace Condor.Descent

open List Cursor

/-- A stream of tokens with a lookahead of one: the last token, and those that are not consumed. -/
structure Cursor (T : Type) where
  last : T
  rest : List T

/-- A parser: the value, if any, and the stream behind the tokens that were consumed. -/
abbrev Parser (T A : Type) : Type := Cursor T → Option A × Cursor T

variable {T A B O : Type} {as : List A} {ts us : List T} {s s0 s' : Cursor T} {n : ℕ}
  {r : Option A × Cursor T} {k : A → Parser T B} {op : T → Option O} {mk : O → A → A → A}
  {sub item : Parser T A} {sep close : T → Bool} {D : List T → A → Prop} {stop : A → T → Prop}
  {R : Cursor T → List T → Cursor T → Prop}

/-- Goes on with the value of a parser; a failure ends the whole. -/
def andThen (r : Option A × Cursor T) (k : A → Parser T B) : Option B × Cursor T :=
  match r with
  | (none, s) => (none, s)
  | (some a, s) => k a s

@[simp] theorem andThen_some (a : A) (k : A → Parser T B) :
    andThen (some a, s) k = k a s := rfl

@[simp] theorem andThen_none (k : A → Parser T B) : andThen (none, s) k = (none, s) := rfl

theorem andThen_eq_some {b : B} :
    andThen r k = (some b, s') ↔ ∃ a s, r = (some a, s) ∧ k a s = (some b, s') := by
  obtain ⟨c, s⟩ := r
  cases c <;> simp

theorem andThen_suffix (hr : r.2.rest <:+ ts) (hk : ∀ a s, (k a s).2.rest <:+ s.rest) :
    (andThen r k).2.rest <:+ ts := by
  obtain ⟨a, s⟩ := r
  cases a with
  | none => exact hr
  | some a => exact (hk a s).trans hr

/-! ## Productions -/

/-- Operands between operators, grouped to the left. -/
inductive Chain (D : List T → A → Prop) (op : T → Option O) (mk : O → A → A → A) :
    List T → A → Prop
  | one {ts a} : D ts a → Chain D op mk ts a
  | more {ts a t o us b} : Chain D op mk ts a → op t = some o → D us b →
      Chain D op mk (ts ++ t :: us) (mk o a b)

/-- One or more items between separators. -/
inductive Items (D : List T → A → Prop) (sep : T → Bool) : List T → List A → Prop
  | one {ts a} : D ts a → Items D sep ts [a]
  | more {ts as t us b} : Items D sep ts as → sep t = true → D us b →
      Items D sep (ts ++ t :: us) (as ++ [b])

/-- Items between separators, or none, and a closing token. -/
inductive Listed (D : List T → A → Prop) (sep close : T → Bool) : List T → List A → Prop
  | none {c} : close c = true → Listed D sep close [c] []
  | some {ts as c} : Items D sep ts as → close c = true → Listed D sep close (ts ++ [c]) as

/-- What stands in front of an item: nothing, or items and a separator. -/
def Before (D : List T → A → Prop) (sep : T → Bool) (ts : List T) (as : List A) : Prop :=
  (ts = [] ∧ as = []) ∨ ∃ us t, ts = us ++ [t] ∧ sep t = true ∧ Items D sep us as

theorem Before.snoc {b : A} (h : Before D sep ts as) (hb : D us b) :
    Items D sep (ts ++ us) (as ++ [b]) := by
  rcases h with ⟨rfl, rfl⟩ | ⟨vs, t, rfl, ht, hvs⟩
  · exact .one hb
  · rw [append_assoc]
    exact .more hvs ht hb

/-! ## The stream -/

variable [Inhabited T]

section

variable (s)

/-- The next token, which stays in the stream; at the end of the stream it is the default token. -/
def Cursor.head : T := s.rest.headD default

def Cursor.peek : Cursor T := { s with last := s.head }

def Cursor.next : Cursor T := ⟨s.head, s.rest.tail⟩

@[simp] theorem Cursor.rest_peek : s.peek.rest = s.rest := rfl

@[simp] theorem Cursor.head_peek : s.peek.head = s.head := rfl

@[simp] theorem Cursor.rest_next : s.next.rest = s.rest.tail := rfl

end

theorem Cursor.rest_of_head_ne (h : s.head ≠ default) : s.rest = s.head :: s.rest.tail := by
  cases hs : s.rest with
  | nil => exact absurd (by simp [head, hs]) h
  | cons t ts => simp [head, hs]

theorem Cursor.head_of_rest {t : T} (h : s.rest = t :: ts) : s.head = t := by
  simp [head, h]

/-! ## Soundness and completeness -/

/-- How the consumed tokens are accounted for. -/
structure Record (R : Cursor T → List T → Cursor T → Prop) : Prop where
  peek : ∀ s, R s [] s.peek
  next : ∀ s, s.head ≠ default → R s [s.head] s.next
  append : ∀ {s s' s'' ts us}, R s ts s' → R s' us s'' → R s (ts ++ us) s''

/-- The tokens are exactly those by which the stream has become shorter. -/
def Exactly (s : Cursor T) (ts : List T) (s' : Cursor T) : Prop := s.rest = ts ++ s'.rest

def Anything (_ : Cursor T) (_ : List T) (_ : Cursor T) : Prop := True

theorem record_exactly : Record (Exactly (T := T)) where
  peek _ := rfl
  next _ h := Cursor.rest_of_head_ne h
  append h h' := by rw [Exactly, h, h', append_assoc]

theorem record_anything : Record (Anything (T := T)) :=
  ⟨fun _ => trivial, fun _ _ => trivial, fun _ _ => trivial⟩

/-- What the parser reads is a sentence with the value as its meaning. -/
def Sound (R : Cursor T → List T → Cursor T → Prop) (p : Parser T A) (D : List T → A → Prop) :
    Prop :=
  ∀ s a s', p s = (some a, s') → ∃ ts, R s ts s' ∧ D ts a

/-- Every sentence of less than `n` tokens is read, in front of a token at which it ends. -/
def Complete (n : ℕ) (stop : A → T → Prop) (p : Parser T A) (D : List T → A → Prop) : Prop :=
  ∀ s ts us a, D ts a → s.rest = ts ++ us → stop a (us.headD default) → ts.length < n →
    ∃ s', p s = (some a, s') ∧ s'.rest = us

def Stops (stop : A → T → Prop) (p : Parser T A) : Prop :=
  ∀ s a s', p s = (some a, s') → stop a s'.head

/-- The parser does not depend on the token that was looked at last. -/
def Blind (p : Parser T A) : Prop := ∀ s s' : Cursor T, s.rest = s'.rest → p s = p s'

theorem Cursor.head_congr (h : s.rest = s'.rest) : s.head = s'.head := by
  rw [head, h, head]

theorem Cursor.peek_congr (h : s.rest = s'.rest) : s.peek = s'.peek := by
  rw [peek, peek, head_congr h, h]

theorem Cursor.next_congr (h : s.rest = s'.rest) : s.next = s'.next := by
  rw [next, next, head_congr h, h]

/-- The parser only moves forward, whether it succeeds or not. -/
def Forward (p : Parser T A) : Prop := ∀ s, (p s).2.rest <:+ s.rest

theorem Cursor.next_suffix : s.next.rest <:+ s.rest := tail_suffix s.rest

/-! ## Left-associative operators -/

/-- The loop behind the first operand; `n` bounds the number of operators. -/
def chainLoop (op : T → Option O) (mk : O → A → A → A) (sub : Parser T A) : ℕ → A → Parser T A
  | 0, _, s => (none, s)
  | n + 1, a, s =>
    match op s.head with
    | none => (some a, s.peek)
    | some o => andThen (sub s.next) fun b s => chainLoop op mk sub n (mk o a b) s

def chain (op : T → Option O) (mk : O → A → A → A) (sub : Parser T A) (n : ℕ) : Parser T A :=
  fun s => andThen (sub s) fun a s => chainLoop op mk sub n a s

theorem sound_chainLoop (hR : Record R) (heof : op default = none) (hsub : Sound R sub D)
    {a b : A} (hts : R s0 ts s) (ha : Chain D op mk ts a)
    (h : chainLoop op mk sub n a s = (some b, s')) : ∃ us, R s0 us s' ∧ Chain D op mk us b := by
  induction n generalizing s ts a with
  | zero => simp [chainLoop] at h
  | succ n ih =>
    rw [chainLoop] at h
    cases ho : op s.head with
    | none =>
      simp only [ho] at h
      obtain ⟨rfl, rfl⟩ := h
      exact ⟨ts, by simpa using hR.append hts (hR.peek s), ha⟩
    | some o =>
      have hne : s.head ≠ default := fun he => by rw [he, heof] at ho; cases ho
      simp only [ho] at h
      obtain ⟨c, s1, hb, h⟩ := andThen_eq_some.mp h
      obtain ⟨us, hus, hc⟩ := hsub _ _ _ hb
      refine ih ?_ (.more ha ho hc) h
      simpa using hR.append hts (hR.append (hR.next s hne) hus)

/-- **The loop reads chains.** -/
theorem sound_chain (hR : Record R) (heof : op default = none) (hsub : Sound R sub D) :
    Sound R (chain op mk sub n) (Chain D op mk) := by
  intro s a s' h
  obtain ⟨c, s1, ha, h⟩ := andThen_eq_some.mp h
  obtain ⟨ts, hts, hc⟩ := hsub _ _ _ ha
  exact sound_chainLoop hR heof hsub hts (.one hc) h

section

variable (hsub : Complete n stop sub D) (hop : ∀ a t, op t ≠ none → stop a t)
  (hmk : ∀ t o a b u, op t = some o → (stop (mk o a b) u ↔ stop b u))

include hsub hop hmk in
theorem chain_eq_loop {a : A} (hc : Chain D op mk ts a)
    (hs : s.rest = ts ++ us) (hstop : stop a (us.headD default)) (hn : ts.length < n) :
    ∃ k s', chain op mk sub n s = chainLoop op mk sub k a s' ∧ s'.rest = us ∧
      n ≤ k + ts.length := by
  induction hc generalizing us with
  | one ha =>
    obtain ⟨s', hs', hr⟩ := hsub s _ us _ ha hs hstop hn
    exact ⟨n, s', by rw [chain, hs', andThen_some], hr, by omega⟩
  | @more ts a t o vs b _ ho hb ih =>
    rw [append_assoc] at hs
    simp only [length_append, length_cons] at hn ⊢
    obtain ⟨k, s1, hk, hr1, hle⟩ := ih hs (hop a t (by simp [ho])) (by omega)
    obtain _ | k := k
    · omega
    have hnext : s1.next.rest = vs ++ us := by simp [hr1]
    obtain ⟨s2, hs2, hr2⟩ := hsub _ vs us b hb hnext ((hmk t o a b _ ho).mp hstop) (by omega)
    refine ⟨k, s2, ?_, hr2, by omega⟩
    rw [hk, chainLoop, Cursor.head_of_rest hr1]
    simp [ho, hs2]

include hsub hop hmk in
/-- **The loop reads every chain.** -/
theorem complete_chain :
    Complete n (fun a t => op t = none ∧ stop a t) (chain op mk sub n) (Chain D op mk) := by
  intro s ts us a hc hs hstop hn
  obtain ⟨k, s', hk, hr, hle⟩ := chain_eq_loop hsub hop hmk hc hs hstop.2 hn
  obtain _ | k := k
  · omega
  have hhead : op s'.head = none := by simpa [Cursor.head, hr] using hstop.1
  exact ⟨s'.peek, by rw [hk, chainLoop, hhead], hr⟩

include hmk in
theorem stops_chainLoop (hsub : Stops stop sub) {a b : A}
    (ha : stop a s.head) (h : chainLoop op mk sub n a s = (some b, s')) :
    op s'.head = none ∧ stop b s'.head := by
  induction n generalizing s a with
  | zero => simp [chainLoop] at h
  | succ n ih =>
    rw [chainLoop] at h
    cases ho : op s.head with
    | none =>
      simp only [ho] at h
      obtain ⟨rfl, rfl⟩ := h
      exact ⟨ho, ha⟩
    | some o =>
      simp only [ho] at h
      obtain ⟨c, s1, hc, h⟩ := andThen_eq_some.mp h
      exact ih ((hmk _ o a c _ ho).mpr (hsub _ _ _ hc)) h

include hmk in
/-- **The loop goes on as long as it can.** -/
theorem stops_chain (hsub : Stops stop sub) :
    Stops (fun a t => op t = none ∧ stop a t) (chain op mk sub n) := by
  intro s b s' h
  obtain ⟨a, s1, ha, h⟩ := andThen_eq_some.mp h
  exact stops_chainLoop hmk hsub (hsub _ _ _ ha) h

end

theorem forward_chainLoop (hsub : Forward sub) (a : A) : Forward (chainLoop op mk sub n a) := by
  induction n generalizing a with
  | zero => exact fun _ => suffix_rfl
  | succ n ih =>
    intro s
    rw [chainLoop]
    split
    · exact suffix_rfl
    · exact andThen_suffix ((hsub s.next).trans s.next_suffix) fun b => ih _

theorem forward_chain (hsub : Forward sub) : Forward (chain op mk sub n) :=
  fun s => andThen_suffix (hsub s) fun a => forward_chainLoop hsub a

theorem blind_chain (hsub : Blind sub) : Blind (chain op mk sub n) :=
  fun s s' h => by rw [chain, hsub s s' h, chain]

/-! ## Lists of items -/

/-- The loop in front of an item; `n` bounds the number of items. -/
def itemsLoop (sep close : T → Bool) (item : Parser T A) : ℕ → List A → Parser T (List A)
  | 0, _, s => (none, s)
  | n + 1, as, s =>
    andThen (item s) fun a s =>
      if sep s.head then itemsLoop sep close item n (as ++ [a]) s.next
      else if close s.head then (some (as ++ [a]), s.next)
      else (none, s.peek)

def items (sep close : T → Bool) (item : Parser T A) (n : ℕ) : Parser T (List A) := fun s =>
  if close s.head then (some [], s.next)
  else itemsLoop sep close item n [] s.peek

section

variable (hR : Record R) (hsep : sep default = false) (hclose : close default = false)
  (hitem : Sound R item D)
include hR hsep hclose hitem

theorem sound_itemsLoop {bs : List A} (hts : R s0 ts s) (has : Before D sep ts as)
    (h : itemsLoop sep close item n as s = (some bs, s')) :
    ∃ us, R s0 us s' ∧ Listed D sep close us bs := by
  induction n generalizing s ts as with
  | zero => simp [itemsLoop] at h
  | succ n ih =>
    obtain ⟨a, s1, ha, h⟩ := andThen_eq_some.mp h
    obtain ⟨us, hus, hd⟩ := hitem _ _ _ ha
    have hne : ∀ {f : T → Bool}, f default = false → f s1.head = true → s1.head ≠ default :=
      fun hf ht he => by rw [he, hf] at ht; cases ht
    split_ifs at h with h1 h2
    · refine ih ?_ (.inr ⟨ts ++ us, s1.head, rfl, h1, has.snoc hd⟩) h
      exact hR.append (hR.append hts hus) (hR.next s1 (hne hsep h1))
    · simp only [Prod.mk.injEq, Option.some.injEq] at h
      obtain ⟨rfl, rfl⟩ := h
      exact ⟨_, hR.append (hR.append hts hus) (hR.next s1 (hne hclose h2)), .some (has.snoc hd) h2⟩
    · simp at h

/-- **The loop reads lists.** -/
theorem sound_items : Sound R (items sep close item n) (Listed D sep close) := by
  intro s as s' h
  rw [items] at h
  split_ifs at h with hc
  · simp only [Prod.mk.injEq, Option.some.injEq] at h
    obtain ⟨rfl, rfl⟩ := h
    exact ⟨_, hR.next s (fun he => by rw [he, hclose] at hc; cases hc), .none hc⟩
  · exact sound_itemsLoop hR hsep hclose hitem (hR.peek s) (.inl ⟨rfl, rfl⟩) h

end

theorem forward_itemsLoop (hitem : Forward item) (as : List A) :
    Forward (itemsLoop sep close item n as) := by
  induction n generalizing as with
  | zero => exact fun _ => suffix_rfl
  | succ n ih =>
    intro s
    refine andThen_suffix (hitem s) fun a s => ?_
    split_ifs
    · exact (ih _ s.next).trans s.next_suffix
    · exact s.next_suffix
    · exact suffix_rfl

theorem forward_items (hitem : Forward item) : Forward (items sep close item n) := by
  intro s
  rw [items]
  split_ifs
  · exact s.next_suffix
  · exact forward_itemsLoop hitem [] s.peek

variable (close) in
theorem items_eq_loop (hitem : Complete n stop item D)
    (hsep : ∀ a t, sep t = true → stop a t) (hi : Items D sep ts as) (hs : s.rest = ts ++ us)
    (hstop : ∀ a, stop a (us.headD default)) (hn : ts.length < n) :
    ∃ k s1 b bs s', itemsLoop sep close item n [] s = itemsLoop sep close item (k + 1) bs s1 ∧
      item s1 = (some b, s') ∧ as = bs ++ [b] ∧ s'.rest = us ∧ n ≤ k + 1 + ts.length := by
  induction hi generalizing us with
  | one ha =>
    obtain ⟨s', hs', hr⟩ := hitem s _ us _ ha hs (hstop _) hn
    exact ⟨n - 1, s, _, [], s', by rw [Nat.sub_add_cancel (by omega)], hs', rfl, hr, by omega⟩
  | @more ts as t vs b _ ht hb ih =>
    rw [append_assoc] at hs
    simp only [length_append, length_cons] at hn ⊢
    obtain ⟨k, s1, c, bs, s2, hk, hc, rfl, hr, hle⟩ := ih hs (hsep · t ht) (by omega)
    have hnext : s2.next.rest = vs ++ us := by simp [hr]
    obtain ⟨s3, hs3, hr3⟩ := hitem _ vs us b hb hnext (hstop b) (by omega)
    obtain _ | k := k
    · omega
    refine ⟨k, s2.next, b, bs ++ [c], s3, ?_, hs3, rfl, hr3, by omega⟩
    rw [hk, itemsLoop, hc]
    simp [Cursor.head_of_rest hr, ht]

/-- **The loop reads every list.** -/
theorem complete_items (hitem : Complete n stop item D)
    (hsep : ∀ a t, sep t = true → stop a t) (hclose : ∀ a t, close t = true → stop a t)
    (hdisj : ∀ t, close t = true → sep t = false)
    (hfirst : ∀ ts a, D ts a → ∀ us, close ((ts ++ us).headD default) = false) :
    Complete n (fun _ _ => True) (items sep close item n) (Listed D sep close) := by
  intro s ts us as hl hs _ hn
  rw [items]
  cases hl with
  | none hc =>
    have hhead : s.head = _ := Cursor.head_of_rest hs
    rw [hhead, if_pos hc]
    exact ⟨_, rfl, by simp [hs]⟩
  | @some ts _ c hi hc =>
    rw [append_assoc] at hs
    simp only [length_append] at hn
    have hopen : close s.head = false := by
      have hall : ∀ {ts as}, Items D sep ts as → ∀ us, close ((ts ++ us).headD default) =
          false := by
        intro ts as hi
        induction hi with
        | one ha => exact hfirst _ _ ha
        | more _ _ _ ih => intro us; rw [append_assoc]; exact ih _
      rw [Cursor.head, hs]
      exact hall hi _
    rw [hopen]
    obtain ⟨k, s1, b, bs, s', hk, hb, rfl, hr, -⟩ :=
      items_eq_loop close (s := s.peek) hitem hsep hi hs (hclose · c hc) (by omega)
    refine ⟨s'.next, ?_, by simp [hr]⟩
    rw [hk, itemsLoop, hb]
    have hhead : s'.head = c := Cursor.head_of_rest hr
    simp [hhead, hdisj c hc, hc]

end Condor.Descent
