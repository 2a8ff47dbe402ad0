import Mathlib.Data.List.Infix

/-!
# Readers — consuming a stream that may end too early

A reader takes symbols from the front of a stream and reports a value or a failure; a failure
consumes symbols as well. The laws of this module say how a reader behaves on the exact text of
one value and on a text that stops inside it.

* `prefix_append_cases`, **`prefix_flatMap_cases`**: where a prefix of a sequence of frames ends.
-/

namespace Condor

open List

/-- A reader of a stream of symbols: the value read, if any, and the rest of the stream. -/
def Reader (σ α : Type) : Type := List σ → Option α × List σ

namespace Reader

variable {σ α β : Type}

def run (rd : Reader σ α) (s : List σ) : Option α × List σ := rd s

def ret (a : α) : Reader σ α := fun s => (some a, s)

def fail : Reader σ α := fun s => (none, s)

/-- One reader after the other; a failure ends the whole. -/
def andThen (rd : Reader σ α) (f : α → Reader σ β) : Reader σ β := fun s =>
  match rd s with
  | (some a, s) => f a s
  | (none, s) => (none, s)

instance : Monad (Reader σ) where
  pure := ret
  bind := andThen

@[simp] theorem run_pure (a : α) (s : List σ) : run (pure a : Reader σ α) s = (some a, s) := rfl

@[simp] theorem run_fail (s : List σ) : run (fail : Reader σ α) s = (none, s) := rfl

theorem run_bind (rd : Reader σ α) (f : α → Reader σ β) (s : List σ) :
    run (rd >>= f) s = match run rd s with
      | (some a, s) => run (f a) s
      | (none, s) => (none, s) := rfl

variable {f : α → Reader σ β} {rd : Reader σ α} {s s' : List σ}

theorem run_bind_some {a : α} (h : run rd s = (some a, s')) : run (rd >>= f) s = run (f a) s' := by
  rw [run_bind, h]

theorem run_bind_none (h : run rd s = (none, s')) : run (rd >>= f) s = (none, s') := by
  rw [run_bind, h]

/-- One symbol, `fgetc`. -/
def next : Reader σ σ
  | [] => (none, [])
  | c :: s => (some c, s)

/-- The symbols before the first separator, which is taken too; the reader fails at a bad symbol,
and at the end of the stream. -/
def upTo (bad sep : σ → Bool) : Reader σ (List σ)
  | [] => (none, [])
  | c :: s =>
    if bad c then (none, s)
    else if sep c then (some [], s)
    else ((upTo bad sep s).1.map (c :: ·), (upTo bad sep s).2)

variable {bad sep : σ → Bool}

section

variable {w : List σ} (hw : ∀ c ∈ w, bad c = false ∧ sep c = false)
include hw

theorem run_upTo_append {d : σ} (hbad : bad d = false) (hsep : sep d = true) (s : List σ) :
    run (upTo bad sep) (w ++ d :: s) = (some w, s) := by
  induction w with
  | nil => simp [run, upTo, hbad, hsep]
  | cons c w ih =>
    have hc := hw c (by simp)
    have := ih fun x hx => hw x (by simp [hx])
    simp only [run] at this
    simp [run, upTo, hc, this]

theorem run_upTo_of_forall : run (upTo bad sep) w = (none, []) := by
  induction w with
  | nil => rfl
  | cons c w ih =>
    have hc := hw c (by simp)
    have := ih fun x hx => hw x (by simp [hx])
    simp only [run] at this
    simp [run, upTo, hc, this]

end

end Reader

/-! ## Recognising a word -/

section Reads

variable {σ α β : Type} {rd : Reader σ α} {f : α → Reader σ β} {w w' : List σ} {a : α} {b : β}

/-- The reader takes exactly the word `w`, for the value `a`, and fails on its proper parts. -/
structure Reads (rd : Reader σ α) (w : List σ) (a : α) : Prop where
  full : ∀ s, rd.run (w ++ s) = (some a, s)
  torn : ∀ p, p <+: w → p ≠ w → rd.run p = (none, [])

theorem prefix_append_cases {p u v : List σ} (h : p <+: u ++ v) :
    (p <+: u ∧ p ≠ u) ∨ ∃ q, p = u ++ q ∧ q <+: v := by
  rcases prefix_or_prefix_of_prefix h (prefix_append u v) with hp | hp
  · by_cases hne : p = u
    · exact .inr ⟨[], by simp [hne], nil_prefix⟩
    · exact .inl ⟨hp, hne⟩
  · obtain ⟨q, rfl⟩ := hp
    exact .inr ⟨q, rfl, (prefix_append_right_inj u).mp h⟩

theorem Reads.ret (a : α) : Reads (pure a : Reader σ α) [] a :=
  ⟨fun _ => rfl, fun _ hp hne => absurd (prefix_nil.mp hp) hne⟩

theorem Reads.bind (h : Reads rd w a) (h' : Reads (f a) w' b) : Reads (rd >>= f) (w ++ w') b := by
  refine ⟨fun s => ?_, fun p hp hne => ?_⟩
  · rw [append_assoc, Reader.run_bind_some (h.full _), h'.full]
  · rcases prefix_append_cases hp with ⟨hpw, hpne⟩ | ⟨q, rfl, hq⟩
    · exact Reader.run_bind_none (h.torn p hpw hpne)
    · rw [Reader.run_bind_some (h.full q)]
      exact h'.torn q hq fun hqe => hne (by rw [hqe])

theorem Reads.map (h : Reads rd w a) (g : α → β) : Reads (rd >>= fun x => pure (g x)) w (g a) := by
  have := h.bind (f := fun x => pure (g x)) (Reads.ret (g a))
  rwa [append_nil] at this

theorem reads_next (c : σ) : Reads Reader.next [c] c := by
  refine ⟨fun _ => rfl, fun p hp hne => ?_⟩
  obtain rfl : p = [] := (prefix_concat_iff.mp hp).elim (absurd · hne) prefix_nil.mp
  rfl

theorem Reads.upTo {bad sep : σ → Bool} (hw : ∀ c ∈ w, bad c = false ∧ sep c = false) {d : σ}
    (hbad : bad d = false) (hsep : sep d = true) : Reads (Reader.upTo bad sep) (w ++ [d]) w := by
  refine ⟨fun s => ?_, fun p hp hne => ?_⟩
  · rw [append_assoc]
    exact Reader.run_upTo_append hw hbad hsep s
  · have hpw : p <+: w := (prefix_concat_iff.mp hp).resolve_left hne
    exact Reader.run_upTo_of_forall fun c hc => hw c (hpw.subset hc)

end Reads

/-! ## Sequences of frames -/

/-- A prefix of a sequence of frames is some of the frames and a proper part of the next one. -/
theorem prefix_flatMap_cases {σ ρ : Type} (enc : ρ → List σ) {rs : List ρ} {p : List σ}
    (h : p <+: rs.flatMap enc) : ∃ n tail, p = (rs.take n).flatMap enc ++ tail ∧
      (tail = [] ∨ ∃ r, rs[n]? = some r ∧ tail <+: enc r ∧ tail ≠ enc r) := by
  induction rs generalizing p with
  | nil => exact ⟨0, [], by simpa using h, .inl rfl⟩
  | cons r rs ih =>
    rcases prefix_append_cases h with ⟨hp, hne⟩ | ⟨q, rfl, hq⟩
    · exact ⟨0, p, by simp, .inr ⟨r, by simp, hp, hne⟩⟩
    · obtain ⟨n, tail, rfl, htail⟩ := ih hq
      exact ⟨n + 1, tail, by simp, by simpa using htail⟩

end Condor
