import Condor.Lib.Descent

/-!
# Activations — how deep a recursive descent goes

The number of simultaneously active calls is computed along with a parser: a function counts one for
itself and the largest count among its calls. Where the calls go on is given by the parser.

* `Bounded`, **`chainCalls_le`**, **`itemsCalls_le`**.
-/

namespace Condor.Descent

open List Nat

variable {T A B O : Type}

def behind (r : Option A × Cursor T) (k : A → Cursor T → ℕ) : ℕ :=
  match r with
  | (none, _) => 0
  | (some a, s) => k a s

theorem behind_le {r : Option A × Cursor T} {k : A → Cursor T → ℕ} {n : ℕ}
    (h : ∀ a, k a r.2 ≤ n) : behind r k ≤ n := by
  obtain ⟨_ | a, s⟩ := r
  · exact zero_le n
  · exact h a

/-- A set of streams that is closed under moving forward. -/
def Closed (Q : List T → Prop) : Prop := ∀ ⦃ts us⦄, us <:+ ts → Q ts → Q us

/-- On the streams of a set, there are at most `n` calls. -/
def Bounded (Q : List T → Prop) (calls : Cursor T → ℕ) (n : ℕ) : Prop := ∀ s, Q s.rest → calls s ≤ n

/-! ## Runs of tokens -/

section Runs

variable (p : T → Bool)

def longestRun : List T → ℕ
  | [] => 0
  | t :: ts => max ((t :: ts).takeWhile p).length (longestRun ts)

theorem length_takeWhile_le_longestRun (ts : List T) :
    (ts.takeWhile p).length ≤ longestRun p ts := by
  cases ts with
  | nil => exact Nat.le_refl 0
  | cons t ts => exact Nat.le_max_left _ _

theorem longestRun_suffix {ts us : List T} (h : us <:+ ts) : longestRun p us ≤ longestRun p ts := by
  induction ts with
  | nil => exact Nat.le_of_eq (congrArg _ (suffix_nil.mp h))
  | cons t ts ih =>
    rcases suffix_cons_iff.mp h with rfl | h
    · exact Nat.le_refl _
    · exact Nat.le_trans (ih h) (Nat.le_max_right _ _)

theorem closed_longestRun (k : ℕ) : Closed fun ts => longestRun p ts ≤ k := fun _ _ h hts =>
  Nat.le_trans (longestRun_suffix p h) hts

theorem longestRun_replicate {a b : T} (ha : p a = true) (hb : p b = false) (n : ℕ) :
    longestRun p (replicate n a ++ [b]) = n := by
  induction n with
  | zero => simp [longestRun, hb]
  | succ n ih =>
    have hlen : (replicate n a ++ [b]).takeWhile p = replicate n a := by
      rw [takeWhile_append_of_pos (fun c hc => eq_of_mem_replicate hc ▸ ha),
        takeWhile_cons_of_neg (by simp [hb]), append_nil]
    rw [replicate_succ, cons_append, longestRun, ih, takeWhile_cons_of_pos ha, hlen,
      length_cons, length_replicate]
    exact Nat.max_eq_left (Nat.le_succ n)

end Runs

/-! ## Chains and items -/

variable [Inhabited T]

section Chain

variable (op : T → Option O) (mk : O → A → A → A) (sub : Parser T A) (calls : Cursor T → ℕ)

/-- The calls of `chainLoop`. -/
def chainLoopCalls : ℕ → A → Cursor T → ℕ
  | 0, _, _ => 0
  | n + 1, a, s =>
    match op s.head with
    | none => 0
    | some o => max (calls s.next) (behind (sub s.next) fun b s => chainLoopCalls n (mk o a b) s)

def chainCalls (n : ℕ) (s : Cursor T) : ℕ :=
  max (calls s) (behind (sub s) fun a s => chainLoopCalls op mk sub calls n a s) + 1

variable {op mk sub calls} {Q : List T → Prop} {k : ℕ}

section

variable (hQ : Closed Q) (hsub : Forward sub) (hcalls : Bounded Q calls k) (n : ℕ)
include hQ hsub hcalls n

theorem chainLoopCalls_le (a : A) : Bounded Q (chainLoopCalls op mk sub calls n a) k := by
  induction n generalizing a with
  | zero => exact fun _ _ => Nat.zero_le k
  | succ n ih =>
    intro s hs
    have hnext : Q s.next.rest := hQ s.next_suffix hs
    rw [chainLoopCalls]
    split
    · exact Nat.zero_le k
    · exact Nat.max_le.mpr ⟨hcalls _ hnext, behind_le fun b => ih _ _ (hQ (hsub s.next) hnext)⟩

/-- **A loop over operators is one call more.** -/
theorem chainCalls_le : Bounded Q (chainCalls op mk sub calls n) (k + 1) := fun s hs =>
  Nat.succ_le_succ (Nat.max_le.mpr
    ⟨hcalls s hs, behind_le fun a => chainLoopCalls_le hQ hsub hcalls n a _ (hQ (hsub s) hs)⟩)

end

theorem le_chainCalls (n : ℕ) (s : Cursor T) : calls s ≤ chainCalls op mk sub calls n s :=
  Nat.le_succ_of_le (Nat.le_max_left _ _)

end Chain

section Items

variable (sep close : T → Bool) (item : Parser T A) (calls : Cursor T → ℕ)

/-- The calls of `itemsLoop`. -/
def itemsLoopCalls : ℕ → Cursor T → ℕ
  | 0, _ => 0
  | n + 1, s =>
    max (calls s) (behind (item s) fun _ s => if sep s.head then itemsLoopCalls n s.next else 0)

def itemsCalls (n : ℕ) (s : Cursor T) : ℕ :=
  (if close s.head then 0 else itemsLoopCalls sep item calls n s.peek) + 1

variable {sep close item calls} {Q : List T → Prop} {k : ℕ}

section

variable (hQ : Closed Q) (hitem : Forward item) (hcalls : Bounded Q calls k) (n : ℕ)
include hQ hitem hcalls n

theorem itemsLoopCalls_le : Bounded Q (itemsLoopCalls sep item calls n) k := by
  induction n with
  | zero => exact fun _ _ => Nat.zero_le k
  | succ n ih =>
    intro s hs
    refine Nat.max_le.mpr ⟨hcalls s hs, behind_le fun _ => ?_⟩
    split
    · exact ih _ (hQ Cursor.next_suffix (hQ (hitem s) hs))
    · exact Nat.zero_le k

/-- **A loop over items is one call more.** -/
theorem itemsCalls_le : Bounded Q (itemsCalls sep close item calls n) (k + 1) := by
  intro s hs
  rw [itemsCalls]
  split
  · exact succ_le_succ (zero_le k)
  · exact succ_le_succ (itemsLoopCalls_le hQ hitem hcalls n s.peek hs)

end

end Items

end Condor.Descent
