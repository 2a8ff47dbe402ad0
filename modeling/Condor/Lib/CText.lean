import Condor.Lib.Reader
import Mathlib.Data.List.TakeWhile
import Mathlib.Tactic.NormNum

/-!
# Texts — the C library's view of characters and numbers

Texts are lists of characters, one character for one byte. The functions follow the C library in
the `"C"` locale.
-/

namespace Condor

open List

abbrev Text := List Char

variable (s : Text)

def nul : Char := '\x00'

def cstr : Text := s.takeWhile (· ≠ nul)

theorem cstr_eq {s : Text} (h : nul ∉ s) : cstr s = s :=
  takeWhile_eq_self_iff.mpr fun c hc => by
    simp only [decide_eq_true_eq]
    rintro rfl
    exact h hc

/-- A property of all characters of a text is decided along the text. -/
instance (priority := high) decidableForallMem (s : Text) (p : Char → Prop) [DecidablePred p] :
    Decidable (∀ c ∈ s, p c) := decidableBAll p s

def isSpace (c : Char) : Bool :=
  c = ' ' || c = '\t' || c = '\n' || c = '\x0b' || c = '\x0c' || c = '\r'

/-- The folding under which `strcasecmp` compares. -/
def caseFold : Text := s.map Char.toLower

/-- `strcasecmp(a, b) == 0`. -/
def caseEq (a b : Text) : Bool := caseFold a = caseFold b

def IsWord (w : Text) : Prop := w ≠ [] ∧ ∀ c ∈ w, isSpace c = false ∧ c ≠ nul

def IsLine (w : Text) : Prop := ∀ c ∈ w, c ≠ '\n' ∧ c ≠ nul

instance (w : Text) : Decidable (IsWord w) :=
  inferInstanceAs (Decidable (w ≠ [] ∧ ∀ c ∈ w, isSpace c = false ∧ c ≠ nul))

instance (w : Text) : Decidable (IsLine w) :=
  inferInstanceAs (Decidable (∀ c ∈ w, c ≠ '\n' ∧ c ≠ nul))

theorem IsWord.isLine {w : Text} (h : IsWord w) : IsLine w := by
  intro c hc
  refine ⟨?_, (h.2 c hc).2⟩
  rintro rfl
  exact absurd (h.2 _ hc).1 (by decide)

section

variable {p : Char → Bool} {w v : Text} (hw : ∀ c ∈ w, p c = true) (hv : ∀ c ∈ v.head?, p c = false)
include hw hv

theorem takeWhile_append_stop : (w ++ v).takeWhile p = w := by
  rw [takeWhile_append_of_pos hw]
  cases v with
  | nil => simp
  | cons c v => simp [hv c rfl]

theorem dropWhile_append_stop : (w ++ v).dropWhile p = v := by
  rw [dropWhile_append_of_pos hw]
  cases v with
  | nil => rfl
  | cons c v => simp [hv c rfl]

end

theorem toNat_ofNat_lt {n : ℕ} (h : n < 256) : (Char.ofNat n).toNat = n := by
  have hv : n.isValidChar := .inl (by omega)
  rw [Char.ofNat, dif_pos hv]
  rfl

/-! ## Numbers -/

/-- A decimal number behind blanks and a sign: the sign and the magnitude. -/
def scanNumber : Option (Bool × ℕ) :=
  let s := s.dropWhile isSpace
  let (neg, s) := match s with
    | '-' :: s => (true, s)
    | '+' :: s => (false, s)
    | s => (false, s)
  let digits := s.takeWhile Char.isDigit
  if digits = [] then none else some (neg, Nat.ofDigitChars 10 digits 0)

/-- `strtoll(s, &end, 10)`, undefined when it takes nothing. -/
def strtoll : Option ℤ :=
  (scanNumber s).map fun (neg, n) => if neg then max (-n) (-2 ^ 63) else min n (2 ^ 63 - 1)

/-- `strtoull(s, &end, 10)`, undefined when it takes nothing. -/
def strtoull : Option ℕ :=
  (scanNumber s).map fun (neg, n) =>
    if 2 ^ 64 ≤ n then 2 ^ 64 - 1 else if neg then (2 ^ 64 - n) % 2 ^ 64 else n

theorem isSpace_of_isDigit {c : Char} (h : c.isDigit = true) : isSpace c = false := by
  cases hs : isSpace c with
  | false => rfl
  | true =>
    simp only [isSpace, Bool.or_eq_true, decide_eq_true_eq] at hs
    rcases hs with ((((rfl | rfl) | rfl) | rfl) | rfl) | rfl <;> exact absurd h (by decide)

/-- **A printed number is read back**, whatever follows its digits. -/
theorem scanNumber_toDigits (n : ℕ) (s : Text) (hs : ∀ c ∈ s.head?, c.isDigit = false) :
    scanNumber (Nat.toDigits 10 n ++ s) = some (false, n) := by
  obtain ⟨d, ds, hd⟩ := exists_cons_of_ne_nil (Nat.toDigits_ne_nil (b := 10))
  have hdig : ∀ c ∈ d :: ds, c.isDigit = true := fun c hc =>
    Nat.isDigit_of_mem_toDigits (by decide) (by decide) (hd ▸ hc)
  have h0 := hdig d (by simp)
  have htake : (d :: ds ++ s).takeWhile Char.isDigit = d :: ds := takeWhile_append_stop hdig hs
  have hdrop : (d :: ds ++ s).dropWhile isSpace = d :: ds ++ s := by
    rw [cons_append, dropWhile_cons_of_neg (by simp [isSpace_of_isDigit h0])]
  have hsign : ∀ c, c.isDigit = false → d ≠ c := by
    rintro c hc rfl
    simp [hc] at h0
  have hval : Nat.ofDigitChars 10 (d :: ds) 0 = n := by
    rw [← hd]
    exact Nat.ofDigitChars_toDigits (by decide) (by decide)
  rw [hd, scanNumber, hdrop]
  simp only [cons_append]
  split
  next h => exact absurd (cons.inj h).1 (hsign '-' (by decide))
  next h => exact absurd (cons.inj h).1 (hsign '+' (by decide))
  next =>
    rw [cons_append] at htake
    simp [htake, hval]

end Condor
