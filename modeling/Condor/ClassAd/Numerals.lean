import Condor.ClassAd.Spelling

/-!
# Integer literals — the numbers that their tokens carry

The lexer tells decimal, octal and hexadecimal numerals apart, but it converts all of them to base
ten, and a number of more than 64 bits becomes zero.

* **`integerValue_eq_iff`**.
-/

namespace Condor.ClassAd

open List Nat Char

/-! ## Numerals -/

/-- A numeral with its sign, its base and the digits behind the letters that mark the base. -/
structure Numeral where
  negative : Bool
  base : ℕ
  digits : Text
deriving DecidableEq, Repr

def digitValue (c : Char) : ℕ :=
  if c.isDigit then c.toNat - '0'.toNat
  else if 'a' ≤ c ∧ c ≤ 'f' then c.toNat - 'a'.toNat + 10
  else c.toNat - 'A'.toNat + 10

def Numeral.magnitude (n : Numeral) : ℕ := n.digits.foldl (fun k c => n.base * k + digitValue c) 0

def Numeral.value (n : Numeral) : ℤ := if n.negative then -n.magnitude else n.magnitude

def unsigned (negative : Bool) : Text → Numeral
  | '0' :: s =>
    if s.head?.any fun x => x.toLower = 'x' then ⟨negative, 16, (s.drop 1).takeWhile isXDigit⟩
    else ⟨negative, 8, s.takeWhile isDigit⟩
  | s => ⟨negative, 10, s.takeWhile isDigit⟩

/-- The numeral at the front of a text: `[-] 0[0-7]+ | 0[xX][0-9a-fA-F]+ | [0-9]+`. -/
def numeral (s : Text) : Numeral := unsigned (takeSign s).1 (takeSign s).2

/-- A decimal numeral of 64 bits, an octal one of a single digit, or zero. -/
def Numeral.Kept (n : Numeral) : Prop :=
  n.base = 10 ∧ -2 ^ 63 ≤ n.value ∧ n.value < 2 ^ 63 ∨ n.base = 8 ∧ n.magnitude < 8 ∨
    n.base = 16 ∧ n.magnitude = 0

instance (n : Numeral) : Decidable n.Kept := inferInstanceAs (Decidable (_ ∨ _ ∨ _))

section Kept

variable {n : Numeral}

theorem Numeral.kept_decimal (h : n.base = 10) : n.Kept ↔ -2 ^ 63 ≤ n.value ∧ n.value < 2 ^ 63 := by
  simp [Kept, h]

theorem Numeral.kept_octal (h : n.base = 8) : n.Kept ↔ n.magnitude < 8 := by
  simp [Kept, h]

theorem Numeral.kept_hexadecimal (h : n.base = 16) : n.Kept ↔ n.magnitude = 0 := by
  simp [Kept, h]

theorem Numeral.value_eq_zero : n.value = 0 ↔ n.magnitude = 0 := by
  rw [value]
  split <;> omega

end Kept

/-! ## Digits -/

theorem foldl_digitValue {digits : Text} (h : ∀ c ∈ digits, c.isDigit = true) (base k : ℕ) :
    digits.foldl (fun k c => base * k + digitValue c) k = ofDigitChars base digits k := by
  induction digits generalizing k with
  | nil => rfl
  | cons c digits ih =>
    obtain ⟨hc, hdigits⟩ := forall_mem_cons.mp h
    have hvalue : digitValue c = c.toNat - '0'.toNat := by rw [digitValue, if_pos hc]
    rw [foldl_cons, ih hdigits, hvalue]
    rfl

theorem ofDigitChars_concat (base : ℕ) (digits : Text) (c : Char) :
    ofDigitChars base (digits ++ [c]) 0 =
      base * ofDigitChars base digits 0 + (c.toNat - '0'.toNat) := by
  simp [ofDigitChars]

theorem octal_le_decimal {digits : Text} (h : ∀ c ∈ digits, isODigit c = true) :
    ofDigitChars 8 digits 0 ≤ ofDigitChars 10 digits 0 ∧
      (ofDigitChars 10 digits 0 = ofDigitChars 8 digits 0 ↔ ofDigitChars 8 digits 0 < 8) := by
  induction digits using reverseRecOn with
  | nil => exact ⟨le_refl _, iff_of_true rfl (by decide)⟩
  | append_singleton digits c ih =>
    have hc : c.toNat - '0'.toNat < 8 := octal_lt (h c (by simp))
    obtain ⟨hle, hiff⟩ := ih fun d hd => h d (mem_append_left _ hd)
    rw [ofDigitChars_concat, ofDigitChars_concat]
    refine ⟨by omega, ?_, ?_⟩
    · intro heq
      omega
    · intro hlt
      omega

/-! ## Integer tokens -/

def Scanned.integer : Scanned → Option ℤ
  | .number .integer buf _ => some (fromChars buf)
  | .token (.integerValue i) _ => some i
  | _ => none

variable {m : Mode} {buf s rest : Text} {och : Char} {i : ℤ} {x : Scanned}

theorem finishNumber_integer (h : finishNumber m x = (.integerValue i, rest)) :
    x.integer = some i := by
  cases x with
  | token t r =>
    cases h
    rfl
  | number kind buf r =>
    cases kind with
    | integer =>
      rw [finishNumber] at h
      split at h
      · cases h
      · cases h
        rfl
    | none => cases h
    | real => cases h

theorem scanExponent_integer (h : (scanExponent x).integer = some i) : x.integer = some i := by
  rcases x with ⟨_ | _ | _, buf, s⟩ | ⟨t, r⟩
  case number.real =>
    cases s with
    | nil => exact h
    | cons e s =>
      rw [scanExponent] at h
      split at h
      · dsimp only at h
        generalize (if (startsWith '+' s || startsWith '-' s) = true then s.take 1 else []) =
          sign at h
        split at h
        · cases h
        · cases h
      · exact h
  all_goals exact h

theorem scanFraction_integer (h : (scanFraction och x).integer = some i) : x.integer = some i := by
  cases x with
  | token t r => exact h
  | number kind buf r =>
    rw [scanFraction] at h
    by_cases hdot : (och = '.' || startsWith '.' r) = true
    · rw [if_pos hdot] at h
      dsimp only at h
      generalize (if startsWith '.' r = true then ['.'] else []) = dot at h
      split at h
      · cases h
      · split at h
        · cases h
        · cases h
    · rwa [if_neg hdot] at h

theorem scanNumeral_integer (h : scanNumeral m buf och s = (.integerValue i, rest)) :
    (scanDigits buf och s).integer = some i :=
  scanFraction_integer (scanExponent_integer (finishNumber_integer h))

theorem scanDigits_integer (h : (scanDigits buf och s).integer = some i) :
    (och = '0' ∧ ∃ x t, s = x :: t ∧ x.toLower = 'x' ∧
      i = fromChars (buf ++ x :: t.takeWhile isXDigit)) ∨
    (och = '0' ∧ (∀ x ∈ s.head?, x.toLower ≠ 'x') ∧ (∀ c ∈ s.takeWhile isDigit, isODigit c = true) ∧
      i = fromChars (buf ++ s.takeWhile isDigit)) ∨
    (och ≠ '0' ∧ och.isDigit = true ∧ i = fromChars (buf ++ s.takeWhile isDigit)) := by
  rw [scanDigits.eq_def] at h
  by_cases hzero : och = '0'
  · rw [if_pos hzero] at h
    cases s with
    | nil =>
      refine Or.inr (Or.inl ⟨hzero, by simp, by simp, ?_⟩)
      rw [takeWhile_nil, append_nil]
      exact (Option.some.inj h).symm
    | cons x t =>
      dsimp only at h
      by_cases hx : x.toLower = 'x'
      · rw [if_pos hx] at h
        split at h
        · cases h
        · exact Or.inl ⟨hzero, x, t, rfl, hx, (Option.some.inj h).symm⟩
      · rw [if_neg hx] at h
        split at h
        · cases h
        · split at h
          · next hall =>
            exact Or.inr (Or.inl ⟨hzero, by simpa using hx, all_eq_true.mp hall,
              (Option.some.inj h).symm⟩)
          · cases h
  · rw [if_neg hzero] at h
    by_cases hdigit : och.isDigit = true
    · rw [if_pos hdigit] at h
      dsimp only at h
      split at h
      · cases h
      · exact Or.inr (Or.inr ⟨hzero, hdigit, (Option.some.inj h).symm⟩)
    · rw [if_neg hdigit] at h
      cases h

def signText (negative : Bool) : Text := if negative then ['-'] else []

theorem tokenizeNumber_integer (h : tokenizeNumber m s = (.integerValue i, rest)) :
    ∃ negative c t, takeSign s = (negative, c :: t) ∧
      (scanDigits (signText negative ++ [c]) c t).integer = some i := by
  rw [tokenizeNumber.eq_def] at h
  split at h
  · next c t =>
    split at h
    · exact ⟨true, c, t, rfl, scanNumeral_integer h⟩
    · split at h
      · -- behind the sign stands a point, and the number is a real
        have hscan := scanNumeral_integer h
        cases hscan
      · cases h
  · cases h
  · next c t hminus hminus' =>
    have hsign : takeSign (c :: t) = (false, c :: t) := by
      rw [takeSign.eq_def]
      split
      · next heq =>
        cases heq
        cases t with
        | nil => exact (hminus' rfl rfl).elim
        | cons d t => exact (hminus d t rfl rfl).elim
      · rfl
    exact ⟨false, c, t, hsign, scanNumeral_integer h⟩
  · cases h

theorem takeSign_signText {c : Char} (hc : c.isDigit = true) (negative : Bool) (t : Text) :
    takeSign (signText negative ++ c :: t) = (negative, c :: t) := by
  cases negative with
  | true => rfl
  | false =>
    rw [takeSign.eq_def]
    split
    · next heq =>
      cases heq
      exact absurd hc (by decide)
    · rfl

theorem fromChars_signText {c : Char} (hc : c.isDigit = true) (negative : Bool) (t : Text) {n : ℕ}
    (hn : ofDigitChars 10 ((c :: t).takeWhile isDigit) 0 = n) :
    fromChars (signText negative ++ c :: t) = int64 (if negative then -n else n) := by
  rw [fromChars, takeSign_signText hc, hn]

theorem int64_eq_self_iff : int64 i = i ↔ -2 ^ 63 ≤ i ∧ i < 2 ^ 63 := by
  rw [int64]
  split
  · next h => exact iff_of_true rfl h
  · next h => exact iff_of_false (by omega) h

theorem int64_decimal_iff {o d : ℕ} (negative : Bool) (hle : o ≤ d) (hiff : d = o ↔ o < 8) :
    int64 (if negative then -(d : ℤ) else d) = (if negative then -(o : ℤ) else o) ↔ o < 8 := by
  rw [int64]
  cases negative <;> simp only [if_true, Bool.false_eq_true] <;> split <;> omega

theorem not_isDigit_of_toLower {x : Char} (h : x.toLower = 'x') : x.isDigit = false := by
  have halpha : x.isAlpha = true := isAlpha_of_toLower (by rw [h]; decide)
  rw [Bool.eq_false_iff]
  intro hdigit
  have hle : x.toNat ≤ 57 := (isDigit_bounds hdigit).2
  rcases isAlpha_bounds halpha with ⟨hge, -⟩ | ⟨hge, -⟩ <;> omega

section Bases

variable {c x : Char} {t : Text} (negative : Bool)

theorem fromChars_hexadecimal (hx : x.toLower = 'x') :
    fromChars (signText negative ++ '0' :: x :: t) = 0 := by
  have hstop : ('0' :: x :: t).takeWhile isDigit = ['0'] := by
    rw [takeWhile_cons_of_pos (by decide),
      takeWhile_cons_of_neg (by simp [not_isDigit_of_toLower hx])]
  rw [fromChars_signText (by decide) negative (x :: t) (n := 0) (by rw [hstop]; rfl)]
  cases negative <;> rfl

theorem takeWhile_digits_cons (hc : c.isDigit = true) :
    (c :: t.takeWhile isDigit).takeWhile isDigit = c :: t.takeWhile isDigit :=
  takeWhile_eq_self_iff.mpr
    (forall_mem_cons.mpr ⟨hc, fun _ hd => mem_takeWhile_imp hd⟩)

theorem fromChars_digits (hc : c.isDigit = true) :
    fromChars (signText negative ++ c :: t.takeWhile isDigit) =
      int64 (Numeral.value ⟨negative, 10, c :: t.takeWhile isDigit⟩) := by
  have hdigits : ∀ d ∈ c :: t.takeWhile isDigit, d.isDigit = true :=
    forall_mem_cons.mpr ⟨hc, fun _ hd => mem_takeWhile_imp hd⟩
  rw [fromChars_signText hc negative _ rfl, takeWhile_digits_cons hc, ← foldl_digitValue hdigits]
  rfl

theorem unsigned_decimal (hzero : c ≠ '0') (hc : c.isDigit = true) :
    unsigned negative (c :: t) = ⟨negative, 10, c :: t.takeWhile isDigit⟩ := by
  rw [unsigned.eq_def]
  split
  · next heq => exact absurd (cons.inj heq).1 hzero
  · rw [takeWhile_cons_of_pos hc]

theorem unsigned_octal (hx : ∀ x ∈ t.head?, x.toLower ≠ 'x') :
    unsigned negative ('0' :: t) = ⟨negative, 8, t.takeWhile isDigit⟩ := by
  cases t with
  | nil => rfl
  | cons x t => exact if_neg fun h => hx x rfl (of_decide_eq_true h)

theorem unsigned_hexadecimal (hx : x.toLower = 'x') :
    unsigned negative ('0' :: x :: t) = ⟨negative, 16, t.takeWhile isXDigit⟩ :=
  if_pos (decide_eq_true hx)

theorem fromChars_octal (hoct : ∀ d ∈ t.takeWhile isDigit, isODigit d = true) :
    fromChars (signText negative ++ '0' :: t.takeWhile isDigit) =
        Numeral.value ⟨negative, 8, t.takeWhile isDigit⟩ ↔
      Numeral.magnitude ⟨negative, 8, t.takeWhile isDigit⟩ < 8 := by
  have hdigits : ∀ d ∈ t.takeWhile isDigit, d.isDigit = true := fun _ hd => mem_takeWhile_imp hd
  have hmag : ∀ base, Numeral.magnitude ⟨negative, base, t.takeWhile isDigit⟩ =
      ofDigitChars base (t.takeWhile isDigit) 0 := fun base => foldl_digitValue hdigits base 0
  obtain ⟨hle, hiff⟩ := octal_le_decimal hoct
  rw [← hmag, ← hmag] at hle
  rw [← hmag, ← hmag] at hiff
  rw [fromChars_digits negative (by decide)]
  exact int64_decimal_iff negative hle hiff

end Bases

/-- **The number of an integer token is the value of its numeral if and only if that is kept.** -/
theorem integerValue_eq_iff {old : Bool}
    (h : tokenizeNumber ⟨old, false⟩ s = (.integerValue i, rest)) :
    i = (numeral s).value ↔ (numeral s).Kept := by
  obtain ⟨negative, c, t, hsign, hscan⟩ := tokenizeNumber_integer h
  have hnumeral : numeral s = unsigned negative (c :: t) := by rw [numeral, hsign]
  rw [hnumeral]
  rcases scanDigits_integer hscan with ⟨rfl, x, t, rfl, hx, rfl⟩ | ⟨rfl, hx, hoct, rfl⟩ |
    ⟨hc, hdigit, rfl⟩
  · rw [append_assoc, singleton_append, fromChars_hexadecimal negative hx,
      unsigned_hexadecimal negative hx, Numeral.kept_hexadecimal rfl, eq_comm,
      Numeral.value_eq_zero]
  · rw [append_assoc, singleton_append, unsigned_octal negative hx, fromChars_octal negative hoct,
      Numeral.kept_octal rfl]
  · rw [append_assoc, singleton_append, fromChars_digits negative hdigit,
      unsigned_decimal negative hc hdigit, int64_eq_self_iff, Numeral.kept_decimal rfl]

/-- The token of `-9223372036854775808` carries the least integer of 64 bits. -/
theorem integerValue_least :
    (-9223372036854775808 : ℤ) = (numeral "-9223372036854775808".toList).value :=
  have htoken : tokenizeNumber ⟨false, false⟩ "-9223372036854775808".toList =
      (.integerValue (-9223372036854775808), []) := by decide
  (integerValue_eq_iff htoken).mpr (by decide)

/-- The octal numeral `010` stands for eight, and its token carries ten. -/
theorem octal_numeral_as_decimal :
    tokenizeNumber Mode.new "010".toList = (.integerValue 10, []) ∧
      (numeral "010".toList).value = 8 := by
  decide

end Condor.ClassAd
