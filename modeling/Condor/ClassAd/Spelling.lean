import Condor.ClassAd.Grammar
import Condor.ClassAd.Unparser

/-!
# Spelling — texts that are read as their tokens

A word or a number is read as its token when what stands behind it cannot be taken for a part of it.

* `Lexes`: a text and all its tokens, **`tokens_of_lexes`**;
* **`peekToken_name`**: words;
* `EndsNumber`: what may stand behind a number, **`scanExponent_digits`**, `fromChars_toDigits`:
  integers.
-/

namespace Condor.ClassAd

open Descent List Bool Nat Char

variable {m : Mode} {w v : Text}

/-! ## Texts -/

/-- The tokens of a text, up to the end of the input. -/
inductive Lexes (m : Mode) : Token → Text → List Token → Prop
  | done {last s s'} : peekToken m last s = (.endOfInput, s') → Lexes m last s []
  | step {last s t s' ts} : peekToken m last s = (t, s') → t ≠ .endOfInput → Lexes m t s' ts →
      Lexes m last s (t :: ts)

variable {n : ℕ} {c : Char} {last : Token} {s : Text}

section

variable {ts : List Token} (h : Lexes m last s ts)
include h

theorem tokensLoop_of_lexes (hn : ts.length < n) : tokensLoop m n last s = ts := by
  induction h generalizing n with
  | done h =>
    obtain _ | n := n
    · omega
    rw [tokensLoop, h]
  | @step last s t s' ts h hne _ ih =>
    rw [length_cons] at hn
    obtain _ | n := n
    · omega
    rw [tokensLoop, h]
    split
    next heq => exact absurd (Prod.mk.inj heq).1 hne
    next heq =>
      obtain ⟨rfl, rfl⟩ := Prod.mk.inj heq
      rw [ih (by omega)]

theorem tokens_of_lexes
    (hnul : ∀ c ∈ s, c ≠ nul) (hn : ts.length ≤ s.length) : tokens m last s = ts := by
  have hcut : s.takeWhile (· ≠ nul) = s := by
    simpa using hnul
  rw [tokens, hcut]
  exact tokensLoop_of_lexes h (by omega)

end

def Token.Fresh (t : Token) : Prop := t.endsOperand = false

/-! ## Words -/

theorem peekToken_head (h : isSpace c = false) (hne : c ≠ '/') :
    peekToken m last (c :: s) = tokenizeHead m last (c :: s) := by
  have hskip : skipBlank .space (c :: s) = .token (c :: s) := by
    rw [skipBlank]
    · simp [h]
    all_goals intros; simp_all
  rw [peekToken, hskip]

theorem isDigit_bounds (h : c.isDigit = true) : 48 ≤ c.toNat ∧ c.toNat ≤ 57 := by
  simp only [isDigit, and_eq_true, decide_eq_true_eq] at h
  exact ⟨h.1, h.2⟩

theorem isAlpha_bounds (h : c.isAlpha = true) :
    (65 ≤ c.toNat ∧ c.toNat ≤ 90) ∨ (97 ≤ c.toNat ∧ c.toNat ≤ 122) := by
  rcases or_eq_true_iff.mp (show (c.isUpper || c.isLower) = true from h) with h | h
  · exact .inl (of_decide_eq_true h)
  · exact .inr ((and_eq_true_iff.mp h).imp of_decide_eq_true of_decide_eq_true)

theorem alpha_bounds (h : (c.isAlpha || c = '_') = true) :
    (65 ≤ c.toNat ∧ c.toNat ≤ 90) ∨ (97 ≤ c.toNat ∧ c.toNat ≤ 122) ∨ c.toNat = 95 := by
  rcases Bool.or_eq_true_iff.mp h with h | h
  · exact (isAlpha_bounds h).imp_right .inl
  · exact .inr (.inr (congrArg Char.toNat (of_decide_eq_true h)))

theorem isSpace_lt (h : isSpace c = true) : c.toNat ≤ 32 := by
  simp only [isSpace, or_eq_true, decide_eq_true_eq] at h
  rcases h with ((((rfl | rfl) | rfl) | rfl) | rfl) | rfl <;> decide

theorem alpha_head (h : (c.isAlpha || c = '_') = true) :
    isSpace c = false ∧ c.isDigit = false ∧ ∀ d : Char, d.toNat < 65 → c ≠ d := by
  have hb := alpha_bounds h
  refine ⟨?_, ?_, ?_⟩
  · cases hs : isSpace c with
    | false => rfl
    | true => have := isSpace_lt hs; omega
  · cases hd : c.isDigit with
    | false => rfl
    | true => have := isDigit_bounds hd; omega
  · rintro d hd rfl
    omega

theorem peekToken_alpha (h : (c.isAlpha || c = '_') = true) :
    peekToken m last (c :: s) = tokenizeAlphaHead (c :: s) := by
  obtain ⟨hspace, hdigit, hne⟩ := alpha_head h
  rw [peekToken_head hspace (hne '/' (by decide))]
  simp only [tokenizeHead]
  rw [if_neg (hne '-' (by decide)), if_neg (by simp [hdigit, hne '.' (by decide)]), if_pos h]

theorem isAlpha_of_toLower (h : c.toLower.isAlpha = true) : c.isAlpha = true := by
  by_cases hu : c.isUpper = true
  · exact or_eq_true_iff.mpr (.inl hu)
  · have hc : c.toLower = c := dif_neg fun hc => hu (decide_eq_true hc)
    rwa [hc] at h

theorem all_isAlpha_of_reservedWord {w : Text} (h : reservedWord w ≠ none) :
    w.all isAlpha = true := by
  have hword : ∀ r, r.all (fun c => c.toLower.isAlpha) = true → caseEq w r = true →
      w.all isAlpha = true := by
    intro r hr hw
    have hfold : caseFold w = caseFold r := of_decide_eq_true hw
    rw [all_eq_true]
    intro c hc
    have hmem : c.toLower ∈ caseFold r := hfold ▸ mem_map_of_mem hc
    obtain ⟨d, hd, hdc⟩ := mem_map.mp hmem
    exact isAlpha_of_toLower (hdc ▸ all_eq_true.mp hr d hd)
  unfold reservedWord at h
  split_ifs at h with h1 h2 h3 h4 h5 h6
  · exact hword _ (by decide) h1
  · exact hword _ (by decide) h2
  · exact hword _ (by decide) h3
  · exact hword _ (by decide) h4
  · exact hword _ (by decide) h5
  · exact hword _ (by decide) h6
  · exact absurd rfl h

theorem tokenizeAlphaHead_append (hw : w.all isIdent = true)
    (hv : ∀ c ∈ v.head?, isIdent c = false) :
    tokenizeAlphaHead (w ++ v) = ((reservedWord w).getD (.identifier w), v) := by
  have hident : ∀ c ∈ v.head?, c.isAlpha = false ∧ (c.isDigit || c = '_') = false := by
    intro c hc
    have := hv c hc
    simp only [isIdent, isAlphanum, or_eq_false_iff] at this
    exact ⟨this.1.1, by simpa using ⟨this.1.2, by simpa using this.2⟩⟩
  simp only [tokenizeAlphaHead]
  by_cases halpha : w.all isAlpha = true
  · have hall := all_eq_true.mp halpha
    have hstop := fun c hc => (hident c hc).1
    rw [takeWhile_append_stop hall hstop, dropWhile_append_stop hall hstop, if_neg]
    cases v with
    | nil => simp
    | cons c v => simpa using (hident c rfl).2
  · have hnone : reservedWord w = none := by
      by_contra hr
      exact halpha (all_isAlpha_of_reservedWord hr)
    -- the letters in front, and the first character that is none
    obtain ⟨a, d, b, rfl, ha, hd⟩ : ∃ a d b, w = a ++ d :: b ∧ (∀ c ∈ a, c.isAlpha = true) ∧
        d.isAlpha = false := by
      cases hdrop : w.dropWhile isAlpha with
      | nil => exact absurd (all_eq_true.mpr (dropWhile_eq_nil_iff.mp hdrop)) halpha
      | cons d b =>
        refine ⟨w.takeWhile isAlpha, d, b, ?_, fun c hc => mem_takeWhile_imp hc, ?_⟩
        · rw [← hdrop, takeWhile_append_dropWhile]
        · have := head?_dropWhile_not isAlpha w
          simpa [hdrop] using this
    have hw' := all_eq_true.mp hw
    have hdi : (d.isDigit || d = '_') = true := by
      have := hw' d (by simp)
      simpa [isIdent, isAlphanum, hd] using this
    have hstop : ∀ c ∈ (d :: b ++ v).head?, c.isAlpha = false := by simpa using hd
    have hmem : ∀ c ∈ d :: b, isIdent c = true := fun c hc => hw' c (mem_append_right a hc)
    rw [append_assoc, takeWhile_append_stop ha hstop, dropWhile_append_stop ha hstop,
      if_pos (by simpa using hdi), takeWhile_append_stop hmem hv, dropWhile_append_stop hmem hv,
      hnone]
    rfl

theorem peekToken_name (hw : isName w = true) (hv : ∀ c ∈ v.head?, isIdent c = false) :
    peekToken m last (w ++ v) = ((reservedWord w).getD (.identifier w), v) := by
  cases w with
  | nil => cases hw
  | cons c w =>
    simp only [isName, Bool.and_eq_true] at hw
    rw [cons_append, peekToken_alpha hw.1, ← cons_append]
    refine tokenizeAlphaHead_append ?_ hv
    rw [all_cons, hw.2, isIdent, Char.isAlphanum]
    rcases Bool.or_eq_true .. |>.mp hw.1 with h | h <;> simp [h]

/-! ## Numbers -/

theorem octal_lt (h : isODigit c = true) : octal c < 8 := by
  simp only [isODigit, and_eq_true, decide_eq_true_eq] at h
  have h7 : c.toNat ≤ 55 := h.2
  change c.toNat - 48 < 8
  omega

/-- The text cannot be taken for a part of a number in front of it. -/
structure EndsNumber (v : Text) : Prop where
  digit : ∀ c ∈ v.head?, c.isDigit = false
  dot : startsWith '.' v = false
  exp : startsExp v = false
  hex : ∀ c ∈ v.head?, c.toLower ≠ 'x'

theorem endsNumber_of_head {v : Text}
    (h : ∀ c ∈ v.head?, c.isDigit = false ∧ c ≠ '.' ∧ c.toLower ≠ 'e' ∧ c.toLower ≠ 'x') :
    EndsNumber v := by
  cases v with
  | nil => exact ⟨by simp, rfl, rfl, by simp⟩
  | cons c v =>
    obtain ⟨h1, h2, h3, h4⟩ := h c rfl
    exact ⟨by simpa using h1, by simpa [startsWith] using h2, by simpa [startsExp] using h3, by
      simpa using h4⟩

theorem eq_zero_of_toDigits {ds : Text} (h : Nat.toDigits 10 n = '0' :: ds) : n = 0 := by
  induction n using Nat.strongRecOn generalizing ds with
  | _ n ih =>
    by_cases hn : n < 10
    · rw [Nat.toDigits_of_lt_base hn] at h
      have hdigit : ∀ n < 10, Nat.digitChar n = '0' → n = 0 := by decide
      exact hdigit n hn (cons.inj h).1
    · rw [Nat.toDigits_of_base_le (by decide) (by omega)] at h
      obtain ⟨d, ds', hd⟩ := exists_cons_of_ne_nil (Nat.toDigits_ne_nil)
      rw [hd] at h
      have hzero : Nat.toDigits 10 (n / 10) = '0' :: ds' := by rw [hd, (cons.inj h).1]
      have := ih (n / 10) (by omega) hzero
      omega

section

variable {d : Char} {ds : Text} (buf : Text) (hd : d.isDigit = true)
  (hds : ∀ c ∈ ds, c.isDigit = true) (h0 : d = '0' → ds = []) (hv : EndsNumber v)
include buf hd hds h0 hv

theorem scanDigits_digits : scanDigits buf d (ds ++ v) = .number .integer (buf ++ ds) v := by
  obtain ⟨hdigit, hdot, hexp, hx⟩ := hv
  have htake := takeWhile_append_stop hds hdigit
  have hdrop := dropWhile_append_stop hds hdigit
  simp only [scanDigits]
  by_cases hz : d = '0'
  · obtain rfl := h0 hz
    rw [nil_append] at htake hdrop
    rw [if_pos hz]
    cases v with
    | nil => simp
    | cons c v => simp [if_neg (hx c rfl), htake, hdrop, hdot, hexp]
  · rw [if_neg hz, if_pos hd, htake, hdrop, hdot, hexp]
    simp

theorem scanExponent_digits :
    scanExponent (scanFraction d (scanDigits buf d (ds ++ v))) =
      .number .integer (buf ++ ds) v := by
  have hdot : d ≠ '.' := by
    rintro rfl
    cases hd
  rw [scanDigits_digits buf hd hds h0 hv]
  simp [scanFraction, hdot, hv.dot, scanExponent]

end

theorem digits_toDigits : ∃ d ds, toDigits 10 n = d :: ds ∧ d.isDigit = true ∧
    (∀ c ∈ ds, c.isDigit = true) ∧ (d = '0' → ds = []) := by
  obtain ⟨d, ds, hd⟩ := exists_cons_of_ne_nil (toDigits_ne_nil (b := 10))
  have hdig : ∀ c ∈ d :: ds, c.isDigit = true := fun c hc =>
    isDigit_of_mem_toDigits (by decide) (by decide) (hd ▸ hc)
  refine ⟨d, ds, hd, hdig d (by simp), fun c hc => hdig c (by simp [hc]), ?_⟩
  rintro rfl
  obtain rfl := eq_zero_of_toDigits hd
  simpa using hd.symm

theorem takeWhile_toDigits : (toDigits 10 n).takeWhile isDigit = toDigits 10 n := by
  rw [takeWhile_eq_self_iff]
  exact fun c hc => isDigit_of_mem_toDigits (by decide) (by decide) hc

theorem fromChars_toDigits (h : n < 2 ^ 63) : fromChars (toDigits 10 n) = n := by
  have hsign : takeSign (toDigits 10 n) = (false, toDigits 10 n) := by
    obtain ⟨d, ds, hd, hdigit, -⟩ := digits_toDigits
    rw [hd]
    unfold takeSign
    split
    next heq =>
      obtain ⟨rfl, -⟩ := cons.inj heq
      cases hdigit
    next => rfl
  simp only [fromChars, hsign, takeWhile_toDigits]
  rw [ofDigitChars_toDigits (by decide) (by decide)]
  have hn : (n : ℤ) < 2 ^ 63 := by exact_mod_cast h
  exact int64_eq ⟨by omega, hn⟩

theorem fromChars_neg_toDigits (h : n ≤ 2 ^ 63) : fromChars ('-' :: toDigits 10 n) = -n := by
  have hsign : takeSign ('-' :: toDigits 10 n) = (true, toDigits 10 n) := rfl
  simp only [fromChars, hsign, takeWhile_toDigits]
  rw [ofDigitChars_toDigits (by decide) (by decide)]
  exact int64_eq (i := -n) ⟨by omega, by omega⟩

theorem nul_not_mem_toDigits (n : ℕ) : nul ∉ toDigits 10 n := fun h =>
  absurd (isDigit_of_mem_toDigits (by decide) (by decide) h) (by decide)

end Condor.ClassAd
