import Condor.ClassAd.Spelling

/-!
# Quoting — strings and names are read back

In the new syntax every character that is not printable is escaped, so that any string of bytes
without a terminator survives.

* `Unquoted`: texts that do not continue a string, **`peekToken_unparse`**.
-/

namespace Condor.ClassAd

open List

variable {m : Mode}

/-! ## Strings -/

/-- The text consists of bytes, none of which is the terminator. -/
def Bytes (s : Text) : Prop := ∀ c ∈ s, c ≠ nul ∧ c.toNat < 256

theorem escapeLetter_spec {c l : Char} (h : escapeLetter c = some l) :
    isODigit l = false ∧ simpleEscape l = c := by
  revert h
  fun_cases escapeLetter c <;> intro h <;> cases h <;> exact ⟨by decide, rfl⟩

variable {delim : Char}

theorem escapeChar_cases (hdelim : delim = '"' ∨ delim = '\'') (c : Char) :
    (∃ l, escapeChar false delim c = ['\\', l] ∧ isODigit l = false ∧ simpleEscape l = c) ∨
      (escapeChar false delim c = [c] ∧ c ≠ delim ∧ c ≠ '\\') ∨
      escapeChar false delim c = '\\' :: octalText c := by
  by_cases hc : c = delim
  · subst hc
    refine .inl ⟨c, by simp [escapeChar], ?_⟩
    rcases hdelim with rfl | rfl <;> exact ⟨by decide, rfl⟩
  · simp only [escapeChar, if_neg hc, Bool.false_eq_true, if_false]
    cases hl : escapeLetter c with
    | some l => exact .inl ⟨l, rfl, escapeLetter_spec hl⟩
    | none =>
      by_cases hp : isPrint c = true
      · refine .inr (.inl ⟨by simp [hp], hc, ?_⟩)
        rintro rfl
        cases hl
      · exact .inr (.inr (by simp [hp]))

theorem octalDigit_spec : ∀ n < 8, isODigit (octalDigit n) = true ∧ octal (octalDigit n) = n ∧
    octalDigit n ≠ '"' ∧ octalDigit n ≠ '\'' ∧ octalDigit n ≠ '\\' := by decide

theorem scanString_escapeChar (hdelim : delim = '"' ∨ delim = '\'') (c : Char) (rest : Text) :
    scanString delim (.text false) (escapeChar false delim c ++ rest) =
      (scanString delim (.text false) rest).map fun (w, r) =>
      (escapeChar false delim c ++ w, r) := by
  have hslash : ('\\' : Char) ≠ delim := by rcases hdelim with rfl | rfl <;> decide
  have hpair : ∀ (l : Char) (rest : Text), scanString delim (.text false) ('\\' :: l :: rest) =
      (scanString delim (.text false) rest).map fun (w, r) => ('\\' :: l :: w, r) := by
    simp [scanString, hslash, Function.comp_def]
  have hplain : ∀ (l : Char) (rest : Text), l ≠ delim → l ≠ '\\' →
      scanString delim (.text false) (l :: rest) =
      (scanString delim (.text false) rest).map fun (w, r) => (l :: w, r) := by
    intro l rest h1 h2
    simp [scanString, h1, h2]
  rcases escapeChar_cases hdelim c with ⟨l, h, -⟩ | ⟨h, hne, hb⟩ | h
  · rw [h]
    exact hpair l rest
  · rw [h]
    exact hplain c rest hne hb
  · rw [h]
    have hoctal : ∀ n < 8, octalDigit n ≠ delim ∧ octalDigit n ≠ '\\' := by
      intro n hn
      obtain ⟨-, -, h1, h2, h3⟩ := octalDigit_spec n hn
      rcases hdelim with rfl | rfl
      · exact ⟨h1, h3⟩
      · exact ⟨h2, h3⟩
    obtain ⟨h1, h2⟩ := hoctal (c.toNat / 8 % 8) (by omega)
    obtain ⟨h3, h4⟩ := hoctal (c.toNat % 8) (by omega)
    simp only [octalText, List.cons_append, List.nil_append]
    rw [hpair, hplain _ _ h1 h2, hplain _ _ h3 h4]
    simp [Function.comp_def]

theorem convertEscapes_pair {l : Char} (hl : isODigit l = false) (s : Text) :
    convertEscapes ('\\' :: l :: s) = simpleEscape l :: convertEscapes s := by
  rw [convertEscapes.eq_def]
  simp [hl]

variable {c : Char} {s : Text} {v : Text}

theorem convertEscapes_plain (hc : c ≠ '\\') : convertEscapes (c :: s) = c :: convertEscapes s := by
  rw [convertEscapes]
  exact fun _ _ hslash => absurd hslash hc

section

variable (hdelim : delim = '"' ∨ delim = '\'')
include hdelim

theorem convertEscapes_escapeChar (hc : c.toNat < 256) (rest : Text) :
    convertEscapes (escapeChar false delim c ++ rest) = c :: convertEscapes rest := by
  rcases escapeChar_cases hdelim c with ⟨l, h, hl, hlc⟩ | ⟨h, -, hb⟩ | h
  · rw [h, cons_append, cons_append, nil_append, convertEscapes_pair hl, hlc]
  · rw [h, cons_append, nil_append, convertEscapes_plain hb]
  · obtain ⟨h1, o1, -⟩ := octalDigit_spec (c.toNat / 64) (by omega)
    obtain ⟨h2, o2, -⟩ := octalDigit_spec (c.toNat / 8 % 8) (by omega)
    obtain ⟨h3, o3, -⟩ := octalDigit_spec (c.toNat % 8) (by omega)
    have hval : (c.toNat / 64 * 8 + c.toNat / 8 % 8) * 8 + c.toNat % 8 = c.toNat := by omega
    rw [h]
    simp only [octalText, cons_append, nil_append, convertEscapes, h1, h2, h3, o1, o2, o3, if_true]
    rw [if_pos (by simp; omega), hval, Char.ofNat_toNat]

theorem scanString_unparse {v v' : Text} (hv : scanString delim .closed v = some ([], v')) :
    scanString delim (.text false) (unparseString false delim s ++ delim :: v) =
      some (unparseString false delim s, v') := by
  induction s with
  | nil => simp [unparseString, scanString, hv]
  | cons c s ih =>
    rw [unparseString, flatMap_cons, append_assoc, scanString_escapeChar hdelim]
    change (scanString delim (.text false) (unparseString false delim s ++ delim :: v)).map _ = _
    rw [ih]
    rfl

theorem convertEscapes_unparse
    (hs : ∀ c ∈ s, c.toNat < 256) : convertEscapes (unparseString false delim s) = s := by
  induction s with
  | nil => rfl
  | cons c s ih =>
    rw [forall_mem_cons] at hs
    rw [unparseString, flatMap_cons, convertEscapes_escapeChar hdelim hs.1]
    exact congrArg (c :: ·) (ih hs.2)

end

section

variable (old : Bool) (hdelim : delim = '"' ∨ delim = '\'')
include old hdelim

theorem nul_not_mem_escapeChar (hc : c ≠ nul ∧ c.toNat < 256) : nul ∉ escapeChar old delim c := by
  have hd : nul ≠ delim := by rcases hdelim with rfl | rfl <;> decide
  have hb : nul ≠ '\\' := by decide
  cases old with
  | true =>
    simp only [escapeChar]
    split_ifs
    · simp [hd, hb]
    · simpa using hc.1.symm
  | false =>
    rcases escapeChar_cases hdelim c with ⟨l, hl, -, hlc⟩ | ⟨hl, -⟩ | hl
    · rw [hl]
      have hne : nul ≠ l := by
        rintro rfl
        exact hc.1 hlc.symm
      simp [hb, hne]
    · rw [hl]
      simpa using hc.1.symm
    · have hoctal : ∀ n < 8, nul ≠ octalDigit n := by decide
      rw [hl, octalText]
      simp [hb, hoctal (c.toNat / 64) (by omega), hoctal (c.toNat / 8 % 8) (by omega),
        hoctal (c.toNat % 8) (by omega)]

theorem nul_not_mem_unparseString (hs : Bytes s) : nul ∉ unparseString old delim s := by
  intro h
  obtain ⟨c, hc, hmem⟩ := mem_flatMap.mp h
  exact nul_not_mem_escapeChar old hdelim (hs c hc) hmem

/-! ## Names -/

theorem unparseString_eq_self
    (h : '\\' ∉ unparseString old delim s) : unparseString old delim s = s := by
  induction s with
  | nil => rfl
  | cons c s ih =>
    simp only [unparseString, flatMap_cons, mem_append, not_or] at h ih ⊢
    have hc : escapeChar old delim c = [c] := by
      cases old with
      | true =>
        simp only [escapeChar] at h ⊢
        split_ifs at h ⊢
        · simp at h
        · rfl
      | false =>
        rcases escapeChar_cases hdelim c with ⟨l, hl, -⟩ | ⟨hl, -⟩ | hl
        · rw [hl] at h
          simp at h
        · exact hl
        · rw [hl] at h
          simp at h
    rw [hc, ih h.2]
    rfl

end

theorem isName_spec {w : Text} (h : isName w = true) : ∀ c ∈ w, c ≠ '\\' ∧ c ≠ nul := by
  cases w with
  | nil => simp
  | cons c w =>
    simp only [isName, Bool.and_eq_true] at h
    rw [forall_mem_cons]
    refine ⟨?_, fun d hd => ?_⟩
    · constructor <;>
      · rintro rfl
        exact absurd h.1 (by decide)
    · constructor <;>
      · rintro rfl
        exact absurd (all_eq_true.mp h.2 _ hd) (by decide)

theorem reservedWord_eq_none {w : Text} (h : reservedWords.any (caseEq w) = false) :
    reservedWord w = none := by
  have hne : ∀ r ∈ reservedWords, ¬ caseEq w r = true := any_eq_false.mp h
  rw [reservedWord, if_neg (hne _ (by decide)), if_neg (hne _ (by decide)),
    if_neg (hne _ (by decide)), if_neg (hne _ (by decide)), if_neg (hne _ (by decide)),
    if_neg (hne _ (by decide))]

theorem plain_of_not_quoting {old : Bool} (hs : Bytes s)
    (hq : identifierNeedsQuoting (unparseString old '\'' s) = false) :
    unparseString old '\'' s = s ∧ isName s = true ∧ reservedWord s = none := by
  have hcut : (unparseString old '\'' s).takeWhile (· ≠ nul) = unparseString old '\'' s :=
    cstr_eq (nul_not_mem_unparseString old (.inr rfl) hs)
  simp only [identifierNeedsQuoting, hcut, Bool.or_eq_false_iff, Bool.not_eq_false'] at hq
  have hself := unparseString_eq_self old (.inr rfl) fun h => (isName_spec hq.1 _ h).1 rfl
  rw [hself] at hq
  exact ⟨hself, hq.1, reservedWord_eq_none hq.2⟩

/-! ## In front of any text -/

/-- The first character behind the blanks is not the delimiter. -/
def Unquoted (delim : Char) (v : Text) : Prop := (v.dropWhile isSpace).head? ≠ some delim

instance (v : Text) : Decidable (Unquoted delim v) :=
  inferInstanceAs (Decidable ((v.dropWhile isSpace).head? ≠ some delim))

theorem Unquoted.cstr (h : Unquoted delim v) : Unquoted delim (cstr v) := by
  induction v with
  | nil => exact h
  | cons c v ih =>
    simp only [Condor.cstr, takeWhile_cons]
    by_cases hc : c = nul
    · simp [hc, Unquoted]
    · simp only [hc, ne_eq, not_false_eq_true, decide_true, if_true]
      cases hsp : isSpace c with
      | true =>
        simp only [Unquoted, dropWhile_cons, hsp, if_true] at h ⊢
        exact ih h
      | false =>
        simpa only [Unquoted, dropWhile_cons, hsp, Bool.false_eq_true, if_false, head?_cons] using h

theorem scanString_unquoted (h : Unquoted delim v) :
    scanString delim .closed v = some ([], v.dropWhile isSpace) := by
  induction v with
  | nil => rfl
  | cons c v ih =>
    cases hsp : isSpace c with
    | true =>
      simp only [Unquoted, dropWhile_cons, hsp, if_true] at h ⊢
      rw [scanString, if_pos hsp, ih h]
    | false =>
      simp only [Unquoted, dropWhile_cons, hsp, Bool.false_eq_true, if_false, head?_cons, ne_eq,
        Option.some.injEq] at h
      rw [scanString, if_neg (by simp [hsp]), if_neg h, dropWhile_cons_of_neg (by simp [hsp])]

theorem peekToken_quoted (hdelim : delim = '"' ∨ delim = '\'') (hm : m.oldClassAd = false)
    (hs : Bytes s) (last : Token) (hv : Unquoted delim v) :
    peekToken m last (delim :: unparseString false delim s ++ delim :: v) =
      (stringToken delim s, v.dropWhile isSpace) := by
  have hconv := convertEscapes_unparse hdelim fun c hc => (hs c hc).2
  have hnul : nul ∉ s := fun h => (hs nul h).1 rfl
  have htok : tokenizeString m delim (unparseString false delim s ++ delim :: v) =
      (stringToken delim s, v.dropWhile isSpace) := by
    simp [tokenizeString, hm, scanString_unparse hdelim (scanString_unquoted hv), hconv, hnul]
  have hhead : tokenizeHead m last (delim :: (unparseString false delim s ++ delim :: v)) =
      tokenizeString m delim (unparseString false delim s ++ delim :: v) := by
    rcases hdelim with rfl | rfl <;>
      rw [tokenizeHead, if_neg (by decide), if_neg (by decide), if_neg (by decide),
        if_pos (by decide)]
  rw [List.cons_append, peekToken_head, hhead, htok]
  all_goals rcases hdelim with rfl | rfl <;> decide

theorem cstr_append {u : Text} (hu : nul ∉ u) (v : Text) : cstr (u ++ v) = u ++ cstr v :=
  takeWhile_append_of_pos fun c hc => by
    simp only [decide_not, Bool.not_eq_eq_eq_not, Bool.not_true, decide_eq_false_iff_not]
    rintro rfl
    exact hu hc

/-- **Strings and names are read back in front of any text**, unless another string follows, or a
name without quotes is continued. -/
theorem peekToken_unparse (hm : m.oldClassAd = false) {s : Text} (hs : Bytes s) (last : Token) :
    (∀ v, Unquoted '"' v → peekToken m last (cstr ('"' :: unparseString false '"' s ++ '"' :: v)) =
        (.stringValue s, (cstr v).dropWhile isSpace)) ∧
      (∀ v, Unquoted '\'' v → identifierNeedsQuoting (unparseString false '\'' s) = true →
        peekToken m last (cstr (unparseName false s ++ v)) =
        (.identifier s, (cstr v).dropWhile isSpace)) ∧
      ∀ v, (∀ c ∈ v.head?, isIdent c = false) →
      identifierNeedsQuoting (unparseString false '\'' s) = false →
        peekToken m last (cstr (unparseName false s ++ v)) = (.identifier s, cstr v) := by
  have hcut : ∀ {d : Char} (_ : d = '"' ∨ d = '\'') (v : Text),
      cstr (d :: unparseString false d s ++ d :: v) = d :: unparseString false d s ++ d ::
      cstr v := by
    intro d hd v
    have hnul : nul ∉ d :: unparseString false d s ++ [d] := by
      have := nul_not_mem_unparseString false hd hs
      rcases hd with rfl | rfl <;>
        simpa [show nul ≠ '"' by decide, show nul ≠ '\'' by decide] using this
    simpa using cstr_append hnul v
  refine ⟨fun v hv => ?_, fun v hv hq => ?_, fun v hv hq => ?_⟩
  · rw [hcut (.inl rfl)]
    exact peekToken_quoted (.inl rfl) hm hs last hv.cstr
  · rw [unparseName, if_pos hq, append_assoc, singleton_append, hcut (.inr rfl)]
    exact peekToken_quoted (.inr rfl) hm hs last hv.cstr
  · obtain ⟨hself, hname, hr⟩ := plain_of_not_quoting hs hq
    have hv' : ∀ c ∈ (cstr v).head?, isIdent c = false := by
      intro c hc
      cases v with
      | nil => nomatch hc
      | cons d v =>
        rw [cstr, takeWhile_cons] at hc
        split_ifs at hc
        · exact hv c hc
        · nomatch hc
    have hq' : ¬ identifierNeedsQuoting s = true := by rw [← hself, hq]; decide
    rw [unparseName, hself, if_neg hq', cstr_append fun h => (hs nul h).1 rfl,
      peekToken_name hname hv', hr]
    rfl

/-- A control character in front of a digit, a quote and a backslash; the name `is` is quoted. -/
theorem peekToken_unparse_octal :
    (unparseString false '"' ['\x01', '7', '"', '\\'] = "\\0017\\\"\\\\".toList ∧
      peekToken .new .comma (cstr ('"' :: unparseString false '"' ['\x01', '7', '"', '\\'] ++
        '"' :: " 'b'".toList)) = (.stringValue ['\x01', '7', '"', '\\'], "'b'".toList)) ∧
      peekToken .new .comma (cstr (unparseName false "is".toList ++ [' ', ','])) =
        (.identifier "is".toList, [',']) :=
  ⟨⟨by decide, (peekToken_unparse rfl (by unfold Bytes; decide) _).1 _ (by decide)⟩,
    (peekToken_unparse rfl (by unfold Bytes; decide) _).2.1 _ (by decide) (by decide)⟩

end Condor.ClassAd
