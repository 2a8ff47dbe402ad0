import Condor.ClassAd.Json
import Condor.ClassAd.Quoting
import Mathlib.Data.List.DropRight

/-!
# JSON round trip — printed ads are parsed again

Every byte of a string is printed as one piece of a JSON string, and the pieces stand for the bytes.
A string never starts with an escaped slash, so that only the printer's own quotation of `error` is
read as an expression. The parser follows the printer token by token: behind a value stands a comma
or a closing sign, possibly after blanks, so that no token runs into the next one.

* **`IsJson.parses`**: all of them are, **`parseClassAd_jsonUnparse`**: ads are.
-/

namespace Condor.ClassAd

open List Char JsonItem ClassAd.Expr Flat

/-! ## Strings -/

attribute [local simp] text scanString Function.comp_def exprLoopJson quotesExpr

/-- The piece of a JSON string that a character is printed as. -/
def jsonItem (c : Char) : JsonItem :=
  if c = '"' then .short '"'
  else
    match c with
    | '\x08' => .short 'b'
    | '\x0c' => .short 'f'
    | '\n' => .short 'n'
    | '\r' => .short 'r'
    | '\t' => .short 't'
    | '\\' => .short '\\'
    | c =>
      if 0 < c.toNat ∧ c.toNat < 32 then .unicode '0' '0' (hexDigit (c.toNat / 16))
        (hexDigit (c.toNat % 16))
      else .plain c

/-- The piece neither ends the string nor escapes a slash. -/
def JsonItem.Inside (e : JsonItem) : Prop :=
  match e with
  | .plain c => c ≠ '"'
  | .short c => c ≠ '/'
  | .unicode d₁ d₂ d₃ d₄ => ∀ d ∈ [d₁, d₂, d₃, d₄], d ≠ '"' ∧ d ≠ '\\'

instance : DecidablePred Inside
  | .plain c => inferInstanceAs (Decidable (c ≠ '"'))
  | .short c => inferInstanceAs (Decidable (c ≠ '/'))
  | .unicode d₁ d₂ d₃ d₄ => inferInstanceAs (Decidable (∀ d ∈ [d₁, d₂, d₃, d₄], d ≠ '"' ∧ d ≠ '\\'))

/-- A printed piece: its text, and that it stands for the character. -/
structure PieceOf (c : Char) (e : JsonItem) : Prop where
  text : e.text = escapeCharJson c
  wellFormed : e.WellFormed
  written : e.written = [c]
  inside : e.Inside
  noNul : nul ∉ e.text

theorem pieceOf_control : ∀ n < 32, 0 < n → (jsonItem (ofNat n)).text = escapeCharJson (ofNat n) ∧
    (jsonItem (ofNat n)).WellFormed ∧ (jsonItem (ofNat n)).written = [ofNat n] ∧
    (jsonItem (ofNat n)).Inside ∧ nul ∉ (jsonItem (ofNat n)).text := by
  decide

variable {c : Char} {s v : Text} {l : JsonLexer} {t : Token} {e : Expr} {n : ℕ}

theorem pieceOf_jsonItem (hc : c ≠ nul) : PieceOf c (jsonItem c) := by
  by_cases hcontrol : c.toNat < 32
  · have hpos : 0 < c.toNat := Nat.pos_of_ne_zero fun h => hc (toNat_inj.mp h)
    obtain ⟨h1, h2, h3, h4, h5⟩ := pieceOf_control c.toNat hcontrol hpos
    rw [ofNat_toNat] at h1 h2 h3 h4 h5
    exact ⟨h1, h2, h3, h4, h5⟩
  · by_cases hquote : c = '"'
    · subst hquote
      exact ⟨rfl, by decide, rfl, by decide, by decide⟩
    by_cases hslash : c = '\\'
    · subst hslash
      exact ⟨rfl, by decide, rfl, by decide, by decide⟩
    have hplain : jsonItem c = .plain c ∧ escapeCharJson c = [c] := by
      unfold jsonItem escapeCharJson
      rw [if_neg hquote, if_neg hquote]
      constructor <;> split
      all_goals first
        | exact absurd rfl hslash
        | exact absurd (by decide) hcontrol
        | exact if_neg fun h => hcontrol h.2
    rw [hplain.1]
    exact ⟨hplain.2.symm, hslash, rfl, hquote, by simpa using hc.symm⟩

theorem escapeStringJson_eq (hs : nul ∉ s) :
    escapeStringJson s = (s.map jsonItem).flatMap text := by
  rw [escapeStringJson, flatMap_map]
  exact flatMap_congr fun c hc => (pieceOf_jsonItem fun h => hs (h ▸ hc)).text.symm

theorem written_jsonItem (hs : nul ∉ s) : (s.map jsonItem).flatMap written = s := by
  have h : (s.map jsonItem).flatMap written = s.flatMap fun c => [c] := by
    rw [flatMap_map]
    exact flatMap_congr fun c hc => (pieceOf_jsonItem fun h => hs (h ▸ hc)).written
  rw [h, flatMap_singleton']

theorem scanString_item {e : JsonItem} (hwf : e.WellFormed) (he : e.Inside) (rest : Text) :
    scanString '"' (.text false) (e.text ++ rest) =
      (scanString '"' (.text false) rest).map fun (w, r) => (e.text ++ w, r) := by
  cases e with
  | plain c =>
    have hquote : c ≠ '"' := he
    have hslash : c ≠ '\\' := hwf
    simp [hquote, hslash]
  | short c =>
    simp
  | unicode d1 d2 d3 d4 =>
    simp only [JsonItem.Inside, forall_mem_cons] at he
    obtain ⟨⟨h1, -⟩, ⟨h2, -⟩, ⟨h3, -⟩, ⟨h4, h4'⟩, -⟩ := he
    simp [h1, h2, h3, h4, h4']

section

variable {es : List JsonItem} (hes : ∀ e ∈ es, e.WellFormed ∧ e.Inside)
include hes

theorem scanString_items {v v' : Text} (hv : scanString '"' .closed v = some ([], v')) :
    scanString '"' (.text false) (es.flatMap text ++ '"' :: v) =
      some (es.flatMap JsonItem.text, v') := by
  induction es with
  | nil => simp [hv]
  | cons e es ih =>
    rw [forall_mem_cons] at hes
    rw [List.flatMap_cons, append_assoc, scanString_item hes.1.1 hes.1.2, ih hes.2]
    rfl

theorem quotesExpr_items : quotesExpr (es.flatMap text) = false := by
  cases es with
  | nil => rfl
  | cons e es =>
    obtain ⟨hwf, he⟩ := hes e (by simp)
    cases e with
    | plain c =>
      have hslash : c ≠ '\\' := hwf
      simp [hslash]
    | short c =>
      have hslash : c ≠ '/' := he
      simp [hslash]
    | unicode d1 d2 d3 d4 => simp

end

theorem items_spec (hs : nul ∉ s) : ∀ e ∈ s.map jsonItem, e.WellFormed ∧ e.Inside := by
  intro e he
  obtain ⟨c, hc, rfl⟩ := mem_map.mp he
  have hpiece := pieceOf_jsonItem (show c ≠ nul from fun h => hs (h ▸ hc))
  exact ⟨hpiece.wellFormed, hpiece.inside⟩

theorem quotesExpr_escape (hs : nul ∉ s) : quotesExpr (escapeStringJson s) = false := by
  rw [escapeStringJson_eq hs]
  exact quotesExpr_items (items_spec hs)

/-- **Strings are read back**, and never as quoted expressions. -/
theorem tokenizeStringJson_escape (hs : nul ∉ s) {v : Text} (hv : Unquoted '"' v) :
    tokenizeStringJson '"' (escapeStringJson s ++ '"' :: v) =
      ((.stringValue s, false), v.dropWhile isSpace) := by
  have hitems := items_spec hs
  have hconv := convertEscapesJson_items (fun e he => (hitems e he).1) false
  rw [quotesExpr_items hitems, written_jsonItem hs] at hconv
  rw [tokenizeStringJson, escapeStringJson_eq hs, scanString_items hitems (scanString_unquoted hv)]
  simp [hconv, stringToken, cstr_eq hs]

/-! ## Tokens -/

/-- The lexer stands in front of the text, up to blanks. -/
def Stands (l : JsonLexer) (s : Text) : Prop := l.text.dropWhile isSpace = s.dropWhile isSpace

theorem skipBlank_dropWhile : skipBlank .space (s.dropWhile isSpace) = skipBlank .space s := by
  induction s with
  | nil => rfl
  | cons c s ih =>
    cases hsp : isSpace c with
    | false => rw [dropWhile_cons_of_neg (by simp [hsp])]
    | true =>
      have hslash : c ≠ '/' := by
        rintro rfl
        cases hsp
      conv_rhs => rw [skipBlank.eq_def]
      split <;> simp_all

theorem Stands.scan (h : Stands l s) : l.scan = JsonLexer.scan ⟨l.last, s⟩ := by
  rw [JsonLexer.scan, JsonLexer.scan, ← skipBlank_dropWhile, h, skipBlank_dropWhile]

theorem dropWhile_newLine (oneline : Bool) (level : ℕ) :
    (newLine oneline level ++ s).dropWhile isSpace = s.dropWhile isSpace := by
  refine dropWhile_append_of_pos fun c hc => ?_
  rw [newLine] at hc
  split_ifs at hc
  · cases hc
  · rcases mem_cons.mp hc with rfl | hc
    · rfl
    · rw [(mem_replicate.mp hc).2]
      rfl

theorem stands_newLine {oneline : Bool} {level : ℕ} :
    Stands l (newLine oneline level ++ s) ↔ Stands l s := by
  rw [Stands, dropWhile_newLine, Stands]

/-- The lexer takes a token, and stands in front of the text behind it. -/
structure Takes (l : JsonLexer) (t : Token) (quoted : Bool) (s : Text) : Prop where
  peek : l.peek = t
  quoted : l.quotedExpr = quoted
  next : Stands l.next s

theorem Takes.last {q : Bool} (h : Takes l t q s) : l.next.last = t :=
  h.peek

theorem takes_of_scan {s v v' : Text} {q : Bool} (hl : Stands l s)
    (h : JsonLexer.scan ⟨l.last, s⟩ = ((t, q), v'))
    (hv : v'.dropWhile isSpace = v.dropWhile isSpace) :
    Takes l t q v := by
  have hscan := hl.scan.trans h
  refine ⟨?_, ?_, ?_⟩
  · rw [JsonLexer.peek, hscan]
  · rw [JsonLexer.quotedExpr, hscan]
  · rw [JsonLexer.next, hscan]
    exact hv

theorem takes_openBrace (h : Stands l ('\x7b' :: v)) : Takes l .openBrace false v :=
  takes_of_scan h rfl rfl

theorem takes_closeBrace (h : Stands l ('\x7d' :: v)) : Takes l .closeBrace false v :=
  takes_of_scan h rfl rfl

theorem takes_openBox (h : Stands l ('[' :: v)) : Takes l .openBox false v :=
  takes_of_scan h rfl rfl

theorem takes_closeBox (h : Stands l (']' :: v)) : Takes l .closeBox false v :=
  takes_of_scan h rfl rfl

theorem takes_comma (h : Stands l (',' :: v)) : Takes l .comma false v := takes_of_scan h rfl rfl

theorem takes_colon (h : Stands l (':' :: v)) : Takes l .colon false v := takes_of_scan h rfl rfl

theorem scan_head (h : isSpace c = false) (hne : c ≠ '/') (last : Token) :
    JsonLexer.scan ⟨last, c :: s⟩ = tokenizeHeadJson last (c :: s) := by
  have hskip : skipBlank .space (c :: s) = .token (c :: s) := by
    rw [skipBlank]
    all_goals intros; simp_all
  rw [JsonLexer.scan, hskip]

theorem scan_quote (last : Token) : JsonLexer.scan ⟨last, '"' :: s⟩ = tokenizeStringJson '"' s := by
  rw [scan_head (by decide) (by decide), tokenizeHeadJson, if_neg (by decide), if_neg (by decide),
    if_neg (by decide), if_pos (by decide)]

theorem takes_string (hs : nul ∉ s) (hv : Unquoted '"' v)
    (h : Stands l ('"' :: escapeStringJson s ++ '"' :: v)) : Takes l (.stringValue s) false v := by
  refine takes_of_scan h ?_ (List.dropWhile_idempotent isSpace v)
  rw [cons_append, scan_quote, tokenizeStringJson_escape hs hv]

theorem takes_error (hv : Unquoted '"' v) (h : Stands l (quoteExpr "error".toList ++ v)) :
    Takes l (.stringValue "/Expr(error)/".toList) true v := by
  have hscan : scanString '"' (.text false) ("\\/Expr(error)\\/".toList ++ '"' :: v) =
      (scanString '"' .closed v).map fun (w, r) => ("\\/Expr(error)\\/".toList ++ w, r) := by
    simp
  have htext : quoteExpr "error".toList ++ v = '"' :: ("\\/Expr(error)\\/".toList ++ '"' :: v) :=
    rfl
  refine takes_of_scan h ?_ (dropWhile_idempotent isSpace v)
  rw [htext, scan_quote, tokenizeStringJson, hscan, scanString_unquoted hv]
  rfl

/-! ## Numbers and words -/

/-- Behind the value stands a comma or a closing sign, perhaps after blanks. -/
def Closes (v : Text) : Prop := ∃ c ∈ [',', ']', '\x7d'], (v.dropWhile isSpace).head? = some c

theorem isSpace_mem (h : isSpace c = true) : c ∈ [' ', '\t', '\n', '\x0b', '\x0c', '\r'] := by
  simpa [isSpace, or_assoc] using h

theorem Closes.head (hv : Closes v) :
    ∀ c ∈ v.head?, c ∈ [' ', '\t', '\n', '\x0b', '\x0c', '\r', ',', ']', '\x7d'] := by
  intro c hc
  obtain ⟨d, hd, hhead⟩ := hv
  cases v with
  | nil => cases hc
  | cons x v =>
    obtain rfl : x = c := by simpa using hc
    cases hsp : isSpace x with
    | true => exact mem_append_left [',', ']', '\x7d'] (isSpace_mem hsp)
    | false =>
      rw [dropWhile_cons_of_neg (by simp [hsp])] at hhead
      obtain rfl : x = d := by simpa using hhead
      exact mem_append_right [' ', '\t', '\n', '\x0b', '\x0c', '\r'] hd

theorem Closes.endsNumber (hv : Closes v) : EndsNumber v := by
  have hall : ∀ c ∈ [' ', '\t', '\n', '\x0b', '\x0c', '\r', ',', ']', '\x7d'],
      c.isDigit = false ∧ c ≠ '.' ∧ c.toLower ≠ 'e' ∧ c.toLower ≠ 'x' := by decide
  exact endsNumber_of_head fun c hc => hall c (hv.head c hc)

theorem Closes.endsWord (hv : Closes v) :
    ∀ c ∈ v.head?, c.isAlpha = false ∧ (c.isDigit || c = '_') = false := by
  have hall : ∀ c ∈ [' ', '\t', '\n', '\x0b', '\x0c', '\r', ',', ']', '\x7d'],
      c.isAlpha = false ∧ (c.isDigit || c = '_') = false := by decide
  exact fun c hc => hall c (hv.head c hc)

theorem Closes.unquoted (hv : Closes v) : Unquoted '"' v := by
  obtain ⟨c, hc, hhead⟩ := hv
  rw [Unquoted, hhead]
  rintro ⟨⟩
  exact absurd hc (by decide)

theorem scanNumeralJson_digits {d : Char} {ds buf : Text} (hd : d.isDigit = true)
    (hds : ∀ c ∈ ds, c.isDigit = true) (h0 : d = '0' → ds = []) (hv : EndsNumber v)
    (hbuf : startsWith '0' (buf ++ ds) = true → (buf ++ ds).length ≤ 1) :
    scanNumeralJson buf d (ds ++ v) = (.integerValue (fromChars (buf ++ ds)), v) := by
  rw [scanNumeralJson, scanExponent_digits buf hd hds h0 hv, finishNumberJson, if_neg]
  rintro ⟨hs, hlen⟩
  have := hbuf hs
  omega

theorem scan_natural (hn : n < 2 ^ 63) (hv : EndsNumber v) (last : Token) :
    JsonLexer.scan ⟨last, Nat.toDigits 10 n ++ v⟩ = ((.integerValue n, false), v) := by
  obtain ⟨d, ds, hd, hdigit, hds, h0⟩ := digits_toDigits
  have hb := isDigit_bounds hdigit
  have hne : ∀ c, c.toNat < 48 → d ≠ c := by
    rintro c hc rfl
    omega
  have hnum : tokenizeNumberJson (d :: (ds ++ v)) = scanNumeralJson [d] d (ds ++ v) := by
    rw [tokenizeNumberJson]
    · exact fun c s he => absurd he (hne '-' (by decide))
    · exact fun he => absurd he (hne '-' (by decide))
  rw [← fromChars_toDigits hn, hd, cons_append,
    scan_head (isSpace_of_isDigit hdigit) (hne '/' (by decide)), tokenizeHeadJson,
    if_neg (hne '-' (by decide)), if_pos (by simp [hdigit]), hnum,
    scanNumeralJson_digits hdigit hds h0 hv]
  · rfl
  · intro hs
    have hd0 : d = '0' := by simpa [startsWith] using hs
    simp [h0 hd0]

theorem scan_negative (hn : n ≤ 2 ^ 63) (hv : EndsNumber v) {last : Token} (hlast : last.Fresh) :
    JsonLexer.scan ⟨last, '-' :: Nat.toDigits 10 n ++ v⟩ = ((.integerValue (-n), false), v) := by
  obtain ⟨d, ds, hd, hdigit, hds, h0⟩ := digits_toDigits
  rw [← fromChars_neg_toDigits hn, hd, cons_append, scan_head (by decide) (by decide),
    tokenizeHeadJson,
    if_pos rfl, if_neg (by rw [hlast]; simp), cons_append, tokenizeNumberJson, if_pos hdigit,
    scanNumeralJson_digits hdigit hds h0 hv]
  · rfl
  · intro hs
    cases hs

theorem takes_integer {i : ℤ} (hi : -2 ^ 63 ≤ i ∧ i < 2 ^ 63) (hlast : l.last.Fresh)
    (hv : EndsNumber v) (h : Stands l (integerText i ++ v)) :
    Takes l (.integerValue i) false v := by
  refine takes_of_scan h ?_ rfl
  rw [integerText]
  split_ifs with hpos
  · rw [scan_natural (by omega) hv, Int.toNat_of_nonneg hpos]
  · rw [scan_negative (by omega) hv hlast, Int.toNat_of_nonneg (by omega), neg_neg]

theorem takes_word {w : Text} (hw : ∀ c ∈ w, c.isAlpha = true) (hne : w ≠ [])
    (ht : reservedWordJson w = some t) (hv : Closes v) (h : Stands l (w ++ v)) :
    Takes l t false v := by
  obtain ⟨c, s, rfl⟩ := exists_cons_of_ne_nil hne
  have hc : (c.isAlpha || c = '_') = true := by simp [hw c]
  obtain ⟨hspace, hdigit, hother⟩ := alpha_head hc
  have hstop := fun c hc => (hv.endsWord c hc).1
  refine takes_of_scan h ?_ rfl
  rw [cons_append, scan_head hspace (hother '/' (by decide)), tokenizeHeadJson,
    if_neg (hother '-' (by decide)), if_neg (by simp [hdigit, hother '.' (by decide)]), if_pos hc,
    ← cons_append, tokenizeAlphaHeadJson, takeWhile_append_stop hw hstop,
    dropWhile_append_stop hw hstop, if_neg, ht]
  · rfl
  · cases v with
    | nil => simp
    | cons d v => simpa using (hv.endsWord d rfl).2

/-! ## Values -/

/-- The values of the round trip: booleans, integers of 64 bits, strings without a terminator,
undefined, error, lists, and ads with names in order. -/
inductive Expr.IsJson : Expr → Prop
  | boolean (b : Bool) : IsJson (.literal (.boolean b))
  | integer {i : ℤ} (h : -2 ^ 63 ≤ i ∧ i < 2 ^ 63) : IsJson (.literal (.integer i))
  | string {s : Text} (h : nul ∉ s) : IsJson (.literal (.string s))
  | undefined : IsJson (.literal .undefined)
  | error : IsJson (.literal .error)
  | list {es : List Expr} (h : ∀ e ∈ es, IsJson e) : IsJson (.list es)
  | classAd {as : List (Text × Expr)} (hsorted : Sorted nameRank as)
      (hnames : ∀ a ∈ as, a.1 ≠ [] ∧ nul ∉ a.1) (h : ∀ a ∈ as, IsJson a.2) : IsJson (.classAd as)

theorem Expr.IsJson.regular (h : e.IsJson) : e.all isRegular = true := by
  induction h with
  | list h ih => simpa [all, isRegular] using allList_iff.mpr ih
  | classAd hsorted hnames h ih => simpa [all, isRegular, hsorted] using allAttrs_iff.mpr ih
  | _ => rfl

variable (G : Dialect) (W : JsonNumerals)

/-- The value is printed and read back, in front of a comma or a closing sign. -/
def Parses (e : Expr) : Prop :=
  ∀ {oneline : Bool} {level n : ℕ} {l : JsonLexer} {v : Text}, l.last.Fresh → Closes v →
    Stands l (jsonUnparse W oneline level e ++ v) → 3 * (jsonUnparse W oneline level e).length < n →
    ∃ l', parseExpressionJson G n l = some (e, l') ∧ Stands l' v

variable {G W}

theorem closes_newLine {oneline : Bool} {level : ℕ} (hc : c ∈ [',', ']', '\x7d']) (v : Text) :
    Closes (newLine oneline level ++ c :: v) := by
  refine ⟨c, hc, ?_⟩
  have hall : ∀ c ∈ [',', ']', '\x7d'], isSpace c = false := by decide
  rw [dropWhile_newLine, dropWhile_cons_of_neg (by simp [hall c hc])]
  rfl

theorem closes_comma : Closes (',' :: v) := ⟨',', by decide, rfl⟩

variable {es : List Expr} {a : Text × Expr} {as : List (Text × Expr)} {oneline : Bool}
  {level lvl : ℕ}

/-! ### Lists -/

theorem closes_moreJson (es : List Expr) :
    Closes (unparseMoreJson W oneline level es ++ (newLine oneline lvl ++ ']' :: v)) := by
  cases es with
  | nil => exact closes_newLine (by decide) v
  | cons e es => exact closes_comma

theorem exprLoopJson_value (he : Parses G W e) (loe : List Expr) {tt : Token}
    (htt : tt ≠ .closeBox) (hlast : l.last.Fresh) (h : Stands l (jsonUnparse W oneline level e ++
      (unparseMoreJson W oneline level es ++ (newLine oneline lvl ++ ']' :: v))))
    (hn : 3 * (jsonUnparse W oneline level e).length < n) :
    ∃ l', Stands l' (unparseMoreJson W oneline level es ++ (newLine oneline lvl ++ ']' :: v)) ∧
      (l'.peek = .comma → exprLoopJson G (n + 1) tt loe l = exprLoopJson G n .comma (loe ++ [e])
      l'.next) ∧
      (l'.peek = .closeBox → exprLoopJson G (n + 1) tt loe l =
      exprLoopJson G n .closeBox (loe ++ [e]) l') := by
  obtain ⟨l', hparse, hl'⟩ := he hlast (closes_moreJson es) h hn
  refine ⟨l', hl', fun hpeek => ?_, fun hpeek => ?_⟩ <;> simp [if_neg htt, hparse, hpeek]

theorem exprLoopJson_more (hes : ∀ e ∈ es, Parses G W e) (loe : List Expr)
    (h : Stands l (unparseMoreJson W oneline level es ++ (newLine oneline lvl ++ ']' :: v)))
    (hn : 3 * (unparseMoreJson W oneline level es).length < n) :
    ∃ l', (l.peek = .comma ∧ exprLoopJson G n .comma loe l.next = some (loe ++ es, l') ∨
      l.peek = .closeBox ∧ exprLoopJson G n .closeBox loe l = some (loe ++ es, l')) ∧
      Stands l' v := by
  induction es generalizing n loe l with
  | nil =>
    have htakes := takes_closeBox (stands_newLine.mp h)
    obtain _ | n := n
    · omega
    refine ⟨l.next, .inr ⟨htakes.peek, ?_⟩, htakes.next⟩
    simp
  | cons e es ih =>
    rw [forall_mem_cons] at hes
    simp only [unparseMoreJson, append_assoc, length_cons, length_append] at h hn
    have htakes := takes_comma h
    obtain _ | n := n
    · omega
    obtain ⟨l1, hl1, hcomma, hclose⟩ :=
      exprLoopJson_value hes.1 loe (show Token.comma ≠ .closeBox by simp)
        (by rw [htakes.last]; rfl) (stands_newLine.mp htakes.next) (n := n) (by omega)
    obtain ⟨l', hrest, hl'⟩ := ih hes.2 (loe ++ [e]) hl1 (n := n) (by omega)
    rw [append_assoc] at hrest
    refine ⟨l', .inl ⟨htakes.peek, ?_⟩, hl'⟩
    exact hrest.elim (fun h => (hcomma h.1).trans h.2) fun h => (hclose h.1).trans h.2

theorem parses_list (hes : ∀ e ∈ es, Parses G W e) : Parses G W (.list es) := by
  intro oneline level n l v hlast hv h hn
  simp only [jsonUnparse, cons_append, append_assoc, length_cons] at h hn
  have hopen := takes_openBox h
  obtain ⟨n, rfl⟩ : ∃ n', n = n' + 3 := ⟨n - 3, by omega⟩
  have hparse : parseExpressionJson G (n + 3) l =
      (exprLoopJson G (n + 1) l.next.peek [] l.next).map fun x => (.list x.1, x.2) := by
    simp [parseExpressionJson, hopen.peek, parseExprListJson]
  rw [hparse]
  cases es with
  | nil =>
    have hclose := takes_closeBox (stands_newLine.mp hopen.next)
    refine ⟨l.next.next, ?_, hclose.next⟩
    simp [hclose.peek]
  | cons e es =>
    rw [forall_mem_cons] at hes
    have hstands := hopen.next
    simp only [unparseListJson, append_assoc, length_append] at hstands hn
    have hfresh : l.next.last.Fresh := by rw [hopen.last]; rfl
    have hne : l.next.peek ≠ .closeBox := by
      intro hpeek
      obtain ⟨l', hl', -⟩ := hes.1 hfresh (closes_moreJson es) (stands_newLine.mp hstands)
        (Nat.lt_succ_self _)
      simp only [parseExpressionJson, hpeek, reduceCtorEq] at hl'
    obtain ⟨l1, hl1, hcomma, hclose⟩ :=
      exprLoopJson_value hes.1 [] hne hfresh (stands_newLine.mp hstands) (n := n) (by omega)
    obtain ⟨l', hrest, hl'⟩ := exprLoopJson_more hes.2 ([] ++ [e]) hl1 (n := n) (by omega)
    have hloop : exprLoopJson G (n + 1) l.next.peek [] l.next = some (e :: es, l') :=
      hrest.elim (fun h => (hcomma h.1).trans h.2) fun h => (hclose h.1).trans h.2
    exact ⟨l', by rw [hloop]; rfl, hl'⟩

/-! ### Ads -/

theorem closes_moreAttrsJson :
    Closes (unparseMoreAttrsJson W oneline level as ++ (newLine oneline lvl ++ '\x7d' :: v)) := by
  cases as with
  | nil => exact closes_newLine (by decide) v
  | cons a as => exact closes_comma

theorem slurpCommas_one (hcomma : l.peek = .comma) (hnext : l.next.peek ≠ .comma) :
    l.slurpCommas (n + 1) = l.next := by
  rw [JsonLexer.slurpCommas, if_pos hcomma]
  cases n with
  | zero => rfl
  | succ n => rw [JsonLexer.slurpCommas, if_neg hnext]

theorem slurpCommas_none (h : l.peek ≠ .comma) : l.slurpCommas n = l := by
  cases n with
  | zero => rfl
  | succ n => rw [JsonLexer.slurpCommas, if_neg h]

theorem takes_name (ha : nul ∉ a.1) (h : Stands l (unparseAttrJson W oneline level a ++ v)) :
    Takes l (.stringValue a.1) false (':' :: ' ' :: (jsonUnparse W oneline level a.2 ++ v)) := by
  obtain ⟨name, e⟩ := a
  simp only [unparseAttrJson, append_assoc] at h
  exact takes_string ha (by simp [Unquoted, isSpace]) (stands_newLine.mp h)

theorem attrLoopJson_attr (hname : a.1 ≠ [] ∧ nul ∉ a.1) (ha : Parses G W a.2)
    (attrs : List (Text × Expr)) {tt : Token} (htt : tt ≠ .closeBrace)
    (h : Stands l (unparseAttrJson W oneline level a ++
      (unparseMoreAttrsJson W oneline level as ++ (newLine oneline lvl ++ '\x7d' :: v))))
    (hn : 3 * (unparseAttrJson W oneline level a).length < n) :
    ∃ l', Stands l' (unparseMoreAttrsJson W oneline level as ++
      (newLine oneline lvl ++ '\x7d' :: v)) ∧
      ((l'.peek = .comma ∨ l'.peek = .closeBrace) → attrLoopJson G (n + 1) tt attrs l =
        attrLoopJson G n (l'.slurpCommas l'.text.length).peek (put nameRank a.1 a.2 attrs)
          (l'.slurpCommas l'.text.length)) := by
  have hstring := takes_name hname.2 h
  have hcolon := takes_colon hstring.next
  have hvalue : Stands l.next.next (jsonUnparse W oneline level a.2 ++
      (unparseMoreAttrsJson W oneline level as ++ (newLine oneline lvl ++ '\x7d' :: v))) :=
        hcolon.next
  have hlen : 3 * (jsonUnparse W oneline level a.2).length < n := by
    obtain ⟨name, e⟩ := a
    simp only [unparseAttrJson, length_append] at hn
    dsimp only
    omega
  obtain ⟨l', hparse, hl'⟩ := ha (by rw [hcolon.last]; rfl) closes_moreAttrsJson hvalue hlen
  refine ⟨l', hl', fun hsep => ?_⟩
  rw [attrLoopJson, if_neg htt]
  simp [hstring.peek, hcolon.peek, hparse, hname.1, if_pos hsep]

theorem attrLoopJson_more (hnames : ∀ a ∈ as, a.1 ≠ [] ∧ nul ∉ a.1)
    (has : ∀ a ∈ as, Parses G W a.2) {attrs : List (Text × Expr)}
    (hsorted : Sorted nameRank (attrs ++ as))
    (h : Stands l (unparseMoreAttrsJson W oneline level as ++ (newLine oneline lvl ++ '\x7d' :: v)))
    (hn : 3 * (unparseMoreAttrsJson W oneline level as).length < n) :
    (l.peek = .comma ∨ l.peek = .closeBrace) ∧
      ∃ l', attrLoopJson G n (l.slurpCommas l.text.length).peek attrs
      (l.slurpCommas l.text.length) = some (attrs ++ as, l') ∧ Stands l' v := by
  induction as generalizing n attrs l with
  | nil =>
    have hclose := takes_closeBrace (stands_newLine.mp h)
    obtain _ | n := n
    · omega
    refine ⟨.inr hclose.peek, l.next, ?_, hclose.next⟩
    rw [slurpCommas_none (by rw [hclose.peek]; simp), attrLoopJson, if_pos hclose.peek, append_nil]
  | cons a as ih =>
    rw [forall_mem_cons] at hnames has
    simp only [unparseMoreAttrsJson, append_assoc, length_cons, length_append] at h hn
    have hcomma := takes_comma h
    have hstring := takes_name hnames.1.2 hcomma.next
    obtain _ | n := n
    · omega
    -- the comma takes a character, so that the loop over the commas can take it
    obtain ⟨k, hk⟩ : ∃ k, l.text.length = k + 1 := by
      refine Nat.exists_eq_succ_of_ne_zero fun hzero => ?_
      rw [Stands, eq_nil_of_length_eq_zero hzero] at h
      cases h
    rw [hk, slurpCommas_one hcomma.peek (by rw [hstring.peek]; simp)]
    refine ⟨.inl hcomma.peek, ?_⟩
    obtain ⟨l1, hl1, hloop⟩ := attrLoopJson_attr hnames.1 has.1 attrs
      (show l.next.peek ≠ .closeBrace by rw [hstring.peek]; simp) hcomma.next (n := n) (by omega)
    have hput : put nameRank a.1 a.2 attrs = attrs ++ [a] :=
      put_of_lt (fun e he => (pairwise_append.mp hsorted).2.2 e he a (by simp))
    obtain ⟨hsep, l', hrest, hl'⟩ :=
      ih hnames.2 has.2 (show Sorted nameRank ((attrs ++ [a]) ++ as) by simpa using hsorted) hl1
        (n := n) (by omega)
    refine ⟨l', ?_, hl'⟩
    rw [hloop hsep, hput, hrest, append_assoc]
    rfl

section

variable (hsorted : Sorted nameRank as) (hnames : ∀ a ∈ as, a.1 ≠ [] ∧ nul ∉ a.1)
  (has : ∀ a ∈ as, Parses G W a.2)
include hsorted hnames has

theorem parseClassAdJson_attrs (h : Stands l (jsonUnparse W oneline level (.classAd as) ++ v))
    (hn : 3 * (jsonUnparse W oneline level (.classAd as)).length ≤ n) :
    l.peek = .openBrace ∧ ∃ l', parseClassAdJson G n l = some (as, l') ∧ Stands l' v := by
  simp only [jsonUnparse, cons_append, append_assoc, length_cons] at h hn
  have hopen := takes_openBrace h
  refine ⟨hopen.peek, ?_⟩
  obtain ⟨n, rfl⟩ : ∃ n', n = n' + 2 := ⟨n - 2, by omega⟩
  have hparse : parseClassAdJson G (n + 2) l = attrLoopJson G (n + 1) l.next.peek [] l.next := by
    simp [parseClassAdJson, hopen.peek]
  rw [hparse]
  cases as with
  | nil =>
    have hclose := takes_closeBrace (stands_newLine.mp hopen.next)
    refine ⟨l.next.next, ?_, hclose.next⟩
    simp [hclose.peek, attrLoopJson]
  | cons a as =>
    rw [forall_mem_cons] at hnames has
    have hstands := hopen.next
    simp only [unparseAttrsJson, append_assoc, length_append] at hstands hn
    have hstring := takes_name hnames.1.2 hstands
    obtain ⟨l1, hl1, hloop⟩ := attrLoopJson_attr hnames.1 has.1 []
      (show l.next.peek ≠ .closeBrace by rw [hstring.peek]; simp) hstands (n := n) (by omega)
    obtain ⟨hsep, l', hrest, hl'⟩ :=
      attrLoopJson_more hnames.2 has.2 (show Sorted nameRank ([a] ++ as) from hsorted) hl1 (n := n)
        (by omega)
    exact ⟨l', (hloop hsep).trans hrest, hl'⟩

theorem parses_classAd : Parses G W (.classAd as) := by
  intro oneline level n l v hlast hv h hn
  obtain _ | n := n
  · omega
  obtain ⟨hpeek, l', hparse, hl'⟩ :=
    parseClassAdJson_attrs hsorted hnames has h (Nat.lt_succ_iff.mp hn)
  refine ⟨l', ?_, hl'⟩
  simp [parseExpressionJson, hpeek, hparse]

end

/-! ### All values -/

theorem stringExpr_error : stringExpr G "/Expr(error)/".toList true = some (.literal .error) := by
  obtain ⟨⟨old, semantics⟩, times⟩ := G
  cases semantics <;> rfl

theorem parses_literal {c : Literal} (t : Token) (q : Bool)
    (ht : ∀ {l : JsonLexer} {v : Text}, l.last.Fresh → Closes v →
      Stands l (unparseLiteralJson W c ++ v) →
      Takes l t q v)
    (hparse : ∀ {n : ℕ} {l : JsonLexer}, l.peek = t → l.quotedExpr = q →
      parseExpressionJson G (n + 1) l = some (.literal c, l.next)) : Parses G W (.literal c) := by
  intro oneline level n l v hlast hv h hn
  obtain _ | n := n
  · omega
  have htakes := ht hlast hv h
  exact ⟨l.next, hparse htakes.peek htakes.quoted, htakes.next⟩

/-- **All values are printed and read back.** -/
theorem Expr.IsJson.parses (h : e.IsJson) : Parses G W e := by
  induction h with
  | list _ ih => exact parses_list ih
  | classAd hsorted hnames _ ih => exact parses_classAd hsorted hnames ih
  | boolean b =>
    refine parses_literal (.booleanValue b) false (fun _ hv h => ?_) fun ht _ => ?_
    · cases b
      · exact takes_word (w := "false".toList) (by decide) (by decide) rfl hv h
      · exact takes_word (w := "true".toList) (by decide) (by decide) rfl hv h
    · simp only [parseExpressionJson, ht]
  | undefined =>
    refine parses_literal .undefinedValue false (fun _ hv h => ?_) fun ht _ => ?_
    · exact takes_word (w := "null".toList) (by decide) (by decide) rfl hv h
    · simp only [parseExpressionJson, ht]
  | @integer i hi =>
    refine parses_literal (.integerValue i) false (fun hlast hv h => ?_) fun ht _ => ?_
    · exact takes_integer hi hlast hv.endsNumber h
    · simp only [parseExpressionJson, ht]
  | @string s hs =>
    refine parses_literal (.stringValue s) false (fun _ hv h => ?_) fun ht hq => ?_
    · exact takes_string hs hv.unquoted (by simpa [unparseLiteralJson] using h)
    · simp only [parseExpressionJson, ht, hq, stringExpr, Bool.false_eq_true, if_false,
        Option.map_some]
  | error =>
    refine parses_literal (.stringValue "/Expr(error)/".toList) true (fun _ hv h => ?_) fun ht hq =>
      ?_
    · exact takes_error hv.unquoted h
    · simp only [parseExpressionJson, ht, hq, stringExpr_error, Option.map_some]

/-! ## Ads -/

theorem nul_not_mem_newLine (oneline : Bool) (level : ℕ) : nul ∉ newLine oneline level := by
  rw [newLine]
  split_ifs
  · simp
  · simp [show nul ≠ '\n' by decide, show nul ≠ ' ' by decide]

theorem nul_not_mem_escapeStringJson (hs : nul ∉ s) : nul ∉ escapeStringJson s := by
  intro h
  obtain ⟨c, hc, hmem⟩ := mem_flatMap.mp h
  have hpiece := pieceOf_jsonItem (show c ≠ nul from fun h => hs (h ▸ hc))
  exact hpiece.noNul (hpiece.text ▸ hmem)

theorem nul_not_mem_unparseMoreJson (hes : ∀ e ∈ es, nul ∉ jsonUnparse W oneline level e) :
    nul ∉ unparseMoreJson W oneline level es := by
  induction es with
  | nil => simp [unparseMoreJson]
  | cons e es ih =>
    rw [forall_mem_cons] at hes
    simpa [unparseMoreJson, show nul ≠ ',' by decide] using
      ⟨nul_not_mem_newLine oneline level, hes.1, ih hes.2⟩

theorem nul_not_mem_unparseAttrJson (hname : nul ∉ a.1)
    (ha : nul ∉ jsonUnparse W oneline level a.2) : nul ∉ unparseAttrJson W oneline level a := by
  obtain ⟨name, e⟩ := a
  simpa [unparseAttrJson, show nul ≠ '"' by decide, show nul ≠ ':' by decide,
    show nul ≠ ' ' by decide] using
    ⟨nul_not_mem_newLine oneline level, nul_not_mem_escapeStringJson hname, ha⟩

theorem nul_not_mem_unparseMoreAttrsJson (has : ∀ a ∈ as, nul ∉ unparseAttrJson W oneline level a) :
    nul ∉ unparseMoreAttrsJson W oneline level as := by
  induction as with
  | nil => simp [unparseMoreAttrsJson]
  | cons a as ih =>
    rw [forall_mem_cons] at has
    simpa [unparseMoreAttrsJson, show nul ≠ ',' by decide] using ⟨has.1, ih has.2⟩

theorem nul_not_mem_jsonUnparse (h : e.IsJson) (oneline : Bool) (level : ℕ) :
    nul ∉ jsonUnparse W oneline level e := by
  induction h generalizing level with
  | boolean b =>
    have hwords : ∀ b : Bool, nul ∉ if b then "true".toList else "false".toList := by decide
    exact hwords b
  | undefined => exact show nul ∉ "null".toList by decide
  | error => exact show nul ∉ quoteExpr "error".toList by decide
  | @integer i _ =>
    have hdigits := nul_not_mem_toDigits
    rw [jsonUnparse, unparseLiteralJson, integerText]
    split_ifs
    · exact hdigits _
    · simpa [show nul ≠ '-' by decide] using hdigits _
  | string hs =>
    simpa [jsonUnparse, unparseLiteralJson,
      show nul ≠ '"' by decide] using nul_not_mem_escapeStringJson hs
  | @list es _ ih =>
    have hline := nul_not_mem_newLine oneline
    cases es with
    | nil =>
      simpa [jsonUnparse, unparseListJson, show nul ≠ '[' by decide,
        show nul ≠ ']' by decide] using hline level
    | cons e es =>
      rw [forall_mem_cons] at ih
      simpa [jsonUnparse, unparseListJson, show nul ≠ '[' by decide, show nul ≠ ']' by decide] using
        ⟨hline _, ih.1 _, nul_not_mem_unparseMoreJson fun e he => ih.2 e he _, hline level⟩
  | @classAd as _ hnames _ ih =>
    have hline := nul_not_mem_newLine oneline level
    have hattr : ∀ a ∈ as, nul ∉ unparseAttrJson W oneline (level + indentIncrement) a :=
      fun a ha => nul_not_mem_unparseAttrJson (hnames a ha).2 (ih a ha _)
    cases as with
    | nil =>
      simpa [jsonUnparse, unparseAttrsJson, show nul ≠ '\x7b' by decide,
        show nul ≠ '\x7d' by decide] using hline
    | cons a as =>
      rw [forall_mem_cons] at hattr
      simpa [jsonUnparse, unparseAttrsJson, show nul ≠ '\x7b' by decide,
        show nul ≠ '\x7d' by decide] using
        ⟨hattr.1, nul_not_mem_unparseMoreAttrsJson hattr.2, hline⟩

/-- **JSON round trip**: such an ad is parsed from its text, on one line or indented, as the same
ad. -/
theorem parseClassAd_jsonUnparse (W : JsonNumerals) (N : SameNumber) (p : ClassAdJsonParser)
    {as : List (Text × Expr)} (h : (classAd as).IsJson) (oneline full : Bool) (level : ℕ) :
    (∃ ad, p.parseClassAd (jsonUnparse W oneline level (.classAd as)) full = some ad ∧ ad = as ∧
        (classAd ad).sameAs N (.classAd as) = true) ∧
      ∀ s, nul ∉ s → quotesExpr (escapeStringJson s) = false := by
  refine ⟨⟨as, ?_, rfl, sameAs_refl N _ h.regular⟩, fun s hs => quotesExpr_escape hs⟩
  cases h with
  | classAd hsorted hnames has =>
    have htext := cstr_eq
      (nul_not_mem_jsonUnparse (W := W) (.classAd hsorted hnames has) oneline level)
    obtain ⟨-, l', hparse, hl'⟩ := parseClassAdJson_attrs (G := p.dialect) hsorted hnames
      (fun a ha => (has a ha).parses)
      (show Stands ⟨p.last, jsonUnparse W oneline level (.classAd as)⟩ _ by rw [append_nil]; rfl)
      (Nat.le_add_right _ 3)
    have hend : l'.peek = .endOfInput := by
      rw [JsonLexer.peek, hl'.scan]
      rfl
    simp [ClassAdJsonParser.parseClassAd, htext, hparse, hend]

/-- An indented ad with a string that looks like a quoted expression. -/
theorem parseClassAd_jsonUnparse_slashes :
    let W : JsonNumerals := ⟨⟨fun _ r => r, id, id⟩, id⟩
    let as : List (Text × Expr) := [("A".toList, .literal (.string "/Expr(1)/".toList)),
      ("Bc".toList, .list [.literal (.integer (-5)), .literal .error])]
    (ClassAdJsonParser.mk ⟨.new, ⟨fun _ => true, fun _ => true⟩⟩ .endOfInput).parseClassAd
      (jsonUnparse W false 0 (.classAd as)) true = some as := by
  intro W as
  have hstring : (literal (.string "/Expr(1)/".toList)).IsJson := .string (by decide)
  have hlist : (list [.literal (.integer (-5)), .literal .error]).IsJson :=
    .list (forall_mem_cons.mpr ⟨.integer (by decide), forall_mem_cons.mpr ⟨.error, by simp⟩⟩)
  have has : (classAd as).IsJson := .classAd (by decide) (by decide)
    (forall_mem_cons.mpr ⟨hstring, forall_mem_cons.mpr ⟨hlist, by simp⟩⟩)
  obtain ⟨⟨ad, hparse, rfl, -⟩, -⟩ := parseClassAd_jsonUnparse W ⟨(· == ·), (· == ·), (· == ·)⟩
    ⟨⟨.new, ⟨fun _ => true, fun _ => true⟩⟩, .endOfInput⟩ has false true 0
  exact hparse

end Condor.ClassAd
