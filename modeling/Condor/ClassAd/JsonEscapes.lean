import Condor.ClassAd.Lexer

/-!
# Escapes in JSON strings — the model of `convert_escapes_json`

The escapes of a string are replaced in place: one index runs over the text, and a second one behind
it marks the end of what has been written. An escaped code point is to be replaced by its bytes in
UTF-8.

* **`jsonLoop_items`**;
* **`convertEscapesJson_iff`**.
-/

namespace Condor.ClassAd

open Option

/-! ## The loop -/

attribute [local simp] Nat.add_assoc

/-- The state of the loop: the text and the two indices. -/
structure Rewriting where
  text : Text
  source : ℕ
  dest : ℕ
deriving DecidableEq, Repr

def Rewriting.char (st : Rewriting) (i : ℕ) : Char := st.text.getD i nul

/-- The end of an iteration: the character is written, unless nothing has been replaced yet. -/
def Rewriting.store (st : Rewriting) (ch : Char) : Rewriting where
  text := if st.dest = st.source then st.text else st.text.set st.dest ch
  source := st.source + 1
  dest := st.dest + 1

/-- `text[dest++] = ...` for several bytes, and the next iteration. -/
def Rewriting.write (st : Rewriting) : Text → Rewriting
  | [] => { st with source := st.source + 1 }
  | b :: bytes => Rewriting.write { st with text := st.text.set st.dest b, dest := st.dest + 1 }
      bytes

/-- A number in a `char`. -/
def lowByte (n : ℕ) : Char := Char.ofNat (n % 256)

def hexValue (c : Char) : Option ℕ :=
  if '0' ≤ c ∧ c ≤ '9' then some (c.toNat - '0'.toNat)
  else if 'a' ≤ c ∧ c ≤ 'f' then some (c.toNat - 32 + 10 - 'A'.toNat)
  else if 'A' ≤ c ∧ c ≤ 'F' then some (c.toNat + 10 - 'A'.toNat)
  else none

def hexNumber (digits : Text) : Option ℕ :=
  digits.foldlM (fun number c => (hexValue c).map fun v => (number <<< 4) + v) 0

def jsonEscape : Char → Char
  | 'b' => '\x08'
  | 'f' => '\x0c'
  | 'n' => '\n'
  | 'r' => '\r'
  | 't' => '\t'
  | c => c

/-- The bytes for a code point from `0x80` on. The masks are hexadecimal with binary digits. -/
def wideBytes (number : ℕ) : Text :=
  if number ≥ 0x0800 then
    [lowByte (0x11100000 ||| (number >>> 12)),
      lowByte (0x10000000 ||| ((number >>> 6) ||| 0x00111111)),
      lowByte (0x10000000 ||| (number ||| 0x00111111))]
  else
    [lowByte (0x11000000 ||| (number >>> 6)), lowByte (0x10000000 ||| (number &&& 0x00111111))]

/-- The character behind a backslash; no value stands for an invalid string. -/
def jsonEscaped (length : ℕ) (st : Rewriting) : Option Rewriting :=
  let ch := st.char st.source
  if ch = 'u' then
    if st.source + 4 ≥ length then none
    else
      match hexNumber ((st.text.drop (st.source + 1)).take 4) with
      | none => none
      | some number =>
        let st : Rewriting := { st with source := st.source + 4 }
        if number = 0 then none
        else if number ≥ 0x0080 then some (st.write (wideBytes number))
        else some (st.store (Char.ofNat number))
  else some (st.store (jsonEscape ch))

def jsonStep (length : ℕ) (st : Rewriting) : Option Rewriting :=
  let ch := st.char st.source
  if ch = '\\' ∧ st.source + 1 < length then jsonEscaped length { st with source := st.source + 1 }
  else some (st.store ch)

/-- The loop, and the text cut off behind what has been written. -/
def jsonLoop (length : ℕ) : ℕ → Rewriting → Text × Bool
  | 0, st => (st.text, true)
  | n + 1, st =>
    if st.source < length then
      match jsonStep length st with
      | none => (st.text, false)
      | some st => jsonLoop length n st
    else (if st.dest < length then st.text.take st.dest else st.text, true)

/-- The text stands between escaped slashes. -/
def quotesExpr (text : Text) : Bool :=
  text.length ≥ 4 && text.getD 0 nul = '\\' && text.getD 1 nul = '/' &&
    text.getD (text.length - 2) nul = '\\' && text.getD (text.length - 1) nul = '/'

/-- `convert_escapes_json`: the text, `validStr` and `quotedExpr`. -/
def convertEscapesJson (text : Text) (quotedExpr : Bool) : Text × Bool × Bool :=
  if text.isEmpty then (text, true, quotedExpr)
  else
    let (converted, validStr) := jsonLoop text.length (text.length + 1) ⟨text, 0, 0⟩
    (converted, validStr, quotesExpr text)

/-! ## The pieces of a string -/

/-- A piece of a JSON string: a byte, an escape of one letter or the escape of a code point. -/
inductive JsonItem where
  | plain (c : Char)
  | short (c : Char)
  | unicode (d₁ d₂ d₃ d₄ : Char)
deriving DecidableEq, Repr

namespace JsonItem

def text : JsonItem → Text
  | plain c => [c]
  | short c => ['\\', c]
  | unicode d₁ d₂ d₃ d₄ => ['\\', 'u', d₁, d₂, d₃, d₄]

def number : JsonItem → Option ℕ
  | unicode d₁ d₂ d₃ d₄ => hexNumber [d₁, d₂, d₃, d₄]
  | _ => none

/-- An escape has one of the eight letters, or the digits of a code point other than zero and
surrogates. -/
def WellFormed : JsonItem → Prop
  | plain c => c ≠ '\\'
  | short c => c ∈ ['"', '\\', '/', 'b', 'f', 'n', 'r', 't']
  | unicode d₁ d₂ d₃ d₄ => ∃ n ∈ hexNumber [d₁, d₂, d₃, d₄], 0 < n ∧ (n < 0xd800 ∨ 0xe000 ≤ n)

instance : DecidablePred WellFormed
  | plain c => inferInstanceAs (Decidable (c ≠ '\\'))
  | short c => inferInstanceAs (Decidable (c ∈ _))
  | unicode d₁ d₂ d₃ d₄ =>
    match h : hexNumber [d₁, d₂, d₃, d₄] with
    | none => isFalse fun ⟨_, hn, _⟩ => by rw [h] at hn; cases hn
    | some n => decidable_of_iff (0 < n ∧ (n < 0xd800 ∨ 0xe000 ≤ n))
        ⟨fun hn => ⟨n, h, hn⟩, fun ⟨m, hm, hmn⟩ => by rw [h] at hm; cases hm; exact hmn⟩

def utf8 (c : Char) : Text := (String.utf8EncodeChar c).map fun b => Char.ofNat b.toNat

def denoted : JsonItem → Text
  | plain c => [c]
  | short c => match c with
    | 'b' => ['\x08']
    | 'f' => ['\x0c']
    | 'n' => ['\x0a']
    | 'r' => ['\x0d']
    | 't' => ['\x09']
    | c => [c]
  | unicode d₁ d₂ d₃ d₄ => utf8 (Char.ofNat ((hexNumber [d₁, d₂, d₃, d₄]).getD 0))

/-- What `convert_escapes_json` writes for the piece. -/
def written : JsonItem → Text
  | plain c => [c]
  | short c => [jsonEscape c]
  | unicode d₁ d₂ d₃ d₄ =>
    let number := (hexNumber [d₁, d₂, d₃, d₄]).getD 0
    if number ≥ 0x0080 then wideBytes number else [Char.ofNat number]

def Ascii (e : JsonItem) : Prop := ∀ n ∈ e.number, n < 0x80

instance (e : JsonItem) : Decidable e.Ascii :=
  match h : e.number with
  | none => isTrue fun _ hn => by rw [h] at hn; cases hn
  | some n => decidable_of_iff (n < 0x80)
      ⟨fun hn m hm => by rw [h] at hm; cases hm; exact hn, fun hn => hn n h⟩

end JsonItem

/-! ## The loop on well-formed strings -/

/-- A text with what has been written, what has been read since, and what is to be read. -/
def Rewriting.at (out gap rest : Text) : Rewriting :=
  ⟨out ++ (gap ++ rest), out.length + gap.length, out.length⟩

attribute [local simp] Rewriting.at

variable {out gap rest : Text} {c : Char} {n : ℕ} {es : List JsonItem}

theorem Rewriting.store_at {x ch : Char} (hone : gap = [] → x = ch) :
    (Rewriting.at out gap (x :: rest)).store ch = .at (out ++ [ch]) ((gap ++ [x]).tail) rest := by
  cases gap with
  | nil =>
    obtain rfl := hone rfl
    simp [store]
  | cons g gap =>
    simp [store]
    omega

theorem Rewriting.write_at {out gap rest bytes : Text} {source : ℕ}
    (hlen : bytes.length ≤ gap.length) (hsource : source + 1 = out.length + gap.length) :
    (⟨out ++ (gap ++ rest), source, out.length⟩ : Rewriting).write bytes =
      .at (out ++ bytes) (gap.drop bytes.length) rest := by
  induction bytes generalizing out gap with
  | nil => simp [write, hsource]
  | cons b bytes ih =>
    cases gap with
    | nil => simp at hlen
    | cons g gap =>
      have := @ih (out ++ [b]) gap (by simpa using hlen) (by simp at hsource ⊢; omega)
      simpa [write] using this

@[simp] theorem Rewriting.char_at :
    (Rewriting.at out gap (c :: rest)).char (Rewriting.at out gap (c :: rest)).source = c := by
  simp [Rewriting.char]

theorem Rewriting.skip_at (out gap skipped rest : Text) :
    { Rewriting.at out gap (skipped ++ rest) with
      source := (Rewriting.at out gap (skipped ++ rest)).source + skipped.length } =
        Rewriting.at out (gap ++ skipped) rest := by
  simp

theorem length_wideBytes (n : ℕ) : (wideBytes n).length ≤ 3 := by
  unfold wideBytes
  split_ifs <;> simp

theorem jsonEscaped_short (hc : c ≠ 'u') (hgap : gap ≠ []) (length : ℕ) :
    jsonEscaped length (.at out gap (c :: rest)) =
      some (.at (out ++ [jsonEscape c]) ((gap ++ [c]).tail) rest) := by
  rw [jsonEscaped, Rewriting.char_at]
  simp only [hc, if_false]
  rw [Rewriting.store_at fun h => absurd h hgap]

theorem jsonEscaped_unicode {d1 d2 d3 d4 : Char} (hn : hexNumber [d1, d2, d3, d4] = some n)
    (h0 : 0 < n) (hgap : gap ≠ []) {length : ℕ}
    (hlen : out.length + gap.length + 5 + rest.length = length) :
    ∃ gap', jsonEscaped length (.at out gap ('u' :: d1 :: d2 :: d3 :: d4 :: rest)) =
        some (.at (out ++ if n ≥ 0x80 then wideBytes n else [Char.ofNat n]) gap' rest) ∧
      gap'.length + (if n ≥ 0x80 then wideBytes n else [Char.ofNat n]).length = gap.length + 5 := by
  have hdigits : ((Rewriting.at out gap ('u' :: d1 :: d2 :: d3 :: d4 :: rest)).text.drop
      ((Rewriting.at out gap ('u' :: d1 :: d2 :: d3 :: d4 :: rest)).source + 1)).take 4 =
        [d1, d2, d3, d4] := by
    have htext : (Rewriting.at out gap ('u' :: d1 :: d2 :: d3 :: d4 :: rest)).text =
        (out ++ gap ++ ['u']) ++ d1 :: d2 :: d3 :: d4 :: rest := by simp
    have hsource : (Rewriting.at out gap ('u' :: d1 :: d2 :: d3 :: d4 :: rest)).source + 1 =
        (out ++ gap ++ ['u']).length := by simp
    rw [htext, hsource, List.drop_left]
    rfl
  rw [jsonEscaped, Rewriting.char_at]
  simp only [if_true, hdigits, hn, show ¬ n = 0 by omega, if_false]
  rw [if_neg (by simp only [Rewriting.at]; omega)]
  split_ifs
  · have hwritten := length_wideBytes n
    have hstate : { Rewriting.at out gap ('u' :: d1 :: d2 :: d3 :: d4 :: rest) with
        source := (Rewriting.at out gap ('u' :: d1 :: d2 :: d3 :: d4 :: rest)).source + 4 } =
        (⟨out ++ ((gap ++ ['u', d1, d2, d3, d4]) ++ rest), out.length + gap.length + 4,
          out.length⟩ :
          Rewriting) := by
      simp
    refine ⟨(gap ++ ['u', d1, d2, d3, d4]).drop (wideBytes n).length, ?_, ?_⟩
    · rw [hstate, Rewriting.write_at (hwritten.trans (by simp))]
      simp
    · simp only [List.length_drop, List.length_append, List.length_cons, List.length_nil]
      omega
  · refine ⟨(gap ++ ['u', d1, d2, d3] ++ [d4]).tail, congrArg some (Eq.trans ?_ (Rewriting.store_at
      fun h => absurd (List.append_eq_nil_iff.mp h).1 hgap)), by simp⟩
    exact congrArg (Rewriting.store · _) (Rewriting.skip_at out gap ['u', d1, d2, d3] (d4 :: rest))

/-- **One iteration** takes a piece and writes what the code has for it. -/
theorem jsonStep_item {e : JsonItem} (he : e.WellFormed) {length : ℕ}
    (hlen : out.length + gap.length + e.text.length + rest.length = length) :
    ∃ gap', jsonStep length (.at out gap (e.text ++ rest)) =
      some (.at (out ++ e.written) gap' rest) ∧
      gap'.length + e.written.length = gap.length + e.text.length := by
  have hslash : ∀ t, out.length + gap.length + 1 < length →
      jsonStep length (.at out gap ('\\' :: t)) =
      jsonEscaped length (.at out (gap ++ ['\\']) t) := by
    intro t ht
    rw [jsonStep, Rewriting.char_at, if_pos ⟨rfl, ht⟩]
    exact congrArg _ (Rewriting.skip_at out gap ['\\'] t)
  have hne : gap ++ ['\\'] ≠ [] := by simp
  cases e with
  | plain c =>
    refine ⟨(gap ++ [c]).tail, ?_, by simp [JsonItem.text, JsonItem.written]⟩
    have hc : c ≠ '\\' := he
    rw [JsonItem.text, List.singleton_append, jsonStep, Rewriting.char_at, if_neg fun h => hc h.1]
    exact congrArg some (Rewriting.store_at fun _ => rfl)
  | short c =>
    have hu : c ≠ 'u' := by
      rintro rfl
      exact absurd he (by decide)
    simp only [JsonItem.text, List.length_cons, List.length_nil] at hlen
    exact ⟨_, (hslash _ (by omega)).trans (jsonEscaped_short hu hne length),
      by simp [JsonItem.text, JsonItem.written]⟩
  | unicode d1 d2 d3 d4 =>
    obtain ⟨n, hn, h0, -⟩ := he
    simp only [JsonItem.text, List.length_cons, List.length_nil] at hlen
    have hwritten : (JsonItem.unicode d1 d2 d3 d4).written =
        if n ≥ 0x80 then wideBytes n else [Char.ofNat n] := by
      rw [JsonItem.written, hn]
      rfl
    obtain ⟨gap', h, hgap'⟩ := jsonEscaped_unicode hn h0 hne
      (show out.length + (gap ++ ['\\']).length + 5 + rest.length = length by
        rw [List.length_append, List.length_singleton]; omega)
    refine ⟨gap', (hslash _ (by omega)).trans (hwritten ▸ h), ?_⟩
    rw [hwritten, hgap', List.length_append]
    rfl

/-- **The loop** replaces each piece by what the code has for it. -/
theorem jsonLoop_items (hes : ∀ e ∈ es, e.WellFormed) {out gap : Text} {length n : ℕ}
    (hlen : out.length + gap.length + (es.flatMap JsonItem.text).length = length)
    (hn : es.length < n) :
    jsonLoop length n (.at out gap (es.flatMap JsonItem.text)) =
      (out ++ es.flatMap JsonItem.written, true) := by
  induction es generalizing out gap n with
  | nil =>
    obtain _ | n := n
    · omega
    simp only [List.flatMap_nil, List.length_nil, Nat.add_zero] at hlen
    simp only [jsonLoop, Rewriting.at, hlen, Nat.lt_irrefl, if_false, List.flatMap_nil,
      List.append_nil, List.take_left]
    split_ifs
    · rfl
    · have : gap = [] := List.eq_nil_of_length_eq_zero (by omega)
      rw [this, List.append_nil]
  | cons e es ih =>
    obtain ⟨he, hes⟩ := List.forall_mem_cons.mp hes
    obtain _ | n := n
    · omega
    rw [List.flatMap_cons, List.length_append] at hlen
    obtain ⟨gap', hstep, hgap'⟩ := jsonStep_item he (show out.length + gap.length + e.text.length +
      (es.flatMap JsonItem.text).length = length by omega)
    have hpos : 0 < e.text.length := by cases e <;> simp [JsonItem.text]
    rw [List.flatMap_cons, jsonLoop, if_pos (by simp only [Rewriting.at]; omega), hstep]
    simp only
    rw [ih hes (by rw [List.length_append]; omega) (by simpa using hn), List.flatMap_cons,
      List.append_assoc]

theorem length_le_text (es : List JsonItem) : es.length ≤ (es.flatMap JsonItem.text).length := by
  induction es with
  | nil => exact Nat.le_refl _
  | cons e es ih =>
    have hpos : 0 < e.text.length := by cases e <;> simp [JsonItem.text]
    rw [List.flatMap_cons, List.length_append, List.length_cons]
    omega

theorem convertEscapesJson_items (hes : ∀ e ∈ es, e.WellFormed) (q : Bool) :
    convertEscapesJson (es.flatMap JsonItem.text) q =
      (es.flatMap JsonItem.written, true, if es = [] then q
      else quotesExpr (es.flatMap JsonItem.text)) := by
  cases es with
  | nil => rfl
  | cons e es =>
    have hne : (e :: es).flatMap JsonItem.text ≠ [] := by cases e <;> simp [JsonItem.text]
    have hloop : jsonLoop ((e :: es).flatMap JsonItem.text).length
        (((e :: es).flatMap JsonItem.text).length + 1)
        ⟨(e :: es).flatMap JsonItem.text, 0, 0⟩ = ((e :: es).flatMap JsonItem.written, true) :=
      jsonLoop_items hes (show ([] : Text).length + ([] : Text).length + _ = _ by simp)
        (Nat.lt_succ_of_le (length_le_text _))
    rw [convertEscapesJson, if_neg (by simpa using hne)]
    simp only [hloop, reduceCtorEq, if_false]

/-! ## The code points -/

theorem hexValue_lt {v : ℕ} (h : hexValue c = some v) : v < 16 := by
  simp only [hexValue, Char.le_def, UInt32.le_iff_toNat_le] at h
  split_ifs at h with h1 h2 h3
  · cases h
    have h1' : c.toNat ≤ 57 := h1.2
    simp only [show '0'.toNat = 48 from rfl]
    omega
  · cases h
    have h2' : 97 ≤ c.toNat ∧ c.toNat ≤ 102 := h2
    simp only [show 'A'.toNat = 65 from rfl]
    omega
  · cases h
    have h3' : 65 ≤ c.toNat ∧ c.toNat ≤ 70 := h3
    simp only [show 'A'.toNat = 65 from rfl]
    omega

theorem hexNumber_lt {d1 d2 d3 d4 : Char} (h : hexNumber [d1, d2, d3, d4] = some n) :
    n < 65536 := by
  simp only [hexNumber, List.foldlM_cons, List.foldlM_nil, bind_eq_bind, bind_eq_some_iff,
    map_eq_some_iff, pure_def, some.injEq, Nat.shiftLeft_eq] at h
  obtain ⟨_, ⟨v1, h1, rfl⟩, _, ⟨v2, h2, rfl⟩, _, ⟨v3, h3, rfl⟩, _, ⟨v4, h4, rfl⟩, rfl⟩ := h
  have := hexValue_lt h1
  have := hexValue_lt h2
  have := hexValue_lt h3
  have := hexValue_lt h4
  omega

theorem utf8_ascii (h : n < 0x80) : JsonItem.utf8 (Char.ofNat n) = [Char.ofNat n] := by
  have hval : (Char.ofNat n).val.toNat = n := toNat_ofNat_lt (by omega)
  rw [JsonItem.utf8, String.utf8EncodeChar, hval, if_pos (by omega), List.map_singleton,
    UInt8.toNat_ofNat', Nat.mod_eq_of_lt (by omega)]

/-- A code point from `0x80` on begins with a byte from `0xc0` on in UTF-8. -/
theorem head_utf8 (hwide : 0x80 ≤ n) (hlt : n < 65536) (hscalar : n < 0xd800 ∨ 0xe000 ≤ n) :
    ∃ c bytes, JsonItem.utf8 (Char.ofNat n) = c :: bytes ∧ 0xc0 ≤ c.toNat := by
  have hval : (Char.ofNat n).val.toNat = n := by
    have hv : n.isValidChar := by
      rcases hscalar with h | h
      · exact .inl h
      · exact .inr ⟨by omega, by omega⟩
    rw [Char.ofNat, dif_pos hv]
    rfl
  rw [JsonItem.utf8, String.utf8EncodeChar, hval, if_neg (by omega)]
  split_ifs
  case neg => omega
  all_goals
    refine ⟨_, _, rfl, ?_⟩
    dsimp only
    rw [UInt8.toNat_ofNat', toNat_ofNat_lt (Nat.mod_lt _ (by decide))]
    omega

theorem head_wideBytes (hlt : n < 65536) : ∃ c bytes, wideBytes n = c :: bytes ∧
    c.toNat < 0x20 := by
  have hmask : ∀ k < 32, (0x11100000 ||| k) % 256 = k ∧ (0x11000000 ||| k) % 256 = k := by decide
  unfold wideBytes
  split_ifs
  · refine ⟨_, _, rfl, ?_⟩
    rw [lowByte, (hmask _ (by omega)).1, toNat_ofNat_lt (by omega)]
    omega
  · refine ⟨_, _, rfl, ?_⟩
    have hk : n >>> 6 < 32 := by rw [Nat.shiftRight_eq_div_pow]; omega
    rw [lowByte, (hmask _ hk).2, toNat_ofNat_lt (by omega)]
    omega

theorem jsonEscape_denoted (hc : (JsonItem.short c).WellFormed) :
    (JsonItem.short c).written = (JsonItem.short c).denoted := by
  have : ∀ c ∈ ['"', '\\', '/', 'b', 'f', 'n', 'r', 't'],
      (JsonItem.short c).written = (JsonItem.short c).denoted := by decide
  exact this c hc

namespace JsonItem

variable {e : JsonItem}

theorem written_of_ascii (he : e.WellFormed) (h : e.Ascii) : e.written = e.denoted := by
  cases e with
  | plain c => rfl
  | short c => exact jsonEscape_denoted he
  | unicode d1 d2 d3 d4 =>
    obtain ⟨n, hn, -, -⟩ := he
    have hlt : n < 0x80 := h n hn
    rw [written, denoted, mem_def.mp hn]
    simp [Nat.not_le.mpr hlt, utf8_ascii hlt]

/-- For another code point the code writes something else than its bytes in UTF-8. -/
theorem head_of_not_ascii (he : e.WellFormed) (h : ¬ e.Ascii) :
    ∃ a as b bs, e.written = a :: as ∧ e.denoted = b :: bs ∧ a ≠ b := by
  cases e with
  | plain c | short c => exact absurd (by simp [Ascii, number]) h
  | unicode d1 d2 d3 d4 =>
    obtain ⟨n, hn, -, hscalar⟩ := he
    have hn := mem_def.mp hn
    have hwide : 0x80 ≤ n := by
      refine Nat.le_of_not_lt fun hlt => h fun k hk => ?_
      obtain rfl := some.inj (hn.symm.trans hk)
      exact hlt
    obtain ⟨a, as, ha, hlow⟩ := head_wideBytes (hexNumber_lt hn)
    obtain ⟨b, bs, hb, hhigh⟩ := head_utf8 hwide (hexNumber_lt hn) hscalar
    refine ⟨a, as, b, bs, ?_, ?_, ?_⟩
    · simp [written, hn, hwide, ha]
    · simp [denoted, hn, hb]
    · rintro rfl
      omega

end JsonItem

/-- The code writes the bytes of UTF-8 for the whole string exactly if every escape is in ASCII. -/
theorem flatMap_written_iff (hes : ∀ e ∈ es, e.WellFormed) :
    es.flatMap JsonItem.written = es.flatMap JsonItem.denoted ↔ ∀ e ∈ es, e.Ascii := by
  induction es with
  | nil => simp
  | cons e es ih =>
    obtain ⟨he, hes⟩ := List.forall_mem_cons.mp hes
    rw [List.forall_mem_cons, ← ih hes, List.flatMap_cons]
    by_cases ha : e.Ascii
    · rw [JsonItem.written_of_ascii he ha]
      simp [ha]
    · obtain ⟨a, as, b, bs, hw, hd, hne⟩ := JsonItem.head_of_not_ascii he ha
      simp [hw, hd, hne, ha]

/-- **Escaped code points are decoded to UTF-8 exactly when they are ASCII.** Every well-formed
string is reported as valid. -/
theorem convertEscapesJson_iff {es : List JsonItem} (hes : ∀ e ∈ es, e.WellFormed) (q : Bool) :
    ((convertEscapesJson (es.flatMap JsonItem.text) q).2.1 = true ∧
      (convertEscapesJson (es.flatMap JsonItem.text) q).1 = es.flatMap JsonItem.denoted) ↔
      ∀ e ∈ es, e.Ascii := by
  rw [convertEscapesJson_items hes, ← flatMap_written_iff hes]
  simp

/-- A plain byte, an escape and two code points of ASCII. -/
theorem convertEscapesJson_iff_ascii :
    let es : List JsonItem :=
      [.plain 'a', .short 'n', .unicode '0' '0' '4' '1', .unicode '0' '0' '7' 'f']
    (convertEscapesJson (es.flatMap JsonItem.text) false).1 = ['a', '\n', 'A', '\x7f'] :=
  ((convertEscapesJson_iff (by decide) false).mpr (by decide)).2

/-- The string `\u00e9` becomes the bytes `03 01`, which are not `C3 A9`. -/
theorem convertEscapesJson_wide : (JsonItem.unicode '0' '0' 'e' '9').WellFormed ∧
      (JsonItem.unicode '0' '0' 'e' '9').denoted = ['\xc3', '\xa9'] ∧
      convertEscapesJson (JsonItem.unicode '0' '0' 'e' '9').text false =
      (['\x03', '\x01'], true, false) := by
  decide

end Condor.ClassAd
