import Condor.Lib.CText

/-!
# Map files

A map file is read into one list of entries for each method: a regular expression is an entry of
its own, and literal rows that follow each other share a hash table. A principal is mapped by the
first entry that matches it. The regular expressions are a parameter.

* **`getCanonicalization_firstMatch`**;
* **`calls_safe_iff`**.
-/

namespace Condor.Mapping

open List Option

/-! ## Rows -/

/-- `regex_opts`: `PCRE2_NOTEMPTY`, `PCRE2_CASELESS` and `PCRE2_UNGREEDY`. -/
structure RegexOpts where
  notEmpty : Bool := false
  caseless : Bool := false
  ungreedy : Bool := false
deriving DecidableEq, Repr

/-- `regex_opts == 0`. -/
def RegexOpts.isZero (o : RegexOpts) : Bool := !o.notEmpty && !o.caseless && !o.ungreedy

/-- White space, for `ParseField`. -/
def isBlank (c : Char) : Bool := c = ' ' || c = '\t' || c = '\n'

/-- A field between quotes or slashes: its text, and the rest of the line. A backslash at the end of
the line takes the terminator along, and there is no rest of the line behind it. -/
def parseQuoted (chEnd : Char) : Text → Text × Option Text
  | [] => ([], some [])
  | ['\\'] => if '\\' = chEnd then ([], some []) else ([nul], none)
  | '\\' :: d :: s =>
    if '\\' = chEnd then ([], some (d :: s))
    else
      let (field, rest) := parseQuoted chEnd s
      if d = chEnd then (d :: field, rest)
      else if d = '\\' then ('\\' :: field, rest)
      else ('\\' :: d :: field, rest)
  | c :: s =>
    if c = chEnd then ([], some s)
    else
      let (field, rest) := parseQuoted chEnd s
      (c :: field, rest)

def parseFlags : Text → RegexOpts → Text × RegexOpts
  | 'i' :: s, o => parseFlags s { o with caseless := true }
  | 'U' :: s, o => parseFlags s { o with ungreedy := true }
  | s, o => (s, o)

/-- `ParseField`: the field, the rest of the line and the options. There is no result when the
assertion on the offset fails; no options stand for a null `popts`. -/
def parseField (line : Option Text) (opts : Option RegexOpts) :
    Option (Text × Option Text × Option RegexOpts) := do
  let s := (← line).dropWhile isBlank
  match s, opts with
  | '"' :: s, opts =>
    let (field, rest) := parseQuoted '"' s
    some (field, rest, opts.map fun _ => {})
  | '/' :: s, some _ =>
    match parseQuoted '/' s with
    | (field, some rest) =>
      let (rest, o) := parseFlags rest { notEmpty := true }
      some (field, some rest, some o)
    | (field, none) => some (field, none, some { notEmpty := true })
  | s, opts => some (s.takeWhile fun c => !isBlank c, some (s.dropWhile fun c => !isBlank c), opts)

/-- A row of a map file; it is a literal one if there are no options. -/
structure MapRow where
  method : Text
  principal : Text
  opts : RegexOpts
  canonicalization : Text
deriving DecidableEq, Repr

/-- What `ParseCanonicalization` takes from a line, where files are not included. Lines without
three fields are left out. -/
def parseLine (assumeHash : Bool) (line : Text) : Option (Option MapRow) := do
  if line = [] then return none
  let (method, rest, _) ← parseField (some line) none
  if method = "@include".toList then return none
  if method = [] ∨ method.head? = some '#' then return none
  let opts : RegexOpts := { notEmpty := !assumeHash }
  let (principal, rest, popts) ← parseField rest (if assumeHash then some opts else none)
  let (canonicalization, _, _) ← parseField rest none
  if principal = [] ∨ canonicalization = [] then return none
  return some ⟨cstr method, cstr principal, popts.getD opts, cstr canonicalization⟩

def splitLines : Text → List Text
  | [] => []
  | c :: s =>
    if c = '\n' then [c] :: splitLines s
    else match splitLines s with
      | [] => [[c]]
      | l :: ls => (c :: l) :: ls

/-- The rows of a text in their order; there is no result when an assertion fails. -/
def rows (assumeHash : Bool) (text : Text) : Option (List MapRow) :=
  ((splitLines (cstr text)).mapM (parseLine assumeHash)).map fun rs => rs.filterMap id

/-! ## Entries -/

/-- The regular expressions: the groups of a match are reported, all of the match first. -/
structure Pcre where
  Code : Type
  compile : Text → RegexOpts → Option Code
  exec : Code → Text → Option (List Text)

variable (P : Pcre)

/-- `CanonicalMapEntry`. -/
inductive MapEntry where
  | regex (re : P.Code) (canonicalization : Text)
  | hash (hm : List (Text × Text))

/-- `MapFile`: the lists of the methods. -/
abbrev MapFile := List (Text × List (MapEntry P))

/-- `CanonicalMapHashEntry::add`. -/
def hashAdd (hm : List (Text × Text)) (name canon : Text) : List (Text × Text) :=
  if (hm.find? fun e => e.1 = name).isNone then hm ++ [(name, canon)] else hm

/-- `AddEntry`; a regular expression that does not compile is left out. -/
def addEntry (list : List (MapEntry P)) (row : MapRow) : List (MapEntry P) :=
  if !row.opts.isZero then
    match P.compile row.principal { row.opts with notEmpty := false } with
    | none => list
    | some re => list ++ [.regex re row.canonicalization]
  else match list.getLast? with
    | some (.hash hm) => list.dropLast ++ [.hash (hashAdd hm row.principal row.canonicalization)]
    | _ => list ++ [.hash (hashAdd [] row.principal row.canonicalization)]

/-- The list of a method, `GetMapList`, is changed. -/
def modifyList (method : Text) (f : List (MapEntry P) → List (MapEntry P)) : MapFile P → MapFile P
  | [] => [(method, f [])]
  | (key, list) :: m =>
    if caseEq key method then (key, f list) :: m else (key, list) :: modifyList method f m

def addRow (m : MapFile P) (row : MapRow) : MapFile P :=
  modifyList P row.method (fun list => addEntry P list row) m

/-- **`ParseCanonicalization`.** -/
def parseCanonicalization (assumeHash : Bool) (text : Text) : Option (MapFile P) :=
  (splitLines (cstr text)).foldlM (fun m line => do
    match ← parseLine assumeHash line with
    | none => some m
    | some row => some (addRow P m row)) []

/-! ## Look-up -/

/-- `CanonicalMapEntry::matches`: the groups and the canonicalization. A literal is looked up as a C
string. -/
def MapEntry.matches (principal : Text) : MapEntry P → Option (List Text × Text)
  | .regex re canonicalization => (P.exec re principal).map fun groups => (groups, canonicalization)
  | .hash hm => (hm.find? fun e => e.1 = cstr principal).map fun e => ([e.1], e.2)

def findMapping (list : List (MapEntry P)) (principal : Text) : Option (List Text × Text) :=
  list.findSome? (MapEntry.matches P principal)

/-- The text that a backslash and a character stand for. -/
def expand (groups : List Text) (c : Char) : Text :=
  if c.isDigit then (groups[c.toNat - '0'.toNat]?).getD ['\\', c] else ['\\', c]

/-- `PerformSubstitution`. There is no result when it goes on behind the end of the pattern, which
it does for a backslash at its end. -/
def performSubstitution (groups : List Text) : Text → Text → Option Text
  | [], output => some output
  | ['\\'], _ => none
  | '\\' :: c :: pattern, output =>
    performSubstitution groups pattern (output ++ expand groups c)
  | c :: pattern, output => performSubstitution groups pattern (output ++ [c])

/-- **`GetCanonicalization`**: the return value, and what has become of the output. -/
def getCanonicalization (m : MapFile P) (method principal canonicalization : Text) :
    Option (ℤ × Text) :=
  match m.find? fun e => caseEq e.1 (cstr method) with
  | none => some (-1, canonicalization)
  | some (_, list) =>
    match findMapping P list principal with
    | none => some (-1, canonicalization)
    | some (groups, pcanon) =>
      (performSubstitution groups pcanon canonicalization).map fun output => (0, output)

/-! ## What the rows mean -/

def MapRow.groups (row : MapRow) (principal : Text) : Option (List Text) :=
  if row.opts.isZero then if row.principal = principal then some [principal] else none
  else (P.compile row.principal { row.opts with notEmpty := false }).bind fun re =>
    P.exec re principal

/-- The first row of the method that matches: its groups and its canonicalization. -/
def firstMatch (rs : List MapRow) (method principal : Text) : Option (List Text × Text) :=
  rs.findSome? fun row =>
    if caseEq row.method method then
      (row.groups P principal).map fun groups => (groups, row.canonicalization)
    else none

/-- The canonicalization with its groups filled in; a backslash at its end stands for itself. -/
def substitute (groups : List Text) : Text → Text
  | [] => []
  | ['\\'] => ['\\']
  | '\\' :: c :: pattern => expand groups c ++ substitute groups pattern
  | c :: pattern => c :: substitute groups pattern

def expected (rs : List MapRow) (method principal canonicalization : Text) : ℤ × Text :=
  match firstMatch P rs method principal with
  | none => (-1, canonicalization)
  | some (groups, pcanon) => (0, canonicalization ++ substitute groups pcanon)

/-- There is a character behind every backslash that is not escaped itself. -/
def isComplete : Text → Bool
  | [] => true
  | ['\\'] => false
  | '\\' :: _ :: pattern => isComplete pattern
  | _ :: pattern => isComplete pattern

/-! ## Correctness -/

variable {P}

theorem hashAdd_find? (hm : List (Text × Text)) (name canon p : Text) :
    ((hashAdd hm name canon).find? fun e => e.1 = p) =
      (hm.find? fun e => e.1 = p).or (if name = p then some (name, canon) else none) := by
  unfold hashAdd
  split_ifs with hnone hp hp
  · rw [find?_append]
    simp [hp]
  · rw [find?_append]
    simp [hp]
  · subst hp
    cases hf : hm.find? fun e => e.1 = name with
    | none => simp [hf] at hnone
    | some e => rfl
  · simp

variable {principal : Text}

/-- **A row is added behind the others.** -/
theorem findMapping_addEntry (list : List (MapEntry P)) (row : MapRow) (hp : nul ∉ principal) :
    findMapping P (addEntry P list row) principal = (findMapping P list principal).or
        ((row.groups P principal).map fun groups => (groups, row.canonicalization)) := by
  have hliteral : ∀ hm,
      MapEntry.matches P principal (.hash (hashAdd hm row.principal row.canonicalization)) =
        (MapEntry.matches P principal (.hash hm)).or (if row.principal = principal then
          some ([principal], row.canonicalization) else none) := by
    intro hm
    simp only [MapEntry.matches, cstr_eq hp, hashAdd_find?]
    cases hm.find? fun e => e.1 = principal with
    | some e => rfl
    | none =>
      split_ifs with h
      · simp [h]
      · rfl
  unfold addEntry MapRow.groups
  cases hz : row.opts.isZero with
  | false =>
    cases P.compile row.principal { row.opts with notEmpty := false } with
    | none => simp
    | some re => simp [findMapping, MapEntry.matches]
  | true =>
    simp only [Bool.not_true, Bool.false_eq_true, if_false]
    have hnew : findMapping P (list ++ [.hash (hashAdd [] row.principal row.canonicalization)])
        principal = (findMapping P list principal).or
          ((if row.principal = principal then some [principal] else none).map
            fun groups => (groups, row.canonicalization)) := by
      simp only [findMapping, List.findSome?_append, List.findSome?_singleton, hliteral]
      split_ifs <;> simp [MapEntry.matches]
    rcases List.eq_nil_or_concat list with rfl | ⟨init, last, rfl⟩
    · exact hnew
    · rw [List.concat_eq_append] at ⊢
      cases last with
      | regex re canonicalization => simpa using hnew
      | hash hm =>
        simp only [List.getLast?_append, List.getLast?_singleton, Option.some_or,
          List.dropLast_concat]
        simp only [findMapping, List.findSome?_append, List.findSome?_singleton, hliteral,
          Option.or_assoc]
        split_ifs <;> rfl

def entries (m : MapFile P) (method : Text) : List (MapEntry P) :=
  ((m.find? fun e => caseEq e.1 method).map Prod.snd).getD []

theorem entries_modifyList (m : MapFile P) (a b : Text)
    (f : List (MapEntry P) → List (MapEntry P)) :
    entries (modifyList P a f m) b = if caseEq a b then f (entries m b) else entries m b := by
  induction m with
  | nil =>
    simp only [modifyList, entries]
    cases hab : caseEq a b <;> simp [hab]
  | cons e m ih =>
    obtain ⟨key, list⟩ := e
    -- the comparison is an equivalence
    have htrans : caseEq key a = true → caseEq key b = caseEq a b := by
      intro h
      simp only [caseEq, decide_eq_true_eq] at h
      simp [caseEq, h]
    simp only [modifyList]
    cases hka : caseEq key a with
    | true =>
      have hkb := htrans hka
      cases hab : caseEq a b with
      | true | false => simp [entries, hkb, hab]
    | false =>
      cases hkb : caseEq key b with
      | true =>
        have hab : caseEq a b = false := by
          cases hab : caseEq a b with
          | false => rfl
          | true =>
            simp only [caseEq, decide_eq_true_eq, decide_eq_false_iff_not] at hka hkb hab
            exact absurd (hkb.trans hab.symm) hka
        simp [entries, hkb, hab]
      | false =>
        have hrest : ∀ m' : MapFile P, entries ((key, list) :: m') b = entries m' b := by
          simp [entries, hkb]
        simpa only [hrest, Bool.false_eq_true, if_false] using ih

/-- **The entries of a method** map a principal as the rows do. -/
theorem findMapping_entries (rs : List MapRow) (method : Text) (hp : nul ∉ principal)
    (m : MapFile P) :
    findMapping P (entries (rs.foldl (addRow P) m) method) principal =
      (findMapping P (entries m method) principal).or (firstMatch P rs method principal) := by
  induction rs generalizing m with
  | nil => simp [firstMatch]
  | cons row rs ih =>
    rw [List.foldl_cons, ih, addRow, entries_modifyList]
    simp only [firstMatch, List.findSome?_cons]
    cases hmethod : caseEq row.method method with
    | false => simp
    | true =>
      simp only [if_true, findMapping_addEntry _ row hp]
      cases row.groups P principal <;> simp

theorem parseCanonicalization_rows {assumeHash : Bool} {text : Text} {rs : List MapRow}
    (hrs : rows assumeHash text = some rs) :
    parseCanonicalization P assumeHash text = some (rs.foldl (addRow P) []) := by
  obtain ⟨os, hos, rfl⟩ := Option.map_eq_some_iff.mp hrs
  clear hrs
  unfold parseCanonicalization
  generalize splitLines (cstr text) = ls at hos
  generalize ([] : MapFile P) = m
  induction ls generalizing os m with
  | nil =>
    cases hos
    rfl
  | cons l ls ih =>
    simp only [List.mapM_cons, Option.bind_eq_bind, Option.pure_def, Option.bind_eq_some_iff,
      Option.some.injEq] at hos
    obtain ⟨o, ho, os', hos', rfl⟩ := hos
    simp only [List.foldlM_cons, ho]
    cases o with
    | none => simpa using ih os' hos' m
    | some row => simpa using ih os' hos' (addRow P m row)

theorem getCanonicalization_eq (m : MapFile P) {method principal canonicalization : Text}
    (hm : nul ∉ method) : getCanonicalization P m method principal canonicalization =
      match findMapping P (entries m method) principal with
      | none => some (-1, canonicalization)
      | some (groups, pcanon) =>
        (performSubstitution groups pcanon canonicalization).map fun output => (0, output) := by
  rw [getCanonicalization, entries, cstr_eq hm]
  cases m.find? fun e => caseEq e.1 method <;> rfl

/-! ## Substitution -/

theorem performSubstitution_complete (groups : List Text) (pattern output : Text) :
    performSubstitution groups pattern output =
      if isComplete pattern then some (output ++ substitute groups pattern) else none := by
  fun_induction performSubstitution groups pattern output with
  | case1 output => simp [isComplete, substitute]
  | case2 output => simp [isComplete]
  | case3 _ _ _ ih | case4 _ _ _ _ _ ih =>
    rw [ih]
    simp [isComplete, substitute]

/-- **A map file means its first matching row.** -/
theorem getCanonicalization_firstMatch {assumeHash : Bool} {text : Text} {rs : List MapRow}
    (hrs : rows assumeHash text = some rs) {method principal : Text} (hm : nul ∉ method)
    (hp : nul ∉ principal) : ∃ m, parseCanonicalization P assumeHash text = some m ∧
      ∀ canonicalization, getCanonicalization P m method principal canonicalization =
          some (expected P rs method principal canonicalization) ↔
        ∀ groups pcanon, firstMatch P rs method principal = some (groups, pcanon) →
          isComplete pcanon = true := by
  refine ⟨_, parseCanonicalization_rows hrs, fun canonicalization => ?_⟩
  have hfind := findMapping_entries rs method hp ([] : MapFile P)
  rw [show findMapping P (entries [] method) principal = none from rfl] at hfind
  rw [getCanonicalization_eq _ hm, hfind, expected]
  cases firstMatch P rs method principal with
  | none => simp
  | some found =>
    obtain ⟨groups, pcanon⟩ := found
    simp only [performSubstitution_complete]
    cases hc : isComplete pcanon <;> simp [hc]

def literalOnly : Pcre where
  Code := Empty
  compile _ _ := none
  exec := nofun

def aliceText : Text := "SSL alice \\0@pool\nssl alice bob\n".toList

theorem getCanonicalization_firstMatch_alice : ∃ rs m, rows true aliceText = some rs ∧
    parseCanonicalization literalOnly true aliceText = some m ∧
    getCanonicalization literalOnly m "ssl".toList "alice".toList [] =
      some (expected literalOnly rs "ssl".toList "alice".toList []) ∧
    expected literalOnly rs "ssl".toList "alice".toList [] = (0, "alice@pool".toList) := by
  have hrs : rows true aliceText = some _ := rfl
  obtain ⟨m, hm, hget⟩ := getCanonicalization_firstMatch hrs
    (by decide : nul ∉ "ssl".toList) (by decide : nul ∉ "alice".toList)
  refine ⟨_, m, hrs, hm, (hget []).mpr ?_, rfl⟩
  rintro groups pcanon ⟨⟩
  rfl

def openText : Text := "SSL alice bob\\\n".toList

/-- `PerformSubstitution` goes on behind the end of the canonicalization; and a name with a
terminator is looked up as the text in front of it. -/
theorem getCanonicalization_open : (∃ rs m, rows true openText = some rs ∧
      parseCanonicalization literalOnly true openText = some m ∧
      firstMatch literalOnly rs "SSL".toList "alice".toList =
      some (["alice".toList], "bob\\".toList) ∧
      getCanonicalization literalOnly m "SSL".toList "alice".toList [] = none) ∧
    ∃ rs m, rows true aliceText = some rs ∧
      parseCanonicalization literalOnly true aliceText = some m ∧
      firstMatch literalOnly rs "SSL".toList ("alice".toList ++ nul :: "x".toList) = none ∧
      getCanonicalization literalOnly m "SSL".toList ("alice".toList ++ nul :: "x".toList) [] =
        some (0, "alice@pool".toList) :=
  ⟨⟨_, _, rfl, rfl, rfl, rfl⟩, _, _, rfl, rfl, rfl, rfl⟩

/-! ## Lines -/

section

/-- The options for the principal. -/
def principalOpts (assumeHash isPrefix : Bool) : Option RegexOpts :=
  if assumeHash && !isPrefix then some {} else none

/-- What `ParseCanonicalization` gives to `ParseField`: the line from the offset on, and the
options. -/
def calls (assumeHash isPrefix : Bool) (line : Text) : List (Option Text × Option RegexOpts) :=
  if line = [] then []
  else
    (some line, none) :: match parseField (some line) none with
      | none => []
      | some (method, rest, _) =>
        if method = "@include".toList then [(rest, none)]
        else if method = [] ∨ method.head? = some '#' then []
        else
          let opts := principalOpts assumeHash isPrefix
          (rest, opts) :: match parseField rest opts with
            | none => []
            | some (_, rest, _) => [(rest, none)]

/-- The call starts in the line, and what it reads has only the NULs that are there. -/
def Safe (c : Option Text × Option RegexOpts) : Prop :=
  ∃ s field rest opts, c.1 = some s ∧ parseField (some s) c.2 = some (field, rest, opts) ∧
    field.count nul ≤ s.count nul

/-- The text between the delimiters ends with the line, in the middle of an escape. -/
def endsInEscape (chEnd : Char) : Text → Bool
  | [] => false
  | ['\\'] => true
  | '\\' :: _ :: s => endsInEscape chEnd s
  | c :: s => c ≠ chEnd && endsInEscape chEnd s

def fieldEndsInEscape (opts : Option RegexOpts) (s : Text) : Bool :=
  match s.dropWhile isBlank, opts with
  | '"' :: s, _ => endsInEscape '"' s
  | '/' :: s, some _ => endsInEscape '/' s
  | _, _ => false

theorem parseQuoted_spec (chEnd : Char) (hend : chEnd ≠ '\\') (hnul : chEnd ≠ nul) (s : Text) :
    ((parseQuoted chEnd s).2 = none ↔ endsInEscape chEnd s = true) ∧
      (parseQuoted chEnd s).1.count nul + ((parseQuoted chEnd s).2.getD []).count nul =
        s.count nul + (endsInEscape chEnd s).toNat := by
  have hb : ('\\' == nul) = false := by decide
  fun_induction endsInEscape chEnd s with
  | case1 => simp [parseQuoted]
  | case2 => simp [parseQuoted, hend.symm, count_cons, hb]
  | case3 d s ih =>
    simp only [parseQuoted, if_neg hend.symm]
    refine ⟨by split_ifs <;> exact ih.1, ?_⟩
    split_ifs with h1 h2
    · simp only [count_cons, hb, Bool.false_eq_true, if_false]
      omega
    · simp only [h2, count_cons, hb, Bool.false_eq_true, if_false]
      omega
    · simp only [count_cons]
      omega
  | case4 c s h1 h2 ih =>
    rw [parseQuoted]
    · split_ifs with hc
      · subst hc
        simp [hnul]
      · simp [count_cons, hc, ih.1]
        omega
    · simpa using h1
    · simpa using h2

theorem parseQuoted_count_le (chEnd : Char) (hend : chEnd ≠ '\\') (hnul : chEnd ≠ nul) (s : Text) :
    (parseQuoted chEnd s).1.count nul ≤ s.count nul ↔ endsInEscape chEnd s = false := by
  obtain ⟨hrest, hcount⟩ := parseQuoted_spec chEnd hend hnul s
  cases hesc : endsInEscape chEnd s with
  | false => simp [hesc] at hcount ⊢; omega
  | true => simp [hesc, hrest.mpr hesc] at hcount ⊢; omega

theorem count_dropWhile (s : Text) : (s.dropWhile isBlank).count nul = s.count nul := by
  have h : (s.takeWhile isBlank).count nul = 0 := count_eq_zero.mpr fun h =>
    absurd (mem_takeWhile_imp h) (by decide)
  conv_rhs => rw [← takeWhile_append_dropWhile (l := s), count_append, h, Nat.zero_add]

theorem parseField_spec (opts : Option RegexOpts) (s : Text) : ∃ field rest opts',
    parseField (some s) opts = some (field, rest, opts') ∧
      (rest = none ↔ fieldEndsInEscape opts s = true) ∧
      (field.count nul ≤ s.count nul ↔ fieldEndsInEscape opts s = false) := by
  have hnul := count_dropWhile s
  unfold parseField
  simp only [Option.bind_eq_bind, Option.bind_some]
  generalize ht : s.dropWhile isBlank = t at hnul
  split
  · rename_i u
    unfold fieldEndsInEscape
    rw [← hnul, ht]
    exact ⟨_, _, _, rfl, (parseQuoted_spec '"' (by decide) (by decide) u).1,
      parseQuoted_count_le '"' (by decide) (by decide) u⟩
  · rename_i u o
    have hle := parseQuoted_count_le '/' (by decide) (by decide) u
    have hrest := (parseQuoted_spec '/' (by decide) (by decide) u).1
    unfold fieldEndsInEscape
    rw [← hnul, ht]
    cases hq : parseQuoted '/' u with
    | mk field rest =>
      rw [hq] at hle hrest
      cases rest <;> exact ⟨_, _, _, rfl, by simpa using hrest, hle⟩
  · have hesc : fieldEndsInEscape opts s = false := by
      unfold fieldEndsInEscape
      rw [ht]
      split <;> simp_all
    have hle := (takeWhile_sublist (l := t) fun c => !isBlank c).count_le nul
    exact ⟨_, _, _, rfl, by simp [hesc], by simp [hesc, ← hnul, hle]⟩

theorem safe_iff (opts : Option RegexOpts) (s : Text) :
    Safe (some s, opts) ↔ fieldEndsInEscape opts s = false := by
  obtain ⟨field, rest, opts', hrun, -, hcount⟩ := parseField_spec opts s
  rw [← hcount]
  constructor
  · rintro ⟨_, _, _, _, ⟨⟩, h, hle⟩
    cases hrun.symm.trans h
    exact hle
  · exact fun h => ⟨s, field, rest, opts', rfl, hrun, h⟩

/-- A field that does not end in an escape leaves a rest of the line. -/
theorem parseField_rest {opts : Option RegexOpts} {s : Text}
    (h : fieldEndsInEscape opts s = false) :
    ∃ field rest opts', parseField (some s) opts = some (field, some rest, opts') := by
  obtain ⟨field, rest, opts', hrun, hrest, -⟩ := parseField_spec opts s
  cases rest with
  | some rest => exact ⟨field, rest, opts', hrun⟩
  | none => exact absurd (hrest.mp rfl) (by simp [h])

/-- **The calls are safe** exactly if none of them is given a field that ends in an escape. -/
theorem calls_safe_iff (assumeHash isPrefix : Bool) (line : Text) :
    (∀ c ∈ calls assumeHash isPrefix line, Safe c) ↔
      ∀ c ∈ calls assumeHash isPrefix line, ∀ s ∈ c.1, fieldEndsInEscape c.2 s = false := by
  constructor
  · intro h c hc s hs
    have := h c hc
    rwa [show c = (some s, c.2) from Prod.ext hs rfl, safe_iff] at this
  · intro h
    unfold calls at h ⊢
    split_ifs at h ⊢
    · simp
    rw [forall_mem_cons] at h ⊢
    have h1 := h.1 line rfl
    obtain ⟨method, rest, _, hrun⟩ := parseField_rest h1
    rw [hrun] at h ⊢
    refine ⟨(safe_iff ..).mpr h1, ?_⟩
    replace h := h.2
    dsimp only at h ⊢
    split_ifs at h ⊢
    · simpa [safe_iff] using h
    · simp
    · generalize principalOpts assumeHash isPrefix = opts at h
      rw [forall_mem_cons] at h ⊢
      have h2 := h.1 rest rfl
      obtain ⟨principal, rest, _, hrun⟩ := parseField_rest h2
      rw [hrun] at h ⊢
      refine ⟨(safe_iff ..).mpr h2, ?_⟩
      simpa [safe_iff] using h.2

/-- The offset behind the method is behind the terminator. -/
theorem calls_not_safe : ¬ ∀ c ∈ calls true false "\"m\\".toList, Safe c := fun h => by
  obtain ⟨s, _, _, _, hs, -⟩ := h (none, some {}) (by decide)
  cases hs

end

end Condor.Mapping
