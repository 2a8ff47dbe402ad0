import Condor.Lib.CText

/-!
# Wildcards — the model of `matches_withwildcard_impl`

A pattern is cut at its first asterisk, and an asterisk at its end is taken off. The text in front
has to start the string, and the text behind has to occur in the rest of it; whether it occurs at
the end of the string is tested at the terminator, and so not at all.

* **`matchesWithWildcardImpl_eq_iff`**.
-/

namespace Condor.Wildcards

open List

variable (pattern str : Text) (anycase front : Bool)

/-! ## The test -/

/-- How strings are compared: as they are, or without regard to case. -/
def folded (anycase : Bool) (s : Text) : Text := if anycase then caseFold s else s

/-- `strncmp(start, str, strlen(start)) == MATCH`, or `strncasecmp`. -/
def startsWith (anycase : Bool) (start str : Text) : Bool :=
  (folded anycase start).isPrefixOf (folded anycase str)

/-- `strstr`, or `strcasestr`: the string from the first occurrence on. -/
def strstr (anycase : Bool) (needle : Text) : Text → Option Text
  | [] => if startsWith anycase needle [] then some [] else none
  | c :: s => if startsWith anycase needle (c :: s) then some (c :: s) else strstr anycase needle s

def charAt (s : Text) (i : ℕ) : Char := s.getD i nul

/-- The last asterisk of the text behind the first one, which stands for a prefix. -/
def cutEnd (matchend : Text) (front : Bool) : Text × Bool :=
  if matchend.getLast? = some '*' then (matchend.dropLast, true) else (matchend, front)

def matchPieces (matchstart matchend str : Text) : Bool :=
  if startsWith anycase matchstart str then
    if matchend = [] then true
    else
      match strstr anycase matchend (str.drop (min matchstart.length str.length)) with
      | none => false
      | some pos => !(!front && charAt pos pos.length ≠ nul)
  else false

/-- `matches_withwildcard_impl`; the parameter `front` is `prefix`. -/
def matchesWithWildcardImpl : Bool :=
  match pattern.dropWhile (· ≠ '*') with
  | [] =>
    if front then startsWith anycase pattern str else folded anycase pattern = folded anycase str
  | _ :: after =>
    let before := pattern.takeWhile (· ≠ '*')
    if before = [] then
      let (matchend, front) := cutEnd after front
      matchPieces anycase front [] matchend str
    else if after = [] then matchPieces anycase true before [] str
    else
      let (matchend, front) := cutEnd after front
      matchPieces anycase front before matchend str

def matchesWithWildcard : Bool := matchesWithWildcardImpl pattern str false false

def matchesAnycaseWithWildcard : Bool := matchesWithWildcardImpl pattern str true false

/-- `matches_prefix_withwildcard`. -/
def matchesFrontWithWildcard : Bool := matchesWithWildcardImpl pattern str false true

/-- `matches_prefix_anycase_withwildcard`. -/
def matchesFrontAnycaseWithWildcard : Bool :=
  matchesWithWildcardImpl pattern str true true

def containsAnycaseWithWildcard (list : List Text) (str : Text) : Bool :=
  list.any fun item => matchesWithWildcardImpl item str true false

/-! ## Meaning -/

/-- A string that is obtained from a pattern by replacing each asterisk. -/
inductive Expands : Text → Text → Prop
  | nil : Expands [] []
  | char {c p s} : c ≠ '*' → Expands p s → Expands (c :: p) (c :: s)
  | star {p s} (w : Text) : Expands p s → Expands ('*' :: p) (w ++ s)

/-- A pattern matches a string, or some first part of it. -/
def Matches (pattern str : Text) : Prop :=
  ∃ s, (if front then s <+: str else s = str) ∧
    ∃ t, Expands pattern t ∧ folded anycase t = folded anycase s

/-- A pattern with one asterisk, and maybe another one at the very end. -/
def starred (a b : Text) (ending : Bool) : Text := a ++ '*' :: (b ++ if ending then ['*'] else [])

section Expansions

variable {a b p t : Text}

theorem expands_append (ha : '*' ∉ a) : Expands (a ++ p) t ↔ ∃ s, t = a ++ s ∧ Expands p s := by
  induction a generalizing t with
  | nil => simp
  | cons c a ih =>
    rw [mem_cons, not_or] at ha
    constructor
    · intro h
      cases h with
      | char hc h =>
        obtain ⟨s, rfl, hs⟩ := (ih ha.2).mp h
        exact ⟨s, rfl, hs⟩
      | star w h => exact absurd rfl ha.1
    · rintro ⟨s, rfl, hs⟩
      exact .char (Ne.symm ha.1) ((ih ha.2).mpr ⟨s, rfl, hs⟩)

theorem expands_star : Expands ('*' :: p) t ↔ ∃ w s, t = w ++ s ∧ Expands p s := by
  constructor
  · intro h
    cases h with
    | char hc h => exact absurd rfl hc
    | star w h => exact ⟨w, _, rfl, h⟩
  · rintro ⟨w, s, rfl, hs⟩
    exact .star w hs

theorem expands_nil : Expands [] t ↔ t = [] := by
  constructor
  · intro h
    cases h
    rfl
  · rintro rfl
    exact .nil

theorem expands_starred (ha : '*' ∉ a) (hb : '*' ∉ b) (ending : Bool) :
    Expands (starred a b ending) t ↔
      ∃ x y, t = a ++ (x ++ (b ++ y)) ∧ (ending = false → y = []) := by
  have hend : ∀ {s : Text}, Expands (if ending then ['*'] else []) s ↔
      (ending = false → s = []) := by
    intro s
    cases ending with
    | true => simpa using expands_star.mpr ⟨s, [], (append_nil s).symm, .nil⟩
    | false => simpa using expands_nil
  rw [starred, expands_append ha]
  constructor
  · rintro ⟨s, rfl, hs⟩
    obtain ⟨x, s', rfl, hs'⟩ := expands_star.mp hs
    obtain ⟨y, rfl, hy⟩ := (expands_append hb).mp hs'
    exact ⟨x, y, rfl, hend.mp hy⟩
  · rintro ⟨x, y, rfl, hy⟩
    exact ⟨_, rfl, expands_star.mpr ⟨x, _, rfl, (expands_append hb).mpr ⟨y, rfl, hend.mpr hy⟩⟩⟩

end Expansions

/-! ## Folding -/

variable {a b s : Text}

theorem folded_nil : folded anycase [] = [] := by
  cases anycase <;> rfl

theorem folded_append (s t : Text) :
    folded anycase (s ++ t) = folded anycase s ++ folded anycase t := by
  cases anycase
  · rfl
  · exact map_append

theorem length_folded (s : Text) : (folded anycase s).length = s.length := by
  cases anycase
  · rfl
  · exact length_map _

theorem folded_drop (n : ℕ) : folded anycase (s.drop n) = (folded anycase s).drop n := by
  cases anycase
  · rfl
  · exact map_drop

theorem folded_eq_append {u v : Text} (h : folded anycase s = u ++ v) :
    ∃ s1 s2, s = s1 ++ s2 ∧ folded anycase s1 = u ∧ folded anycase s2 = v := by
  cases anycase
  · exact ⟨u, v, h, rfl, rfl⟩
  · exact map_eq_append_iff.mp h

theorem startsWith_iff : startsWith anycase a s = true ↔ folded anycase a <+: folded anycase s :=
  isPrefixOf_iff_prefix

/-- **What is looked for is found if and only if it occurs.** -/
theorem strstr_isSome : (strstr anycase b s).isSome = true ↔
    folded anycase b <:+: folded anycase s := by
  induction s with
  | nil =>
    rw [strstr]
    split
    · next h => exact iff_of_true rfl ((startsWith_iff anycase).mp h).isInfix
    · next h =>
      refine iff_of_false nofun fun hin => h ((startsWith_iff anycase).mpr ?_)
      rw [folded_nil] at hin ⊢
      rw [infix_nil.mp hin]
  | cons c s ih =>
    have hcons : folded anycase (c :: s) = folded anycase [c] ++ folded anycase s :=
      folded_append anycase [c] s
    obtain ⟨d, hd⟩ := length_eq_one_iff.mp (length_folded anycase [c])
    rw [hd, singleton_append] at hcons
    rw [strstr]
    split
    · next h => exact iff_of_true rfl ((startsWith_iff anycase).mp h).isInfix
    · next h =>
      rw [startsWith_iff] at h
      rw [ih, hcons, infix_cons_iff, ← hcons]
      exact ⟨.inr, fun hor => hor.resolve_left h⟩

/-! ## The strings that are accepted -/

/-- The pieces of a pattern, one behind the other. -/
def Occurs (a b s : Text) (x y : Text) : Prop :=
  folded anycase s = folded anycase a ++ (x ++ (folded anycase b ++ y))

theorem charAt_length : charAt s s.length = nul := by
  simp [charAt]

theorem matchPieces_iff (front : Bool) :
    matchPieces anycase front a b s = true ↔ ∃ x y, Occurs anycase a b s x y := by
  rw [matchPieces]
  split
  · next hstart =>
    obtain ⟨rest, hrest⟩ := (startsWith_iff anycase).mp hstart
    have hlen : a.length ≤ s.length := by
      rw [← length_folded anycase a, ← length_folded anycase s, ← hrest, length_append]
      omega
    have hdrop : folded anycase (s.drop (min a.length s.length)) = rest := by
      rw [Nat.min_eq_left hlen, folded_drop, ← hrest, ← length_folded anycase a, drop_left]
    have hoccurs : (∃ x y, Occurs anycase a b s x y) ↔ folded anycase b <:+: rest := by
      constructor
      · rintro ⟨x, y, hxy⟩
        rw [Occurs, ← hrest] at hxy
        exact ⟨x, y, by rw [append_cancel_left hxy, append_assoc]⟩
      · rintro ⟨x, y, rfl⟩
        exact ⟨x, y, by rw [Occurs, ← hrest, append_assoc]⟩
    rw [hoccurs]
    split
    · next hb =>
      subst hb
      rw [folded_nil]
      exact iff_of_true rfl nil_infix
    · rw [← hdrop, ← strstr_isSome]
      cases strstr anycase b (s.drop (min a.length s.length)) with
      | none => rfl
      | some pos => simp [charAt_length]
  · next hstart =>
    refine iff_of_false nofun ?_
    rintro ⟨x, y, hxy⟩
    exact hstart ((startsWith_iff anycase).mpr ⟨_, hxy.symm⟩)

theorem cutEnd_starred (hb : '*' ∉ b) (ending front : Bool) :
    cutEnd (b ++ if ending then ['*'] else []) front = (b, ending || front) := by
  cases ending with
  | true => simp [cutEnd]
  | false =>
    have hlast : b.getLast? ≠ some '*' := fun h => hb (mem_of_getLast? h)
    simp [cutEnd, hlast]

/-- **A string is accepted if the pieces of the pattern occur in it, at the end of the string or
not.** -/
theorem matchesWithWildcardImpl_iff (ha : '*' ∉ a) (hb : '*' ∉ b) (front ending : Bool) :
    matchesWithWildcardImpl (starred a b ending) s anycase front = true ↔
      ∃ x y, Occurs anycase a b s x y := by
  have hstop : ∀ c ∈ a, decide (c ≠ '*') = true := fun c hc => decide_eq_true fun h => ha (h ▸ hc)
  have hbefore : (starred a b ending).takeWhile (· ≠ '*') = a := by
    rw [starred, takeWhile_append_of_pos hstop, takeWhile_cons_of_neg (by simp), append_nil]
  have hafter : (starred a b ending).dropWhile (· ≠ '*') =
      '*' :: (b ++ if ending then ['*'] else []) := by
    rw [starred, dropWhile_append_of_pos hstop, dropWhile_cons_of_neg (by simp)]
  rw [matchesWithWildcardImpl, hafter]
  dsimp only
  rw [hbefore, cutEnd_starred hb]
  by_cases hnil : a = []
  · rw [hnil]
    exact matchPieces_iff anycase _
  · rw [if_neg hnil]
    by_cases hend : b ++ (if ending then ['*'] else []) = []
    · rw [if_pos hend, (append_eq_nil_iff.mp hend).1]
      exact matchPieces_iff anycase _
    · rw [if_neg hend]
      exact matchPieces_iff anycase _

/-- The strings that a pattern with one or two asterisks matches. -/
theorem matches_iff (ha : '*' ∉ a) (hb : '*' ∉ b) (front ending : Bool) :
    Matches anycase front (starred a b ending) s ↔
      ∃ x y, Occurs anycase a b s x y ∧ (ending = false → front = false → y = []) := by
  constructor
  · rintro ⟨u, hu, t, ht, hfold⟩
    obtain ⟨x, y, rfl, hy⟩ := (expands_starred ha hb ending).mp ht
    simp only [folded_append] at hfold
    cases front with
    | false =>
      obtain rfl : u = s := hu
      refine ⟨_, _, hfold.symm, fun hend _ => ?_⟩
      rw [hy hend]
      cases anycase <;> rfl
    | true =>
      obtain ⟨v, rfl⟩ : u <+: s := hu
      refine ⟨folded anycase x, folded anycase y ++ folded anycase v, ?_, nofun⟩
      rw [Occurs, folded_append, ← hfold]
      simp
  · rintro ⟨x, y, hxy, hy⟩
    obtain ⟨s1, s', rfl, h1, h'⟩ := folded_eq_append anycase hxy
    obtain ⟨s2, s', rfl, -, h'⟩ := folded_eq_append anycase h'
    obtain ⟨s3, s4, rfl, h3, h4⟩ := folded_eq_append anycase h'
    have hmatch : ∀ z, (ending = false → z = []) →
        (if front then s1 ++ (s2 ++ (s3 ++ z)) <+: s1 ++ (s2 ++ (s3 ++ s4)) else
          s1 ++ (s2 ++ (s3 ++ z)) = s1 ++ (s2 ++ (s3 ++ s4))) →
        Matches anycase front (starred a b ending) (s1 ++ (s2 ++ (s3 ++ s4))) := by
      intro z hz hfront
      refine ⟨_, hfront, a ++ (s2 ++ (b ++ z)), (expands_starred ha hb ending).mpr ⟨s2, z, rfl, hz⟩,
        ?_⟩
      simp [folded_append, h1, h3]
    cases ending with
    | true => exact hmatch s4 nofun (by cases front <;> simp)
    | false =>
      cases front with
      | true => exact hmatch [] (fun _ => rfl) (by simp)
      | false =>
        have hnil : s4 = [] := by
          rw [← length_eq_zero_iff, ← length_folded anycase, h4, hy rfl rfl, length_nil]
        exact hmatch [] (fun _ => rfl) (by simp [hnil])

/-- Behind the first piece, the second one occurs only at the end. -/
def EndsOnly (a b s : Text) : Prop :=
  folded anycase a <+: folded anycase s → folded anycase b <:+: (folded anycase s).drop a.length →
    folded anycase b <:+ (folded anycase s).drop a.length

instance (a b s : Text) : Decidable (EndsOnly anycase a b s) :=
  inferInstanceAs (Decidable (_ → _ → _))

theorem endsOnly_iff : EndsOnly anycase a b s ↔
    ∀ x y, Occurs anycase a b s x y → ∃ x', Occurs anycase a b s x' [] := by
  have hdrop : ∀ {t : Text}, folded anycase s = folded anycase a ++ t →
      (folded anycase s).drop a.length = t := by
    intro t ht
    rw [ht, ← length_folded anycase a, drop_left]
  constructor
  · intro h x y hxy
    have hrest := hdrop hxy
    obtain ⟨x', hx'⟩ := h ⟨_, hxy.symm⟩ (by rw [hrest]; exact ⟨x, y, by rw [append_assoc]⟩)
    refine ⟨x', ?_⟩
    rw [Occurs, append_nil, hx', hrest]
    exact hxy
  · rintro h ⟨t, ht⟩ hin
    rw [hdrop ht.symm] at hin ⊢
    obtain ⟨x, y, rfl⟩ := hin
    obtain ⟨x', hx'⟩ := h x y (by rw [Occurs, ← ht, append_assoc])
    rw [Occurs, ← ht, append_nil] at hx'
    exact ⟨x', (append_cancel_left hx').symm⟩

/-- **The test is right just when the end of the string is left open, or the second piece occurs at
the end of the string if it occurs at all.** -/
theorem matchesWithWildcardImpl_eq_iff (ha : '*' ∉ a) (hb : '*' ∉ b) (front ending : Bool)
    (s : Text) :
    (matchesWithWildcardImpl (starred a b ending) s anycase front = true ↔
      Matches anycase front (starred a b ending) s) ↔
      ending = true ∨ front = true ∨ EndsOnly anycase a b s := by
  rw [matchesWithWildcardImpl_iff anycase ha hb, matches_iff anycase ha hb, endsOnly_iff]
  cases ending with
  | true => simp
  | false =>
    cases front with
    | true => simp
    | false =>
      simp only [Bool.false_eq_true, false_or, forall_const]
      constructor
      · intro h x y hxy
        obtain ⟨x', y', hx', rfl⟩ := h.mp ⟨x, y, hxy⟩
        exact ⟨x', hx'⟩
      · intro h
        constructor
        · rintro ⟨x, y, hxy⟩
          obtain ⟨x', hx'⟩ := h x y hxy
          exact ⟨x', [], hx', rfl⟩
        · rintro ⟨x, y, hxy, -⟩
          exact ⟨x, y, hxy⟩

/-- The host name `a.edu` matches the pattern `*.EDU`. -/
theorem matchesWithWildcardImpl_eq_edu :
    matchesWithWildcardImpl "*.EDU".toList "a.edu".toList true false = true ↔
      Matches true false "*.EDU".toList "a.edu".toList :=
  (matchesWithWildcardImpl_eq_iff true (a := []) (b := ".EDU".toList) (by decide) (by decide)
    false false
    "a.edu".toList).mpr (by decide)

/-- The host name `a.edu.b` passes for one that ends with `.edu`. -/
theorem matchesWithWildcard_open_end :
    matchesAnycaseWithWildcard "*.edu".toList "a.edu.b".toList = true ∧
      ¬ Matches true false "*.edu".toList "a.edu.b".toList := by
  refine ⟨by decide, fun h => ?_⟩
  obtain ⟨x, y, hxy, hy⟩ := (matches_iff true (a := []) (b := ".edu".toList) (by decide) (by decide)
    false false).mp h
  have hsuffix : folded true ".edu".toList <:+ folded true "a.edu.b".toList :=
    ⟨x, by rw [hxy, hy rfl rfl, append_nil, folded_nil, nil_append]⟩
  exact absurd hsuffix (by decide)

end Condor.Wildcards
