import Condor.Ranger.Correct
import Condor.Lib.CText

/-!
# Range sets as texts — the model of `persist` and `load`

A forest of a `ranger<int>` is written as its ranges with inclusive ends, `N-M` or `N`, with
semicolons between them. `load` reads the ranges one by one and inserts them.

* `readElement`, `writeElement`: single elements, **`readElement_writeElement`**: they are read
  back;
* **`load_persist`**.
-/

namespace Condor.Ranger

open List Nat Separated

variable (f es : List (Range ℤ)) (rr : Range ℤ)

/-! ## The functions -/

def toInt (n : ℤ) : ℤ := (n - intMin) % 2 ^ 32 + intMin

/-- `e - 1` on `int`. -/
def intPred (e : ℤ) : ℤ := toInt (e - 1)

def afterNumber (s : Text) : Text :=
  let s := match s.dropWhile isSpace with
    | '-' :: s => s
    | '+' :: s => s
    | s => s
  s.dropWhile Char.isDigit

/-- `read_element`: the element and the text behind it, all of it if there is no number. -/
def readElement (s : Text) : ℤ × Text :=
  match strtoll s with
  | some n => (toInt n, afterNumber s)
  | none => (0, s)

def writeElement (n : ℤ) : Text :=
  if n < 0 then '-' :: toDigits 10 n.natAbs else toDigits 10 n.natAbs

def rangeText : Text :=
  writeElement rr.start ++ if rr.start ≠ intPred rr.stop then '-' :: writeElement (intPred rr.stop)
    else []

def persistRangeSingle : Text := rangeText rr ++ [';']

def persist : Text :=
  if f.isEmpty then [] else (f.flatMap persistRangeSingle).dropLast

/-- The ranges that the loop of `persist_range` writes. -/
def clip : List (Range ℤ) :=
  let rit := (find f rr.start).1
  ((f.drop rit).takeWhile fun e => decide (e.start < rr.stop)).map fun e =>
    ⟨max e.start rr.start, min e.stop rr.stop⟩

def persistRange : Text :=
  if f.isEmpty then []
  else
    let s := (clip f rr).flatMap persistRangeSingle
    if s.isEmpty then s else s.dropLast

/-- The loop of `load` on a text of `len` characters: the forest and the returned code. -/
def loadLoop (len : ℕ) : ℕ → List (Range ℤ) → Text → List (Range ℤ) × ℤ
  | 0, f, _ => (f, 0)
  | n + 1, f, s =>
    -- the rest of an iteration, behind the last element of the range
    let next (start back : ℤ) (s : Text) : List (Range ℤ) × ℤ :=
      match s with
      | [] => loadLoop len n (insert f ⟨start, intSucc back⟩).1 []
      | ';' :: s => loadLoop len n (insert f ⟨start, intSucc back⟩).1 s
      | _ => (f, -1 - (len - s.length))
    if s.isEmpty then (f, 0)
    else
      let (start, sp) := readElement s
      if s.length = sp.length then (f, -1 - (len - s.length))
      else
        match sp with
        | '-' :: s =>
          let (back, sp) := readElement s
          if s.length = sp.length then (f, -1 - (len - s.length)) else next start back sp
        | _ => next start start sp

/-- `load`. Each iteration takes at least one character. -/
def load (s : Text) : List (Range ℤ) × ℤ :=
  loadLoop (cstr s).length ((cstr s).length + 1) f (cstr s)

/-! ## Single elements -/

theorem toInt_eq {n : ℤ} (h1 : intMin ≤ n) (h2 : n ≤ intMax) : toInt n = n := by
  simp only [toInt, intMin, intMax] at *
  omega

theorem intPred_eq {e : ℤ} (h1 : intMin < e) (h2 : e ≤ intMax) : intPred e = e - 1 :=
  toInt_eq (by omega) (by omega)

variable {s : Text} {e : Range ℤ} {f}

section

variable (n : ℕ) (hs : ∀ c ∈ s.head?, c.isDigit = false)
include n hs

theorem takeWhile_digits : (toDigits 10 n ++ s).takeWhile Char.isDigit = toDigits 10 n ∧
      (toDigits 10 n ++ s).dropWhile Char.isDigit = s := by
  have hdig : ∀ c ∈ toDigits 10 n, c.isDigit = true := fun c hc =>
    isDigit_of_mem_toDigits (by decide) (by decide) hc
  exact ⟨takeWhile_append_stop hdig hs, dropWhile_append_stop hdig hs⟩

theorem scanNumber_minus : scanNumber ('-' :: (toDigits 10 n ++ s)) = some (true, n) := by
  have hblank : ('-' :: (toDigits 10 n ++ s)).dropWhile isSpace = '-' :: (toDigits 10 n ++ s) := rfl
  rw [scanNumber, hblank]
  simp [(takeWhile_digits n hs).1]

theorem afterNumber_minus : afterNumber ('-' :: (toDigits 10 n ++ s)) = s :=
  (takeWhile_digits n hs).2

theorem afterNumber_digits : afterNumber (toDigits 10 n ++ s) = s := by
  obtain ⟨d, ds, hd⟩ := exists_cons_of_ne_nil (toDigits_ne_nil (n := n) (b := 10))
  have h0 : d.isDigit = true :=
    isDigit_of_mem_toDigits (by decide) (by decide) (hd ▸ mem_cons_self)
  have hdrop := (takeWhile_digits n hs).2
  rw [hd, cons_append] at hdrop ⊢
  rw [afterNumber, dropWhile_cons_of_neg (by simp [isSpace_of_isDigit h0])]
  split
  next h => rw [(cons.inj h).1] at h0; exact absurd h0 (by decide)
  next h => rw [(cons.inj h).1] at h0; exact absurd h0 (by decide)
  next => exact hdrop

end

/-- **An element is read back**, if no digit follows it. -/
theorem readElement_writeElement {n : ℤ} (h1 : intMin ≤ n) (h2 : n ≤ intMax)
    (hs : ∀ c ∈ s.head?, c.isDigit = false) : readElement (writeElement n ++ s) = (n, s) := by
  have htoInt := toInt_eq h1 h2
  simp only [intMin, intMax] at h1 h2
  unfold writeElement
  split_ifs
  · have hmax : max (-(n.natAbs : ℤ)) (-2 ^ 63) = n := by omega
    rw [cons_append, readElement, strtoll, scanNumber_minus _ hs]
    simp only [Option.map_some, if_true, hmax, htoInt, afterNumber_minus _ hs]
  · have hmin : min (n.natAbs : ℤ) (2 ^ 63 - 1) = n := by omega
    rw [readElement, strtoll, scanNumber_toDigits _ _ hs]
    simp only [Option.map_some, Bool.false_eq_true, if_false, hmin, htoInt, afterNumber_digits _ hs]

theorem writeElement_ne_nil (n : ℤ) : writeElement n ≠ [] := by
  unfold writeElement
  split_ifs
  · exact cons_ne_nil _ _
  · exact toDigits_ne_nil

theorem length_lt_writeElement (n : ℤ) : (writeElement n ++ s).length ≠ s.length := by
  have := length_pos_of_ne_nil (writeElement_ne_nil n)
  rw [length_append]
  omega

/-! ## Writing and loading -/

/-- The range has its ends in the range of `int`. -/
def Range.InInt (r : Range ℤ) : Prop := intMin ≤ r.start ∧ r.stop ≤ intMax

instance (r : Range ℤ) : Decidable r.InInt := inferInstanceAs (Decidable (_ ∧ _))

theorem insert_last (he : e.start < e.stop)
    (hf : ∀ a ∈ f, a.stop < e.start) : (insert f e).1 = f ++ [e] := by
  have hspan : lowerBound f e.start = (f, []) := by
    rw [lowerBound, span_eq_takeWhile_dropWhile, takeWhile_eq_self_iff.mpr (by simpa using hf),
      dropWhile_eq_nil_iff.mpr (by simpa using hf)]
  have hset : setInsert e (f ++ []) = f ++ [e] :=
    setInsert_append (fun a ha => (hf a ha).trans he) fun _ h => by cases h
  rw [append_nil] at hset
  simp [insert, hspan, hset]

def joined : List (Range ℤ) → Text
  | [] => []
  | [e] => rangeText e
  | e :: es => rangeText e ++ ';' :: joined es

theorem flatMap_ne_nil {es : List (Range ℤ)} : (e :: es).flatMap persistRangeSingle ≠ [] := by
  simp [persistRangeSingle]

theorem dropLast_flatMap : (es.flatMap persistRangeSingle).dropLast = joined es := by
  induction es with
  | nil => rfl
  | cons e es ih =>
    cases es with
    | nil => simp [persistRangeSingle, joined]
    | cons e' es =>
      rw [flatMap_cons, dropLast_append_of_ne_nil flatMap_ne_nil, ih, persistRangeSingle,
        append_assoc]
      rfl

theorem loadLoop_range (len n : ℕ) (f : List (Range ℤ)) (he : e.start < e.stop)
    (hint : e.InInt) (hs : s = [] ∨ ∃ t, s = ';' :: t) :
    loadLoop len (n + 1) f (rangeText e ++ s) = loadLoop len n (insert f e).1 s.tail := by
  obtain ⟨h1, h2⟩ := hint
  have hpred := intPred_eq (show intMin < e.stop by omega) h2
  have hsucc : intSucc (e.stop - 1) = e.stop := by
    rw [intSucc_eq (by omega) (by omega)]
    omega
  have hsemi : ∀ c ∈ s.head?, c.isDigit = false := by
    rcases hs with rfl | ⟨t, rfl⟩
    · nofun
    · rintro _ ⟨⟩; rfl
  have hnonempty : ∀ t, (writeElement e.start ++ t).isEmpty = false := fun t => by
    simp [writeElement_ne_nil]
  rw [loadLoop, rangeText, hpred]
  by_cases hone : e.start = e.stop - 1
  · rw [if_neg (not_not.mpr hone), append_nil]
    rw [← hone] at hsucc
    have hread := readElement_writeElement h1 (by omega) hsemi
    simp only [hnonempty, hread, length_lt_writeElement, hsucc]
    rcases hs with rfl | ⟨t, rfl⟩ <;> rfl
  · rw [if_pos hone, append_assoc, cons_append]
    have hread := readElement_writeElement h1 (by omega)
      (show ∀ c ∈ ('-' :: (writeElement (e.stop - 1) ++ s)).head?, c.isDigit =
        false by rintro _ ⟨⟩; rfl)
    have hread' := readElement_writeElement (n := e.stop - 1) (by omega) (by omega) hsemi
    simp only [hnonempty, hread, length_lt_writeElement, hread', hsucc]
    rcases hs with rfl | ⟨t, rfl⟩ <;> rfl

theorem length_le_joined : es.length ≤ (joined es).length := by
  have hpos : ∀ e, 0 < (rangeText e).length := fun e => by
    have := length_pos_of_ne_nil (writeElement_ne_nil e.start)
    rw [rangeText, length_append]
    omega
  induction es with
  | nil => exact le_refl _
  | cons e es ih =>
    cases es with
    | nil => exact hpos e
    | cons e' es =>
      have hj : joined (e :: e' :: es) = rangeText e ++ ';' :: joined (e' :: es) := rfl
      simp only [hj, length_append, length_cons] at ih ⊢
      omega

/-- **The loop of `load`** appends the ranges of the text, in order. -/
theorem loadLoop_joined {len n : ℕ} {f es : List (Range ℤ)} (hsep : Separated (f ++ es))
    (hint : ∀ e ∈ es, e.InInt) (hn : es.length < n) :
    loadLoop len n f (joined es) = (f ++ es, 0) := by
  induction es generalizing f n with
  | nil =>
    obtain ⟨n, rfl⟩ := Nat.exists_eq_add_of_lt hn
    simp [joined, loadLoop]
  | cons e es ih =>
    obtain ⟨he, hint⟩ := forall_mem_cons.mp hint
    obtain ⟨-, hes, hgap⟩ := append_iff.mp hsep
    have hlast := insert_last (cons_iff.mp hes).1 fun a ha => hgap a ha e (by simp)
    obtain ⟨m, rfl⟩ : ∃ m, n = m + 1 := ⟨n - 1, by omega⟩
    have hrest := ih (f := f ++ [e]) (by simpa using hsep) hint (by simpa using hn)
    rw [append_assoc] at hrest
    cases es with
    | nil =>
      have := loadLoop_range len m f (cons_iff.mp hes).1 he (.inl rfl)
      rw [append_nil, hlast] at this
      exact this.trans hrest
    | cons e' es =>
      have := loadLoop_range len m f (cons_iff.mp hes).1 he
        (.inr ⟨joined (e' :: es), rfl⟩)
      rw [hlast] at this
      exact this.trans hrest

theorem nul_notMem_writeElement (n : ℤ) : nul ∉ writeElement n := by
  have hdig : nul ∉ toDigits 10 n.natAbs := fun h =>
    absurd (isDigit_of_mem_toDigits (by decide) (by decide) h) (by decide)
  unfold writeElement
  split_ifs
  · exact not_mem_cons_of_ne_of_not_mem (by decide) hdig
  · exact hdig

theorem nul_notMem_joined : nul ∉ joined es := by
  have hrange : ∀ e, nul ∉ rangeText e := fun e h => by
    rcases mem_append.mp h with h | h
    · exact nul_notMem_writeElement _ h
    · split_ifs at h
      · rcases mem_cons.mp h with h | h
        · exact absurd h (by decide)
        · exact nul_notMem_writeElement _ h
      · nomatch h
  induction es with
  | nil => nofun
  | cons e es ih =>
    cases es with
    | nil => exact hrange e
    | cons e' es =>
      intro h
      rcases mem_append.mp h with h | h
      · exact hrange e h
      · rcases mem_cons.mp h with h | h
        · exact absurd h (by decide)
        · exact ih h

theorem load_joined {es : List (Range ℤ)} (hsep : Separated es) (hint : ∀ e ∈ es, e.InInt) :
    load [] (joined es) = (es, 0) := by
  rw [load, cstr_eq (nul_notMem_joined es)]
  exact loadLoop_joined hsep hint (lt_succ_of_le (length_le_joined es))

theorem persist_eq : persist f = joined f := by
  rw [persist, dropLast_flatMap]
  cases f <;> rfl

theorem persistRange_eq (q : Range ℤ) : persistRange f q = joined (clip f q) := by
  rw [persistRange]
  split_ifs with h
  · rw [isEmpty_iff.mp h]
    rfl
  · dsimp only
    rw [dropLast_flatMap]
    cases hc : clip f q with
    | nil => rfl
    | cons e es => rw [if_neg (by simpa using flatMap_ne_nil)]

/-! ## The part of a forest in a range -/

/-- `persist_range` writes the parts of the ranges that meet its argument. -/
theorem clip_eq (hf : Separated f) (q : Range ℤ) : ∃ pre mid post, f = pre ++ mid ++ post ∧
      clip f q = mid.map (fun e => ⟨max e.start q.start, min e.stop q.stop⟩) ∧
      (∀ e ∈ pre, e.stop ≤ q.start) ∧ (∀ e ∈ mid, q.start < e.stop ∧ e.start < q.stop) ∧
      ∀ e ∈ post, q.stop ≤ e.start := by
  obtain ⟨pre, mid, post, rfl, h1, h2, hpre, hmid, hpost⟩ :=
    span_span (p := fun e => e.stop ≤ q.start) (q := fun e => e.start < q.stop)
      (fun a b hab hb => hab.2.le.trans hb) (fun a b hab hb => hab.1.trans hb) hf.pairwise_lt
  simp only [not_lt, not_le] at hmid hpost
  have hfind : (find (pre ++ mid ++ post) q.start).1 = pre.length := by
    simp only [find, upperBound, h1]
    split <;> rfl
  have htake := congrArg Prod.fst h2
  rw [span_eq_takeWhile_dropWhile] at htake
  refine ⟨pre, mid, post, rfl, ?_, hpre, hmid, fun e he => (hpost e he).2⟩
  rw [clip, hfind, append_assoc, drop_left]
  exact congrArg _ htake

theorem separated_clip (hf : Separated f) {q : Range ℤ} (hq : q.start < q.stop) :
    Separated (clip f q) := by
  obtain ⟨pre, mid, post, rfl, h, -, hmid, -⟩ := clip_eq hf q
  obtain ⟨hpm, -, -⟩ := append_iff.mp hf
  obtain ⟨-, hsm, -⟩ := append_iff.mp hpm
  rw [h]
  constructor
  · intro e' he'
    obtain ⟨e, he, rfl⟩ := mem_map.mp he'
    exact max_lt (lt_min (hsm.nonempty e he) (hmid e he).2) (lt_min (hmid e he).1 hq)
  · refine pairwise_map.mpr (hsm.gaps.imp fun {a b} hab => ?_)
    exact (min_le_left _ _).trans_lt (hab.trans_le (le_max_left _ _))

theorem elems_clip (hf : Separated f) (q : Range ℤ) : elems (clip f q) = elems f ∩ q.toSet := by
  obtain ⟨pre, mid, post, rfl, h, hpre, -, hpost⟩ := clip_eq hf q
  rw [h]
  ext x
  simp only [elems, mem_append, mem_map]
  constructor
  · rintro ⟨_, ⟨e, he, rfl⟩, hx, hx'⟩
    obtain ⟨h1, h2⟩ := max_le_iff.mp hx
    obtain ⟨h3, h4⟩ := lt_min_iff.mp hx'
    exact ⟨⟨e, .inl (.inr he), h1, h3⟩, h2, h4⟩
  · rintro ⟨⟨e, (he | he) | he, h1, h3⟩, h2, h4⟩
    · exact absurd (hpre e he) (by order)
    · exact ⟨_, ⟨e, he, rfl⟩, max_le h1 h2, lt_min h3 h4⟩
    · exact absurd (hpost e he) (by order)

/-! ## The forests of a run -/

/-- The ranges of the call have their ends in the range of `int`. -/
def Op.InInt : Op → Prop
  | .insert r | .erase r => r.InInt
  | .insertElem _ | .eraseElem _ => True

instance : DecidablePred Op.InInt
  | .insert r | .erase r => inferInstanceAs (Decidable r.InInt)
  | .insertElem _ | .eraseElem _ => inferInstanceAs (Decidable True)

theorem onSet_subset {s : Set ℤ} (hs : s ⊆ Set.Ico intMin intMax) {op : Op} (hv : op.Valid)
    (hi : op.InInt) :
    op.onSet s ⊆ Set.Ico intMin intMax := by
  cases op with
  | insert r => exact Set.union_subset hs fun x hx => ⟨hi.1.trans hx.1, hx.2.trans_le hi.2⟩
  | insertElem e => exact Set.union_subset hs (Set.singleton_subset_iff.mpr hv)
  | erase r | eraseElem e => exact Set.sdiff_subset.trans hs

theorem foldl_onSet_subset {s : Set ℤ} (hs : s ⊆ Set.Ico intMin intMax) {ops : List Op}
    (hops : ∀ op ∈ ops, op.Valid ∧ op.InInt) : ops.foldl Op.onSet s ⊆ Set.Ico intMin intMax := by
  induction ops generalizing s with
  | nil => exact hs
  | cons op ops ih =>
    obtain ⟨hop, hops⟩ := forall_mem_cons.mp hops
    exact ih (onSet_subset hs hop.1 hop.2) hops

theorem inInt_of_mem (hf : Separated f) (hset : elems f ⊆ Set.Ico intMin intMax)
    (he : e ∈ f) : e.InInt := by
  have hne := hf.nonempty e he
  have hfirst : e.start ∈ elems f := ⟨e, he, le_refl _, hne⟩
  have hlast : e.stop - 1 ∈ elems f := ⟨e, he, by omega, by omega⟩
  have := (hset hlast).2
  exact ⟨(hset hfirst).1, by omega⟩

/-- **Range sets survive persisting.** The text of the forest loads as the same forest, and that of
its part in a range as the intersection. -/
theorem load_persist {ops : List Op} (hops : ∀ op ∈ ops, op.Valid ∧ op.InInt) :
    load [] (persist (run ops)) = (run ops, 0) ∧ ∀ q : Range ℤ, q.start < q.stop →
        (load [] (persistRange (run ops) q)).2 = 0 ∧
        Separated (load [] (persistRange (run ops) q)).1 ∧
          elems (load [] (persistRange (run ops) q)).1 = elems (run ops) ∩ q.toSet := by
  obtain ⟨hsep, helems⟩ := foldl_spec separated_nil ops fun op hop => (hops op hop).1
  have hset : elems (run ops) ⊆ Set.Ico intMin intMax := by
    rw [run, helems, elems_nil]
    exact foldl_onSet_subset (Set.empty_subset _) hops
  constructor
  · rw [persist_eq]
    exact load_joined hsep fun e he => inInt_of_mem hsep hset he
  · intro q hq
    have hclip := separated_clip hsep hq
    have helemsq := elems_clip hsep q
    have hload := load_joined hclip fun e he => inInt_of_mem hclip
      (helemsq.trans_subset (Set.inter_subset_left.trans hset)) he
    rw [persistRange_eq, run, hload]
    exact ⟨rfl, hclip, helemsq⟩

/-- Ranges on both sides of zero: the text is `-5--3;-1;2-4`. -/
theorem load_persist_negative :
    let f := run [.insert ⟨-5, 5⟩, .erase ⟨-2, 2⟩, .insertElem (-1)]
    persist f = "-5--3;-1;2-4".toList ∧ load [] (persist f) = (f, 0) ∧
      load [] (persistRange f ⟨-4, 3⟩) = ([⟨-4, -2⟩, ⟨-1, 0⟩, ⟨2, 3⟩], 0) :=
  ⟨by decide, (load_persist (by decide)).1, by decide⟩

end Condor.Ranger
