import Condor.ClassAd.Operation
import Condor.Lib.LowerBound

/-!
# The flat map — the vector that holds the attributes of an ad

`ClassAdFlatMap` keeps the attributes of an ad in a vector and searches it by halving, with an order
that compares lengths first. The vector is compared with a map from folded names to entries.

* **`run_represents`**.
-/

namespace Condor.ClassAd.FlatMap

open List Option Function Flat

attribute [local simp] modify_append_length insertIdx_append_length

/-- A key of the map: a `std::string` or a `const char *`. -/
inductive StringLike where
  | string (s : Text)
  | chars (s : Text)

variable {V : Type} {l l' : List (Text × V)} {null : V} {key : StringLike} {a b : Text}

/-- The length that `ClassAdFlatMapOrder` takes from the key: `size` or `strlen`. -/
def StringLike.len : StringLike → ℕ
  | .string s => s.length
  | .chars s => (cstr s).length

def StringLike.text : StringLike → Text
  | .string s => s
  | .chars s => s

/-- The `std::string` that the vector holds for the key. -/
def StringLike.stored : StringLike → Text
  | .string s => s
  | .chars s => cstr s

def StringLike.NulFree (key : StringLike) : Prop := nul ∉ key.text

instance (key : StringLike) : Decidable key.NulFree := inferInstanceAs (Decidable (nul ∉ key.text))

def strcasecmp (a b : Text) : Ordering := strcmp (caseFold (cstr a)) (caseFold (cstr b))

/-- `ClassAdFlatMapOrder(key)(lhs, key)`. -/
def ClassAdFlatMapOrder (key : StringLike) (lhs : Text × V) : Bool :=
  if lhs.1.length < key.len then true
  else if lhs.1.length > key.len then false
  else strcasecmp lhs.1 key.text == .lt

/-- `ClassAdFlatMapEqual(lhs, key)`. -/
def ClassAdFlatMapEqual (lhs : Text × V) (key : StringLike) : Bool :=
  strcasecmp lhs.1 key.text == .eq

section

variable (l)

/-- The lower bound of the key, and whether the entry there has this key. -/
def search (key : StringLike) : ℕ × Bool :=
  let lb := lowerBound (ClassAdFlatMapOrder key) l
  (lb, (l[lb]?).any (ClassAdFlatMapEqual · key))

/-- `find`: the position of the entry, and the end of the vector if there is none. -/
def find (key : StringLike) : ℕ :=
  match search l key with
  | (lb, true) => lb
  | (_, false) => l.length

/-- `emplace`: the vector, the position of the entry, and whether it is new. -/
def emplace (key : StringLike) (value : V) : List (Text × V) × ℕ × Bool :=
  match search l key with
  | (lb, true) => (l, lb, false)
  | (lb, false) => (l.insertIdx lb (key.stored, value), lb, true)

/-- `operator[]`: the vector and the position of the entry whose value is returned by reference. -/
def subscript (null : V) (l : List (Text × V)) (key : Text) : List (Text × V) × ℕ :=
  match search l (.string key) with
  | (lb, true) => (l, lb)
  | (lb, false) => (l.insertIdx lb (key, null), lb)

/-- `erase(iterator)`, for an iterator that points to an entry. -/
def eraseAt (i : ℕ) : Option (List (Text × V)) :=
  if i < l.length then some (l.eraseIdx i) else none

/-- `erase(key)`. -/
def eraseKey (key : StringLike) : List (Text × V) :=
  let i := find l key
  if i = l.length then l else l.eraseIdx i

/-- A call on the map; a value may be assigned to what `operator[]` returns. -/
inductive Op (V : Type) where
  | emplace (key : StringLike) (value : V)
  | subscript (key : Text) (assigned : Option V)
  | eraseKey (key : StringLike)
  | eraseAt (i : ℕ)
  | clear

def Op.NulFree : Op V → Prop
  | .emplace key _ | .eraseKey key => key.NulFree
  | .subscript key _ => nul ∉ key
  | .eraseAt _ | .clear => True

def assign (i : ℕ) : Option V → List (Text × V)
  | none => l
  | some v => l.modify i fun e => (e.1, v)

end

/-- The vector after a call; an iterator that does not point to an entry must not be erased. -/
def step (null : V) (l : List (Text × V)) : Op V → Option (List (Text × V))
  | .emplace key value => some (emplace l key value).1
  | .subscript key assigned =>
    let (l', i) := subscript null l key
    some (assign l' i assigned)
  | .eraseKey key => some (eraseKey l key)
  | .eraseAt i => eraseAt l i
  | .clear => some []

/-! ## The map from folded names -/

variable (V) in
/-- A finite map whose keys are names up to case, with their spelling. -/
abbrev Spelled : Type := Text → Option (Text × V)

namespace Spelled

def set (m : Spelled V) (e : Text × V) : Spelled V := update m (caseFold e.1) (some e)

def erase (m : Spelled V) (name : Text) : Spelled V := update m (caseFold name) none

/-- A name that is present keeps its entry. -/
def emplace (m : Spelled V) (name : Text) (value : V) : Spelled V :=
  match m (caseFold name) with
  | some _ => m
  | none => m.set (name, value)

/-- A name that is present keeps its spelling; a new name has the null value. -/
def subscript (null : V) (m : Spelled V) (name : Text) (assigned : Option V) : Spelled V :=
  match m (caseFold name) with
  | some e => m.set (e.1, assigned.getD e.2)
  | none => m.set (name, assigned.getD null)

/-- The map after a call; an iterator stands for the entry of the vector that it points to. -/
def step (null : V) (l : List (Text × V)) (m : Spelled V) : Op V → Spelled V
  | .emplace key value => m.emplace key.text value
  | .subscript key assigned => m.subscript null key assigned
  | .eraseKey key => m.erase key.text
  | .eraseAt i => match l[i]? with
    | some e => m.erase e.1
    | none => m
  | .clear => fun _ => none

end Spelled

def run (null : V) : List (Op V) → List (Text × V) × Spelled V →
    Option (List (Text × V) × Spelled V)
  | [], s => some s
  | op :: ops, (l, m) => do
    let l' ← step null l op
    run null ops (l', m.step null l op)

/-- The vector holds the entries of the map, and no others. -/
def Represents (l : List (Text × V)) (m : Spelled V) : Prop :=
  ∀ f e, m f = some e ↔ e ∈ l ∧ caseFold e.1 = f

/-! ## Where a name is -/

def NulFree (l : List (Text × V)) : Prop := ∀ e ∈ l, nul ∉ e.1

theorem strcmp_eq_lt_iff : strcmp a b = .lt ↔ a.map Char.toNat < b.map Char.toNat := by
  unfold strcmp compareOfLessAndEq
  split_ifs with h h' <;> simp [h]

theorem strcmp_eq_eq_iff : strcmp a b = .eq ↔ a.map Char.toNat = b.map Char.toNat := by
  unfold strcmp compareOfLessAndEq
  split_ifs with h h'
  · simp only [false_iff]
    intro he
    exact absurd h (by rw [he]; exact lt_irrefl _)
  · simpa using h'
  · simpa using h'

variable {e : Text × V}

section

variable (hk : key.NulFree)
include hk

theorem StringLike.NulFree.cstr_text : cstr key.text = key.text :=
  cstr_eq hk

theorem StringLike.NulFree.len_eq : key.len = key.text.length := by
  cases key with
  | string s => rfl
  | chars s => exact congrArg length hk.cstr_text

theorem StringLike.NulFree.stored_eq : key.stored = key.text := by
  cases key with
  | string s => rfl
  | chars s => exact hk.cstr_text

theorem order_iff (he : nul ∉ e.1) :
    ClassAdFlatMapOrder key e = true ↔ nameRank e.1 < nameRank key.text := by
  rw [ClassAdFlatMapOrder, hk.len_eq, nameRank, nameRank, cons_lt_cons_iff]
  split_ifs with h h'
  · simp [h]
  · simp only [false_iff, not_or]
    exact ⟨by omega, fun heq => by omega⟩
  · rw [beq_iff_eq, strcasecmp, cstr_eq he, hk.cstr_text, strcmp_eq_lt_iff]
    have : e.1.length = key.text.length := by omega
    simp [this]

theorem equal_iff (he : nul ∉ e.1) :
    ClassAdFlatMapEqual e key = true ↔ caseFold e.1 = caseFold key.text := by
  rw [ClassAdFlatMapEqual, beq_iff_eq, strcasecmp, cstr_eq he, hk.cstr_text, strcmp_eq_eq_iff]
  exact (map_injective_iff.mpr fun _ _ hc => Char.toNat_inj.mp hc).eq_iff

end

/-- The place of a name in a vector: behind the smaller names, with the entry there if there is one.
-/
inductive Place (name : Text) : List (Text × V) → ℕ → Bool → Prop
  | mk {l1 l2 : List (Text × V)} {o : Option (Text × V)}
    (h₁ : ∀ a ∈ l1, nameRank a.1 < nameRank name)
      (ho : ∀ e ∈ o, caseFold e.1 = caseFold name) (h₂ : ∀ a ∈ l2, nameRank name < nameRank a.1) :
      Place name (l1 ++ (o.toList ++ l2)) l1.length o.isSome

theorem nameRank_eq (h : caseFold a = caseFold b) : nameRank a = nameRank b :=
  nameRank_eq_iff.mpr (decide_eq_true h)

theorem caseFold_ne (h : nameRank a < nameRank b) : caseFold a ≠ caseFold b :=
  fun he => absurd h (by rw [nameRank_eq he]; exact lt_irrefl _)

/-- **The search** finds the place of the name. -/
theorem search_place (hl : Sorted nameRank l) (hn : NulFree l) (hk : key.NulFree) :
    Place key.text l (search l key).1 (search l key).2 := by
  have hpart : Partitioned (ClassAdFlatMapOrder key) l := by
    refine Pairwise.imp_of_mem (fun {a b} ha hb hab => ?_) hl
    rw [order_iff hk (hn a ha), order_iff hk (hn b hb)]
    exact hab.trans
  obtain ⟨l1, l2, rfl, h1, h2⟩ := hpart.split
  have hlb := lowerBound_append h1 h2
  have h1' : ∀ a ∈ l1, nameRank a.1 < nameRank key.text := fun a ha =>
    (order_iff hk (hn a (mem_append_left _ ha))).mp (h1 a ha)
  have h2' : ∀ a ∈ l2, nameRank key.text ≤ nameRank a.1 := fun a ha => by
    rw [← not_lt, ← order_iff hk (hn a (mem_append_right _ ha)), h2 a ha]
    decide
  have hs : search (l1 ++ l2) key = (l1.length, l2.head?.any (ClassAdFlatMapEqual · key)) := by
    rw [search, hlb, getElem?_append_right (Nat.le_refl _), Nat.sub_self, head?_eq_getElem?]
  rw [hs]
  cases l2 with
  | nil => exact .mk (o := none) h1' nofun nofun
  | cons e l2 =>
    have hsorted := (pairwise_cons.mp (pairwise_append.mp hl).2.1).1
    have hne : nul ∉ e.1 := hn e (by simp)
    cases heq : ClassAdFlatMapEqual e key with
    | true =>
      rw [head?_cons, any_some, heq]
      have hfold := (equal_iff hk hne).mp heq
      exact .mk h1' (fun _ h => mem_some_iff.mp h ▸ hfold)
        fun a ha => nameRank_eq hfold ▸ hsorted a ha
    | false =>
      rw [head?_cons, any_some, heq]
      have hlt : nameRank key.text < nameRank e.1 := by
        refine lt_of_le_of_ne (h2' e (by simp)) fun hr => ?_
        have := (equal_iff hk hne).mpr (of_decide_eq_true (nameRank_eq_iff.mp hr.symm))
        rw [heq] at this
        cases this
      refine .mk (o := none) h1' nofun (forall_mem_cons.mpr ⟨hlt, fun a ha => ?_⟩)
      exact hlt.trans (hsorted a ha)

/-! ## The calls keep the order and the entries -/

/-- The vector is sorted, has no NUL bytes and holds the entries of the map. -/
structure Good (l : List (Text × V)) (m : Spelled V) : Prop where
  sorted : Sorted nameRank l
  nulFree : NulFree l
  represents : Represents l m

theorem Good.empty : Good [] (fun _ => none : Spelled V) where
  sorted := Pairwise.nil
  nulFree := nofun
  represents _ _ := ⟨nofun, fun h => nomatch h.1⟩

section Splice

variable {name : Text} {l1 l2 : List (Text × V)} {o o' : Option (Text × V)} {m : Spelled V}
  (h1 : ∀ a ∈ l1, nameRank a.1 < nameRank name) (h2 : ∀ a ∈ l2, nameRank name < nameRank a.1)
  (ho : ∀ e ∈ o, caseFold e.1 = caseFold name)
include h1 h2 ho

theorem Represents.splice (h : Represents (l1 ++ (o.toList ++ l2)) m)
    (ho' : ∀ e ∈ o', caseFold e.1 = caseFold name) :
    Represents (l1 ++ (o'.toList ++ l2)) (update m (caseFold name) o') := by
  intro f e
  have hmem : ∀ p : Option (Text × V), e ∈ l1 ++ (p.toList ++ l2) ↔ e ∈ l1 ∨ e ∈ p ∨ e ∈ l2 :=
    fun p => by
    simp
  by_cases hf : f = caseFold name
  · subst hf
    rw [update_self, hmem]
    refine ⟨fun he => ⟨.inr (.inl he), ho' e he⟩, ?_⟩
    rintro ⟨he | he | he, hfold⟩
    · exact absurd hfold (caseFold_ne (h1 e he))
    · exact he
    · exact absurd hfold.symm (caseFold_ne (h2 e he))
  · rw [update_of_ne hf, h f e, hmem, hmem]
    constructor
    · rintro ⟨he | he | he, rfl⟩
      · exact ⟨.inl he, rfl⟩
      · exact absurd (ho e he) hf
      · exact ⟨.inr (.inr he), rfl⟩
    · rintro ⟨he | he | he, rfl⟩
      · exact ⟨.inl he, rfl⟩
      · exact absurd (ho' e he) hf
      · exact ⟨.inr (.inr he), rfl⟩

/-- The entry under a name is replaced by another one, or by none. -/
theorem Good.splice (h : Good (l1 ++ (o.toList ++ l2)) m) (o' : Option (Text × V))
    (ho' : ∀ e ∈ o', caseFold e.1 = caseFold name ∧ nul ∉ e.1) :
    Good (l1 ++ (o'.toList ++ l2)) (update m (caseFold name) o') where
  sorted := by
    obtain ⟨hs1, hs2, hs⟩ := pairwise_append.mp h.sorted
    have hrank : ∀ e ∈ o'.toList, nameRank e.1 = nameRank name := fun e he =>
      nameRank_eq (ho' e (mem_toList.mp he)).1
    refine pairwise_append.mpr ⟨hs1, pairwise_append.mpr ⟨?_, (pairwise_append.mp hs2).2.1, ?_⟩, ?_⟩
    · cases o' <;> simp
    · intro a ha b hb
      rw [hrank a ha]
      exact h2 b hb
    · intro a ha b hb
      rcases mem_append.mp hb with hb | hb
      · rw [hrank b hb]
        exact h1 a ha
      · exact hs a ha b (mem_append_right _ hb)
  nulFree e he := by
    rcases mem_append.mp he with he | he
    · exact h.nulFree e (mem_append_left _ he)
    rcases mem_append.mp he with he | he
    · exact (ho' e (mem_toList.mp he)).2
    · exact h.nulFree e (mem_append_right _ (mem_append_right _ he))
  represents := h.represents.splice h1 h2 ho fun e he => (ho' e he).1

theorem Represents.at_place (h : Represents (l1 ++ (o.toList ++ l2)) m) :
    m (caseFold name) = o := by
  refine ext fun e => ?_
  rw [h, mem_append, mem_append, mem_toList]
  refine ⟨?_, fun he => ⟨.inr (.inl he), ho e he⟩⟩
  rintro ⟨he | he | he, hfold⟩
  · exact absurd hfold (caseFold_ne (h1 e he))
  · exact he
  · exact absurd hfold.symm (caseFold_ne (h2 e he))

end Splice

variable {m : Spelled V}

/-- **`find`** returns the entry of the map. -/
theorem Good.find (h : Good l m) (hk : key.NulFree) :
    l[FlatMap.find l key]? = m (caseFold key.text) := by
  have hp := search_place h.sorted h.nulFree hk
  rw [FlatMap.find]
  generalize search l key = r at hp
  obtain ⟨i, b⟩ := r
  obtain ⟨h1, ho, h2⟩ := hp
  rename_i l1 l2 o
  rw [h.represents.at_place h1 h2 ho]
  cases o <;> simp

theorem Good.emplace (h : Good l m) (hk : key.NulFree) (value : V) :
    Good (FlatMap.emplace l key value).1 (m.emplace key.text value) := by
  have hp := search_place h.sorted h.nulFree hk
  rw [FlatMap.emplace]
  generalize search l key = r at hp
  obtain ⟨i, b⟩ := r
  obtain ⟨h1, ho, h2⟩ := hp
  rename_i l1 l2 o
  rw [Spelled.emplace, h.represents.at_place h1 h2 ho]
  cases o with
  | some e => exact h
  | none =>
    rw [hk.stored_eq]
    have := h.splice h1 h2 ho (some (key.text, value)) (by rintro _ ⟨⟩; exact ⟨rfl, hk⟩)
    simpa [Spelled.set] using this

theorem Good.subscript (h : Good l m) {key : Text} (hk : nul ∉ key) (assigned : Option V) :
    Good (assign (FlatMap.subscript null l key).1 (FlatMap.subscript null l key).2 assigned)
      (m.subscript null key assigned) := by
  have hp : Place key _ _ _ :=
    search_place h.sorted h.nulFree (show (StringLike.string key).NulFree from hk)
  rw [FlatMap.subscript]
  generalize search l (.string key) = r at hp
  obtain ⟨i, b⟩ := r
  obtain ⟨h1, ho, h2⟩ := hp
  rename_i l1 l2 o
  rw [Spelled.subscript, h.represents.at_place h1 h2 ho]
  cases o with
  | some e =>
    have hfold := ho e rfl
    have := h.splice h1 h2 ho (some (e.1, assigned.getD e.2))
      (by rintro _ ⟨⟩; exact ⟨hfold, h.nulFree e (by simp)⟩)
    rw [← hfold] at this
    cases assigned <;> simpa [assign, Spelled.set] using this
  | none =>
    have := h.splice h1 h2 ho (some (key, assigned.getD null)) (by rintro _ ⟨⟩; exact ⟨rfl, hk⟩)
    cases assigned <;>
      simpa [assign, Spelled.set] using this

theorem Good.eraseIdx (h : Good l m) {i : ℕ} (he : l[i]? = some e) :
    Good (l.eraseIdx i) (m.erase e.1) := by
  obtain ⟨l1, l2, rfl, rfl⟩ := exists_append_of_getElem? he
  obtain ⟨-, hs2, hs⟩ := pairwise_append.mp h.sorted
  rw [eraseIdx_append_length]
  exact Good.splice (o := some e) (fun a ha => hs a ha e (by simp)) (pairwise_cons.mp hs2).1
    (by rintro _ ⟨⟩; rfl) h none nofun

theorem find_lt (hl : Sorted nameRank l) (hn : NulFree l) (hk : key.NulFree)
    (h : find l key ≠ l.length) : find l key < l.length := by
  have hp := search_place hl hn hk
  revert h
  rw [find]
  generalize search l key = r at hp
  obtain ⟨i, b⟩ := r
  obtain ⟨-, -, -⟩ := hp
  rename_i l1 l2 o
  cases o <;> simp

theorem Good.eraseKey (h : Good l m) (hk : key.NulFree) :
    Good (FlatMap.eraseKey l key) (m.erase key.text) := by
  have hfind := h.find hk
  rw [FlatMap.eraseKey]
  split_ifs with hi
  · -- the name is not there
    rw [hi, getElem?_eq_none (Nat.le_refl _)] at hfind
    rwa [Spelled.erase, hfind, update_eq_self]
  · have he := getElem?_eq_getElem (find_lt h.sorted h.nulFree hk hi)
    have hfold := ((h.represents _ _).mp (hfind.symm.trans he)).2
    rw [Spelled.erase, ← hfold]
    exact h.eraseIdx he

/-- **A call** keeps the order of the vector and changes its entries as it changes the map. -/
theorem Good.step (h : Good l m) {op : Op V} (hop : op.NulFree)
    (hs : FlatMap.step null l op = some l') :
    Good l' (m.step null l op) := by
  cases op with
  | emplace key value =>
    obtain rfl := some.inj hs
    exact h.emplace hop value
  | subscript key assigned =>
    obtain rfl := some.inj hs
    exact h.subscript hop assigned
  | eraseKey key =>
    obtain rfl := some.inj hs
    exact h.eraseKey hop
  | eraseAt i =>
    obtain ⟨hi, rfl⟩ : i < l.length ∧ l.eraseIdx i = l' := by
      simpa [FlatMap.step, eraseAt] using hs
    have he := getElem?_eq_getElem hi
    simp only [Spelled.step, he]
    exact h.eraseIdx he
  | clear =>
    obtain rfl := some.inj hs
    exact .empty

theorem Good.run (h : Good l m) {ops : List (Op V)} (hops : ∀ op ∈ ops, op.NulFree) {m' : Spelled V}
    (hr : run null ops (l, m) = some (l', m')) : Good l' m' := by
  induction ops generalizing l m with
  | nil =>
    obtain ⟨rfl, rfl⟩ := Prod.mk.inj (some.inj hr)
    exact h
  | cons op ops ih =>
    obtain ⟨l1, hs, hr⟩ := bind_eq_some_iff.mp hr
    obtain ⟨hop, hops⟩ := forall_mem_cons.mp hops
    exact ih (h.step hop hs) hops hr

/-- **The flat map is a map of names up to case**: the vector is always sorted, and a search returns
the entry in the spelling of its first insertion. -/
theorem run_represents {ops : List (Op V)} (hops : ∀ op ∈ ops, op.NulFree)
    (hr : run null ops ([], fun _ => none) = some (l, m)) :
    Sorted nameRank l ∧ (l.Pairwise fun a b => caseEq a.1 b.1 = false) ∧
      ∀ key : StringLike, key.NulFree → l[find l key]? = m (caseFold key.text) := by
  have h := Good.empty.run hops hr
  refine ⟨h.sorted, h.sorted.imp fun hab => ?_, fun key => h.find⟩
  exact decide_eq_false (caseFold_ne hab)

/-- An attribute is assigned under another spelling, and another one erased. -/
theorem run_represents_spellings :
    let ops : List (Op ℕ) := [.emplace (.chars "Cpus".toList) 1, .emplace (.string "Disk".toList) 2,
      .subscript "CPUS".toList (some 3), .eraseAt 1]
    let l : List (Text × ℕ) := [("Cpus".toList, 3)]
    (run 0 ops ([], fun _ => none)).map Prod.fst = some l ∧
      l[find l (.chars "cPUs".toList)]? = some ("Cpus".toList, 3) := by
  intro ops l
  have hl : (run 0 ops ([], fun _ => none)).map Prod.fst = some l := by decide
  obtain ⟨⟨l', m⟩, hr, rfl⟩ := map_eq_some_iff.mp hl
  have hops : ∀ op ∈ ops, op.NulFree := by
    simp only [ops, mem_cons, not_mem_nil, or_false, forall_eq_or_imp, forall_eq, Op.NulFree]
    decide
  have h := (run_represents hops hr).2.2 (.chars "cPUs".toList) (by decide)
  refine ⟨hl, h.trans ?_⟩
  have hm : (run 0 ops ([], fun _ => none)).map (fun s => s.2 (caseFold "cPUs".toList)) =
    some (some ("Cpus".toList, 3)) := by decide
  rw [hr] at hm
  exact some.inj hm

end Condor.ClassAd.FlatMap
