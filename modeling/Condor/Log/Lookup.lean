import Condor.Log.History

/-!
# Reading inside a transaction — the model of `LookupInTransaction`

A lookup walks through the records of a key in the open transaction and keeps three flags. A commit
plays the same records on the table. What the two make of one attribute is compared here.

* **`lookupAgrees_iff`**;
* **`adExists_iff_commit`**.
-/

namespace Condor.Log

open List Option LogRecord

variable {E : Type} {key name : Text} {t t' : Table E} {rs rs' : List LogRecord} {mytype : Text}

/-! ## The lookup -/

attribute [local simp] play

/-- The flags of `ExamineLogTransaction`, and the value found. -/
structure Examined where
  adDeleted : Bool
  valDeleted : Bool
  valFound : Bool
  val : Option Text
deriving DecidableEq, Repr

def examineStep (name : Text) (st : Examined) : LogRecord → Examined
  | .newClassAd _ _ => if st.adDeleted then { st with adDeleted := false } else st
  | .destroyClassAd _ => { st with adDeleted := true }
  | .setAttribute _ lname value =>
    if caseEq lname name then { st with val := some value, valFound := true, valDeleted := false }
    else st
  | .deleteAttribute _ lname =>
    if caseEq lname name then { st with val := none, valFound := false, valDeleted := true } else st
  | .beginTransaction | .endTransaction _ | .logHistoricalSequenceNumber _ _ => st

def examined (name : Text) (rs : List LogRecord) : Examined :=
  rs.foldl (examineStep name) ⟨false, false, false, none⟩

/-- `ExamineLogTransaction` for one attribute: the returned code and the value. What is left in
`val` with the code `-1`, a value of a deleted ad or one that has been freed, is dropped. -/
def examineLogTransaction (tr : Transaction) (key name : Text) : ℤ × Option Text :=
  let st := examined name (tr.entriesOf key)
  if st.adDeleted || st.valDeleted then (-1, none)
  else if st.valFound then (1, st.val)
  else (0, none)

def lookupInTransaction (log : ClassAdLog E) (key : Text) (name : Option Text) : ℤ × Option Text :=
  match name, log.activeTransaction with
  | some name, some tr => examineLogTransaction tr key name
  | _, _ => (0, none)

/-! ## One attribute of one ad -/

variable (X : Exprs E)

def attrOf (t : Table E) (key name : Text) : Option (Option E) := (t.find key).map (·.find name)

/-- The code with which `Play` reports that a record of this kind took effect. -/
def LogRecord.successCode : LogRecord → ℤ
  | newClassAd _ _ | destroyClassAd _ => 0
  | _ => 1

attribute [local simp] successCode

/-- Every record takes effect when the records are played in order. -/
def Plays : Table E → List LogRecord → Prop
  | _, [] => True
  | t, r :: rs => (play X t r).2 = r.successCode ∧ Plays (play X t r).1 rs

instance Plays.decide (t : Table E) : (rs : List LogRecord) → Decidable (Plays X t rs)
  | [] => inferInstanceAs (Decidable True)
  | r :: rs =>
    have := Plays.decide (play X t r).1 rs
    inferInstanceAs (Decidable ((play X t r).2 = r.successCode ∧ Plays X (play X t r).1 rs))

/-- What a record of the key does to the attribute. -/
def attrStep (name : Text) (v : Option (Option E)) : LogRecord → Option (Option E)
  | .newClassAd _ mytype => some ((newAd X mytype).find name)
  | .destroyClassAd _ => none
  | .setAttribute _ lname value => if caseEq lname name then some (X.parseCached value) else v
  | .deleteAttribute _ lname => if caseEq lname name then some none else v
  | .beginTransaction | .endTransaction _ | .logHistoricalSequenceNumber _ _ => v

attribute [local simp] attrStep

def attrOk (name : Text) (v : Option (Option E)) : LogRecord → Prop
  | .newClassAd _ _ => v = none
  | .destroyClassAd _ => v ≠ none
  | .setAttribute _ lname value =>
    v ≠ none ∧ (caseEq lname name = true → X.parseCached value ≠ none)
  | .deleteAttribute _ lname => v ≠ none ∧ (caseEq lname name = true → v ≠ some none)
  | .beginTransaction | .endTransaction _ | .logHistoricalSequenceNumber _ _ => True

attribute [local simp] attrOk

variable {X} {r : LogRecord} {v : Option (Option E)} {tr : Transaction} {e : E}

section

variable (h : (play X t r).2 = r.successCode)
include h

/-- What a record that takes effect found in the table, and what it left there. -/
theorem play_success : (∃ k mytype, r = .newClassAd k mytype ∧ t.find k = none ∧
      (play X t r).1 = t.put k (newAd X mytype)) ∨
    (∃ k ad, r = .destroyClassAd k ∧ t.find k = some ad ∧ (play X t r).1 = t.erase k) ∨
    (∃ k lname value ad e, r = .setAttribute k lname value ∧ t.find k = some ad ∧
      X.parseCached value = some e ∧ (play X t r).1 = t.put k (ad.put lname e)) ∨
    (∃ k lname ad, r = .deleteAttribute k lname ∧ t.find k = some ad ∧ ad.find lname ≠ none ∧
      (play X t r).1 = t.put k (ad.erase lname)) ∨
    (r.key = none ∧ (play X t r).1 = t) := by
  cases r with
  | newClassAd k mytype =>
    cases hk : t.find k with
    | some ad => simp [hk] at h
    | none => exact .inl ⟨k, mytype, rfl, hk, by simp [hk]⟩
  | destroyClassAd k =>
    cases hk : t.find k with
    | none => simp [hk] at h
    | some ad => exact .inr (.inl ⟨k, ad, rfl, hk, by simp [hk]⟩)
  | setAttribute k lname value =>
    cases hk : t.find k with
    | none => simp [hk] at h
    | some ad =>
      cases hp : X.parseCached value with
      | none => simp [hk, hp] at h
      | some e =>
        by_cases hn : lname = []
        · simp [hk, hp, hn] at h
        · exact .inr (.inr (.inl ⟨k, lname, value, ad, e, rfl, hk, hp, by simp [hk, hp, hn]⟩))
  | deleteAttribute k lname =>
    cases hk : t.find k with
    | none => simp [hk] at h
    | some ad =>
      refine .inr (.inr (.inr (.inl ⟨k, lname, ad, rfl, hk, fun hnone => ?_, by simp [hk]⟩)))
      simp [hk, hnone] at h
  | beginTransaction | endTransaction comment | logHistoricalSequenceNumber seq timestamp =>
    simp [key]

/-- A record that takes effect changes its own key as `attrStep` says, and no other key. -/
theorem attrOf_play : attrOf (play X t r).1 key name =
      if r.key.getD [] = key then attrStep X name (attrOf t key name) r else attrOf t key name := by
  obtain ⟨k, mytype, rfl, -, ht⟩ | ⟨k, ad, rfl, -, ht⟩ | ⟨k, lname, value, ad, e, rfl, hk, hp, ht⟩ |
    ⟨k, lname, ad, rfl, hk, -, ht⟩ | ⟨hk, ht⟩ := play_success h <;> rw [ht]
  · by_cases hkey : k = key
    · simp [attrOf, LogRecord.key, hkey]
    · simp [attrOf, LogRecord.key, hkey, Ne.symm hkey]
  · by_cases hkey : k = key
    · simp [attrOf, LogRecord.key, hkey]
    · simp [attrOf, LogRecord.key, hkey, Ne.symm hkey]
  · by_cases hkey : k = key
    · subst hkey
      simp only [attrOf, hk, hp, FlatMap.find_put, if_true, map_some, LogRecord.key,
        getD_some, attrStep, nameRank_eq_iff, caseEq_comm name lname]
      split_ifs <;> rfl
    · simp [attrOf, LogRecord.key, hkey, Ne.symm hkey]
  · by_cases hkey : k = key
    · subst hkey
      simp only [attrOf, hk, FlatMap.find_put, FlatMap.find_erase, if_true, map_some,
        LogRecord.key, getD_some, attrStep, nameRank_eq_iff, caseEq_comm name lname]
      split_ifs <;> rfl
    · simp [attrOf, LogRecord.key, hkey, Ne.symm hkey]
  · have : attrStep X name (attrOf t key name) r = attrOf t key name := by
      cases r <;> simp [LogRecord.key] at hk <;> rfl
    rw [this, ite_self]

theorem attrOk_of_play {key : Text} (hkey : r.key.getD [] = key) (name : Text) :
    attrOk X name (attrOf t key name) r := by
  obtain ⟨k, mytype, rfl, hk, -⟩ | ⟨k, ad, rfl, hk, -⟩ | ⟨k, lname, value, ad, e, rfl, hk, hp, -⟩ |
    ⟨k, lname, ad, rfl, hk, hfind, -⟩ | ⟨hk, -⟩ := play_success h
  · obtain rfl : k = key := by simpa [LogRecord.key] using hkey
    simp [attrOf, hk]
  · obtain rfl : k = key := by simpa [LogRecord.key] using hkey
    simp [attrOf, hk]
  · obtain rfl : k = key := by simpa [LogRecord.key] using hkey
    simp [attrOf, hk, hp]
  · obtain rfl : k = key := by simpa [LogRecord.key] using hkey
    refine ⟨by simp [attrOf, hk], fun hc => ?_⟩
    rw [ad.find_congr (nameRank_eq_iff.mpr hc)] at hfind
    simpa [attrOf, hk] using hfind
  · cases r <;> simp [LogRecord.key] at hk <;> trivial

end

def AttrPlays (X : Exprs E) (name : Text) : Option (Option E) → List LogRecord → Prop
  | _, [] => True
  | v, r :: rs => attrOk X name v r ∧ AttrPlays X name (attrStep X name v r) rs

theorem attrPlays_append : AttrPlays X name v (rs ++ rs') ↔
      AttrPlays X name v rs ∧ AttrPlays X name (rs.foldl (attrStep X name) v) rs' := by
  induction rs generalizing v with
  | nil => simp [AttrPlays]
  | cons r rs ih => simp [AttrPlays, ih, and_assoc]

def ofKey (key : Text) (rs : List LogRecord) : List LogRecord :=
  rs.filter fun r => r.key.getD [] = key

attribute [local simp] ofKey

/-- **The records of a key decide its ad.** -/
theorem attrOf_playAll (h : Plays X t rs) : attrOf (playAll X t rs) key name =
      (ofKey key rs).foldl (attrStep X name) (attrOf t key name) := by
  induction rs generalizing t with
  | nil => rfl
  | cons r rs ih =>
    rw [playAll_cons, ih h.2, attrOf_play h.1]
    by_cases hk : r.key.getD [] = key <;> simp [hk]

theorem attrPlays_of_plays (h : Plays X t rs) :
    AttrPlays X name (attrOf t key name) (ofKey key rs) := by
  induction rs generalizing t with
  | nil => trivial
  | cons r rs ih =>
    have hrest := ih h.2
    rw [attrOf_play h.1] at hrest
    by_cases hk : r.key.getD [] = key
    · rw [ofKey, filter_cons_of_pos (by simpa using hk)]
      rw [if_pos hk] at hrest
      exact ⟨attrOk_of_play h.1 hk name, hrest⟩
    · rw [ofKey, filter_cons_of_neg (by simpa using hk)]
      rwa [if_neg hk] at hrest

theorem plays_initial (h : Plays X t rs) (hp : rs' <+: rs) : Plays X t rs' := by
  induction rs' generalizing t rs with
  | nil => trivial
  | cons r rs' ih =>
    obtain ⟨rest, rfl⟩ := hp
    exact ⟨h.1, ih h.2 (prefix_append rs' rest)⟩

/-! ## The last record that names the attribute -/

section

variable (name)

/-- A record that names the attribute: the value it sets, or a deletion. -/
def opOn : LogRecord → Option (Option Text)
  | .setAttribute _ lname value => if caseEq lname name then some (some value) else none
  | .deleteAttribute _ lname => if caseEq lname name then some none else none
  | _ => none

variable (rs)

def lastOp : Option (Option Text) :=
  rs.foldl (fun o r => (opOn name r).or o) none

/-- The type name of the last `NewClassAd`, and the last record of the attribute behind it. -/
def sinceNew : Option (Text × Option (Option Text)) :=
  rs.foldl (fun w r => match r with
    | .newClassAd _ mytype => some (mytype, none)
    | r => w.map fun (mytype, o) => (mytype, (opOn name r).or o)) none

theorem lastOp_concat : lastOp name (rs ++ [r]) = (opOn name r).or (lastOp name rs) := by
  simp [lastOp]

theorem sinceNew_concat : sinceNew name (rs ++ [r]) = match r with
      | .newClassAd _ mytype => some (mytype, none)
      | r => (sinceNew name rs).map fun (mytype, o) => (mytype, (opOn name r).or o) := by
  simp [sinceNew]

theorem examined_concat : examined name (rs ++ [r]) = examineStep name (examined name rs) r := by
  simp [examined]

/-- The flags for the value follow the last record that names the attribute. -/
theorem examined_val :
    ((examined name rs).valDeleted, (examined name rs).valFound, (examined name rs).val) =
      match lastOp name rs with
      | none => (false, false, none)
      | some none => (true, false, none)
      | some (some v) => (false, true, some v) := by
  induction rs using reverseRecOn with
  | nil => rfl
  | append_singleton rs r ih =>
    rw [examined_concat, lastOp_concat]
    cases r with
    | newClassAd key mytype =>
      simp only [examineStep, opOn, none_or, ← ih]
      split_ifs <;> rfl
    | setAttribute key lname value | deleteAttribute key lname =>
      by_cases hc : caseEq lname name = true
      · simp [examineStep, opOn, hc]
      · simpa [examineStep, opOn, hc] using ih
    | destroyClassAd key | beginTransaction | endTransaction comment
    | logHistoricalSequenceNumber seq timestamp => simpa [examineStep, opOn] using ih

end

/-- The flag for the ad is set only while there is no ad. -/
theorem examined_adDeleted (h : AttrPlays X name v rs)
    (hdel : (examined name rs).adDeleted = true) :
    rs.foldl (attrStep X name) v = none := by
  induction rs using reverseRecOn with
  | nil => simp [examined] at hdel
  | append_singleton rs r ih =>
    obtain ⟨hrs, hr, -⟩ := attrPlays_append.mp h
    rw [examined_concat] at hdel
    rw [foldl_append]
    cases r with
    | newClassAd key mytype =>
      simp only [examineStep] at hdel
      split_ifs at hdel with hd
      exact absurd hdel hd
    | destroyClassAd key => rfl
    | setAttribute key lname value | deleteAttribute key lname =>
      refine absurd (ih hrs ?_) hr.1
      simp only [examineStep] at hdel
      split_ifs at hdel <;> exact hdel
    | beginTransaction | endTransaction comment | logHistoricalSequenceNumber seq timestamp =>
      exact ih hrs hdel

/-- **The answer is the last record's**, for an ad that exists at the end. -/
theorem examine_eq (h : AttrPlays X name v (tr.entriesOf key))
    (hex : (tr.entriesOf key).foldl (attrStep X name) v ≠ none) :
    examineLogTransaction tr key name = match lastOp name (tr.entriesOf key) with
      | none => (0, none)
      | some none => (-1, none)
      | some (some val) => (1, some val) := by
  have hdel : (examined name (tr.entriesOf key)).adDeleted = false := by
    by_contra hd
    exact hex (examined_adDeleted h (by simpa using hd))
  have hval := examined_val name (tr.entriesOf key)
  simp only [examineLogTransaction]
  split at hval <;> simp_all

/-! ## The attribute after the commit -/

/-- The attribute, from the last record that decides it. -/
def settled (X : Exprs E) (name : Text) (v : Option (Option E)) (rs : List LogRecord) :
    Option (Option E) :=
  match sinceNew name rs, lastOp name rs with
  | none, none => v
  | none, some o => some (o.bind X.parseCached)
  | some (mytype, none), _ => some ((newAd X mytype).find name)
  | some (_, some o), _ => some (o.bind X.parseCached)

/-- **The attribute after the commit** of an ad that exists then. -/
theorem foldl_attrStep_eq (h : AttrPlays X name v rs) (hex : rs.foldl (attrStep X name) v ≠ none) :
    rs.foldl (attrStep X name) v = settled X name v rs := by
  induction rs using reverseRecOn with
  | nil => rfl
  | append_singleton rs r ih =>
    obtain ⟨hrs, -, -⟩ := attrPlays_append.mp h
    rw [foldl_append] at hex ⊢
    rw [settled, sinceNew_concat, lastOp_concat]
    cases r with
    | newClassAd key mytype => rfl
    | destroyClassAd key => exact absurd rfl hex
    | setAttribute key lname value | deleteAttribute key lname =>
      rw [settled] at ih
      by_cases hc : caseEq lname name = true
      · cases hs : sinceNew name rs <;> simp [opOn, hc]
      · cases hs : sinceNew name rs <;> simp_all [opOn]
    | beginTransaction | endTransaction comment | logHistoricalSequenceNumber seq timestamp =>
      rw [settled] at ih
      cases hs : sinceNew name rs <;> simp_all [opOn]

theorem lastOp_of_sinceNew {o : Option Text}
    (h : sinceNew name rs = some (mytype, some o)) : lastOp name rs = some o := by
  induction rs using reverseRecOn generalizing o with
  | nil => simp [sinceNew] at h
  | append_singleton rs r ih =>
    rw [sinceNew_concat] at h
    rw [lastOp_concat]
    cases hop : opOn name r with
    | none =>
      cases r <;> simp_all
    | some o' =>
      cases r <;> simp [opOn] at hop <;> simp_all [opOn]

theorem exists_set_of_lastOp
    (h : AttrPlays X name v rs) {val : Text} (hlast : lastOp name rs = some (some val)) :
    X.parseCached val ≠ none ∧ ∃ key lname, .setAttribute key lname val ∈ rs ∧
      caseEq lname name = true := by
  induction rs using reverseRecOn with
  | nil => simp [lastOp] at hlast
  | append_singleton rs r ih =>
    obtain ⟨hrs, hr, -⟩ := attrPlays_append.mp h
    rw [lastOp_concat] at hlast
    cases hop : opOn name r with
    | none =>
      rw [hop] at hlast
      obtain ⟨hp, key, lname, hmem, hc⟩ := ih hrs hlast
      exact ⟨hp, key, lname, by simp [hmem], hc⟩
    | some o =>
      obtain rfl : o = some val := by simpa [hop] using hlast
      cases r <;> simp only [opOn, reduceCtorEq] at hop <;> split_ifs at hop with hc <;>
        simp only [some.injEq, reduceCtorEq] at hop
      subst hop
      exact ⟨hr.2 hc, _, _, mem_append_right _ (mem_singleton_self _), hc⟩

theorem exists_had_of_lastOp (h : AttrPlays X name v rs) (hlast : lastOp name rs = some none) :
    ∃ rs', rs' <+: rs ∧ ∃ e, rs'.foldl (attrStep X name) v = some (some e) := by
  induction rs using reverseRecOn with
  | nil => simp [lastOp] at hlast
  | append_singleton rs r ih =>
    obtain ⟨hrs, hr, -⟩ := attrPlays_append.mp h
    rw [lastOp_concat] at hlast
    cases hop : opOn name r with
    | none =>
      rw [hop] at hlast
      obtain ⟨rs', hpre, he⟩ := ih hrs hlast
      exact ⟨rs', hpre.trans (prefix_append _ _), he⟩
    | some o =>
      obtain rfl : o = none := by simpa [hop] using hlast
      refine ⟨rs, prefix_append _ _, ?_⟩
      cases r <;> simp only [opOn, reduceCtorEq] at hop <;> split_ifs at hop with hc <;>
        simp only [some.injEq, reduceCtorEq] at hop
      have hv := hr.2 hc
      rcases hfold : rs.foldl (attrStep X name) v with _ | _ | e
      · exact absurd hfold hr.1
      · exact absurd hfold hv
      · exact ⟨e, rfl⟩

/-- An attribute that no record names comes from the table or from a `NewClassAd`. -/
theorem foldl_attrStep_of_lastOp
    (hlast : lastOp name rs = none) (h : rs.foldl (attrStep X name) v = some (some e)) :
    v = some (some e) ∨ ∃ key mytype, .newClassAd key mytype ∈ rs ∧
      (newAd X mytype).find name = some e := by
  induction rs using reverseRecOn with
  | nil => exact .inl h
  | append_singleton rs r ih =>
    rw [lastOp_concat, or_eq_none_iff] at hlast
    rw [foldl_append] at h
    have hsame : rs.foldl (attrStep X name) v = some (some e) → v = some (some e) ∨
        ∃ key mytype, .newClassAd key mytype ∈ rs ++ [r] ∧ (newAd X mytype).find name = some e := by
      intro hrs
      refine (ih hlast.2 hrs).imp_right ?_
      rintro ⟨key, mytype, hmem, he⟩
      exact ⟨key, mytype, by simp [hmem], he⟩
    cases r with
    | newClassAd key mytype => exact .inr ⟨key, mytype, by simp, by simpa using h⟩
    | destroyClassAd key => simp at h
    | setAttribute key lname value | deleteAttribute key lname =>
      have hc : ¬ caseEq lname name = true := fun hc => by simp [opOn, hc] at hlast
      exact hsame (by simpa [hc] using h)
    | beginTransaction | endTransaction comment | logHistoricalSequenceNumber seq timestamp =>
      exact hsame h

theorem lastOp_eq_none_iff : lastOp name rs = none ↔ ∀ r ∈ rs, opOn name r = none := by
  induction rs using reverseRecOn with
  | nil => simp [lastOp]
  | append_singleton rs r ih =>
    rw [lastOp_concat, or_eq_none_iff, ih]
    simp [or_imp, forall_and, and_comm]

theorem sinceNew_eq_none_iff :
    sinceNew name rs = none ↔ ∀ key mytype, .newClassAd key mytype ∉ rs := by
  induction rs using reverseRecOn with
  | nil => simp [sinceNew]
  | append_singleton rs r ih =>
    rw [sinceNew_concat]
    cases r with
    | newClassAd key mytype =>
      simp only [reduceCtorEq, false_iff, not_forall]
      exact ⟨key, mytype, by simp⟩
    | _ => simp [ih]

theorem mem_of_sinceNew {o : Option (Option Text)} (h : sinceNew name rs = some (mytype, o)) :
    ∃ key, .newClassAd key mytype ∈ rs := by
  induction rs using reverseRecOn generalizing o with
  | nil => simp [sinceNew] at h
  | append_singleton rs r ih =>
    rw [sinceNew_concat] at h
    cases r with
    | newClassAd key mytype' =>
      obtain ⟨rfl, -⟩ : mytype' = mytype ∧ none = o := by simpa using h
      exact ⟨key, by simp⟩
    | _ =>
      simp only [map_eq_some_iff] at h
      obtain ⟨⟨t, o'⟩, hs, ho⟩ := h
      obtain ⟨rfl, -⟩ := Prod.mk.inj ho
      obtain ⟨key, hmem⟩ := ih hs
      exact ⟨key, by simp [hmem]⟩

/-! ## Agreement with the commit -/

/-- The transaction says what the attribute is: it makes the ad, or it sets the attribute. -/
def Determines (tr : Transaction) (key name : Text) : Prop :=
  ∃ r ∈ tr.entriesOf key, (∃ k mytype, r = .newClassAd k mytype) ∨
    ∃ k lname v, r = .setAttribute k lname v ∧ caseEq lname name = true

/-- The ad has the attribute in the table or after some of the records. -/
def Had (X : Exprs E) (t : Table E) (tr : Transaction) (key name : Text) : Prop :=
  ∃ rs, rs <+: tr.orderedOpLog ∧ ∃ e, attrOf (playAll X t rs) key name = some (some e)

/-- The answer of a lookup on the table `t` agrees with the table `t'` after the commit. -/
structure LookupAgrees (X : Exprs E) (t t' : Table E) (tr : Transaction) (key name : Text)
    (answer : ℤ × Option Text) : Prop where
  found : answer.1 = 1 ↔ Determines tr key name ∧ ∃ e, attrOf t' key name = some (some e)
  value : answer.1 = 1 → ∃ v, answer.2 = some v ∧ attrOf t' key name = some (X.parseCached v)
  deleted : answer.1 = -1 ↔ attrOf t' key name = some none ∧ Had X t tr key name
  unchanged : answer.1 = 0 → (attrOf t' key name).join = (attrOf t key name).join

/-- There is no `NewClassAd` for the key, or a record behind the last one names the attribute;
otherwise the lookup is right only by coincidence. -/
def NewSettled (X : Exprs E) (t : Table E) (tr : Transaction) (key name : Text) : Prop :=
  match sinceNew name (tr.entriesOf key), lastOp name (tr.entriesOf key) with
  | none, _ => True
  | some (_, some _), _ => True
  | some (mytype, none), some (some v) => (newAd X mytype).find name = X.parseCached v
  | some (mytype, none), some none => (newAd X mytype).find name = none
  | some (_, none), none => (∀ e, attrOf t key name ≠ some (some e)) ∧
      ∀ k mytype, .newClassAd k mytype ∈ tr.entriesOf key → (newAd X mytype).find name = none

theorem entriesOf_eq_ofKey : tr.entriesOf key = ofKey key tr.orderedOpLog := tr.entriesOf_eq key

theorem exists_prefix_ofKey {key : Text} {rs q : List LogRecord} (h : q <+: ofKey key rs) :
    ∃ rs', rs' <+: rs ∧ ofKey key rs' = q := by
  induction rs generalizing q with
  | nil => exact ⟨[], nil_prefix, (prefix_nil.mp h).symm⟩
  | cons r rs ih =>
    by_cases hk : r.key.getD [] = key
    · rw [ofKey, filter_cons_of_pos (by simpa using hk)] at h
      cases q with
      | nil => exact ⟨[], nil_prefix, rfl⟩
      | cons a q =>
        obtain ⟨rfl, hq⟩ := cons_prefix_cons.mp h
        obtain ⟨rs', hp, rfl⟩ := ih hq
        exact ⟨a :: rs', cons_prefix_cons.mpr ⟨rfl, hp⟩, by simp [hk]⟩
    · rw [ofKey, filter_cons_of_neg (by simpa using hk)] at h
      obtain ⟨rs', hp, rfl⟩ := ih h
      exact ⟨r :: rs', cons_prefix_cons.mpr ⟨rfl, hp⟩, by simp [hk]⟩

section

variable (h : Plays X t tr.orderedOpLog)
include h

theorem had_iff : Had X t tr key name ↔ ∃ q, q <+: tr.entriesOf key ∧
      ∃ e, q.foldl (attrStep X name) (attrOf t key name) = some (some e) := by
  rw [entriesOf_eq_ofKey]
  constructor
  · rintro ⟨rs, hp, e, he⟩
    rw [attrOf_playAll (plays_initial h hp)] at he
    exact ⟨_, hp.filter _, e, he⟩
  · rintro ⟨q, hq, e, he⟩
    obtain ⟨rs, hp, rfl⟩ := exists_prefix_ofKey hq
    exact ⟨rs, hp, e, by rw [attrOf_playAll (plays_initial h hp)]; exact he⟩

theorem had_of_new {key name k mytype : Text} (hmem : .newClassAd k mytype ∈ tr.entriesOf key)
    (he : (newAd X mytype).find name = some e) : Had X t tr key name := by
  obtain ⟨pre, post, hsplit⟩ := append_of_mem hmem
  refine (had_iff h).mpr ⟨pre ++ [.newClassAd k mytype], ⟨post, by simp [hsplit]⟩, e, ?_⟩
  rw [foldl_append, foldl_cons, foldl_nil, attrStep, he]

theorem not_had
    (hlast : lastOp name (tr.entriesOf key) = none) (ht : ∀ e, attrOf t key name ≠ some (some e))
    (hnew : ∀ k mytype, .newClassAd k mytype ∈ tr.entriesOf key →
      (newAd X mytype).find name = none) : ¬ Had X t tr key name := by
  rw [had_iff h]
  rintro ⟨q, hq, e, he⟩
  have hlastq : lastOp name q = none :=
    lastOp_eq_none_iff.mpr fun r hr => lastOp_eq_none_iff.mp hlast r (hq.subset hr)
  rcases foldl_attrStep_of_lastOp hlastq he with hv | ⟨k, mytype, hm, hf⟩
  · exact ht e hv
  · rw [hnew k mytype (hq.subset hm)] at hf
    cases hf

end

theorem table_commitTransaction {log log' : ClassAdLog E}
    (htr : log.activeTransaction = some tr) {comment : Option Text}
    (h : commitTransaction X log comment = some log') :
    log'.table = playAll X log.table tr.orderedOpLog := by
  have hrecords : ∀ (rs : List LogRecord) (l l' : ClassAdLog E),
      commitRecords X l rs = some l' → l'.table = playAll X l.table rs := by
    intro rs
    induction rs with
    | nil => rintro l l' ⟨⟩; rfl
    | cons r rs ih =>
      intro l l' hl
      obtain ⟨bytes, -, hb⟩ := bind_eq_some_iff.mp hl
      exact ih _ _ hb
  simp only [commitTransaction, htr] at h
  split_ifs at h with hempty
  · obtain rfl := some.inj h
    rw [isEmpty_iff.mp hempty]
    rfl
  · obtain ⟨l', hl, rfl⟩ := map_eq_some_iff.mp h
    have := hrecords _ _ _ hl
    simpa using this

theorem lookupAgrees_found {key name v : Text}
    (hdet : Determines tr key name) (hv : X.parseCached v = some e)
    (ht' : attrOf t' key name = some (some e)) : LookupAgrees X t t' tr key name (1, some v) where
  found := by simp [hdet, ht']
  value := fun _ => ⟨v, rfl, by rw [ht', hv]⟩
  deleted := by simp [ht']
  unchanged := by simp

theorem lookupAgrees_deleted (ht' : attrOf t' key name = some none) (hhad : Had X t tr key name) :
    LookupAgrees X t t' tr key name (-1, none) where
  found := by simp [ht']
  value := by simp
  deleted := by simp [ht', hhad]
  unchanged := by simp

theorem lookupAgrees_unchanged
    (hdet : ∀ e, attrOf t' key name = some (some e) → ¬ Determines tr key name)
    (hhad : attrOf t' key name = some none → ¬ Had X t tr key name)
    (ht' : (attrOf t' key name).join = (attrOf t key name).join) :
    LookupAgrees X t t' tr key name (0, none) where
  found := by
    simp only [zero_ne_one, false_iff, not_and, not_exists]
    exact fun hd e he => hdet e he hd
  value := by simp
  deleted := by
    simp only [show (0 : ℤ) ≠ -1 by decide, false_iff, not_and]
    exact hhad
  unchanged := fun _ => ht'

theorem not_determines
    (hs : sinceNew name (tr.entriesOf key) = none) (hl : lastOp name (tr.entriesOf key) = none) :
    ¬ Determines tr key name := by
  rintro ⟨r, hr, ⟨k, mytype, rfl⟩ | ⟨k, lname, v, rfl, hc⟩⟩
  · exact sinceNew_eq_none_iff.mp hs k mytype hr
  · have := lastOp_eq_none_iff.mp hl _ hr
    simp [opOn, hc] at this

/-- **Reads inside a transaction agree with its commit exactly when the records settle the
attribute**, if every record takes effect and the ad exists after the commit. -/
theorem lookupAgrees_iff (X : Exprs E) (log log' : ClassAdLog E) (tr : Transaction)
    (htr : log.activeTransaction = some tr) (hvalid : Plays X log.table tr.orderedOpLog)
    (comment : Option Text) (hcommit : commitTransaction X log comment = some log')
    (key name : Text) (hex : log'.table.find key ≠ none) :
    LookupAgrees X log.table log'.table tr key name (lookupInTransaction log key (some name)) ↔
      NewSettled X log.table tr key name := by
  set rs := tr.entriesOf key with hrs
  have hplays : AttrPlays X name (attrOf log.table key name) rs := by
    rw [hrs, entriesOf_eq_ofKey]
    exact attrPlays_of_plays hvalid
  have hfold : attrOf log'.table key name =
      rs.foldl (attrStep X name) (attrOf log.table key name) := by
    rw [table_commitTransaction htr hcommit, attrOf_playAll hvalid, hrs, entriesOf_eq_ofKey]
  have hne : rs.foldl (attrStep X name) (attrOf log.table key name) ≠ none := by
    rw [← hfold]
    simpa [attrOf] using hex
  have ht' := hfold.trans (foldl_attrStep_eq hplays hne)
  have hhad : lastOp name rs = some none → Had X log.table tr key name := fun hl =>
    (had_iff hvalid).mpr (exists_had_of_lastOp hplays hl)
  have hset : ∀ v, lastOp name rs = some (some v) → X.parseCached v ≠ none ∧
      Determines tr key name := by
    intro v hl
    obtain ⟨hp, k, lname, hm, hc⟩ := exists_set_of_lastOp hplays hl
    exact ⟨hp, _, hm, .inr ⟨k, lname, v, rfl, hc⟩⟩
  have hdet : ∀ mytype o, sinceNew name rs = some (mytype, o) → Determines tr key name := by
    intro mytype o hs
    obtain ⟨k, hm⟩ := mem_of_sinceNew hs
    exact ⟨_, hm, .inl ⟨k, mytype, rfl⟩⟩
  have hlookup : lookupInTransaction log key (some name) = examineLogTransaction tr key name := by
    simp [lookupInTransaction, htr]
  rw [hlookup, examine_eq hplays hne, NewSettled]
  rw [settled] at ht'
  cases hs : sinceNew name rs with
  | none =>
    rw [hs] at ht'
    refine iff_of_true ?_ trivial
    rcases hl : lastOp name rs with _ | _ | v <;> rw [hl] at ht' <;> dsimp only at ht'
    · refine lookupAgrees_unchanged (fun _ _ => not_determines hs hl) (fun h0 => ?_) (by rw [ht'])
      refine not_had hvalid hl (fun e he => ?_) fun k mytype hm =>
        absurd hm (sinceNew_eq_none_iff.mp hs k mytype)
      rw [← ht', h0] at he
      cases he
    · exact lookupAgrees_deleted ht' (hhad hl)
    · obtain ⟨hp, hd⟩ := hset v hl
      obtain ⟨e, he⟩ := ne_none_iff_exists'.mp hp
      exact lookupAgrees_found hd he (by rw [ht', bind_some, he])
  | some w =>
    obtain ⟨mytype, o⟩ := w
    cases o with
    | some o =>
      rw [hs] at ht'
      rw [lastOp_of_sinceNew hs] at ⊢
      dsimp only at ht'
      refine iff_of_true ?_ trivial
      cases o with
      | none => exact lookupAgrees_deleted ht' (hhad (lastOp_of_sinceNew hs))
      | some v =>
        obtain ⟨hp, hd⟩ := hset v (lastOp_of_sinceNew hs)
        obtain ⟨e, he⟩ := ne_none_iff_exists'.mp hp
        exact lookupAgrees_found hd he (by rw [ht', bind_some, he])
    | none =>
      rw [hs] at ht'
      rcases hl : lastOp name rs with _ | _ | v <;> rw [hl] at ht' <;> dsimp only at ht'
      · constructor
        · intro h
          have hnone : attrOf log'.table key name = some none := by
            cases hf : (newAd X mytype).find name with
            | none => rw [ht', hf]
            | some e => exact absurd (h.found.mpr ⟨hdet _ _ hs, e, by rw [ht', hf]⟩) (by decide)
          have hnot : ¬ Had X log.table tr key name := fun hh =>
            absurd (h.deleted.mpr ⟨hnone, hh⟩) (by decide)
          refine ⟨fun e he => hnot ⟨[], nil_prefix, e, he⟩, fun k mytype' hm => ?_⟩
          cases hf : (newAd X mytype').find name with
          | none => rfl
          | some e => exact absurd (had_of_new hvalid hm hf) hnot
        · rintro ⟨htab, hnew⟩
          obtain ⟨k, hm⟩ := mem_of_sinceNew hs
          rw [hnew k mytype hm] at ht'
          refine lookupAgrees_unchanged (by simp [ht']) (fun _ => not_had hvalid hl htab hnew) ?_
          rcases hv : attrOf log.table key name with _ | _ | e
          · rw [ht']; rfl
          · rw [ht']
          · exact absurd hv (htab e)
      · constructor
        · intro h
          have := (h.deleted.mp rfl).1
          rw [ht'] at this
          exact some.inj this
        · intro h
          exact lookupAgrees_deleted (by rw [ht', h]) (hhad hl)
      · obtain ⟨hp, hd⟩ := hset v hl
        obtain ⟨e, he⟩ := ne_none_iff_exists'.mp hp
        constructor
        · intro h
          obtain ⟨v', hv', hval⟩ := h.value rfl
          obtain rfl := some.inj hv'
          rw [ht'] at hval
          exact some.inj hval
        · intro h
          exact lookupAgrees_found hd he (by rw [ht', h, he])

def sampleLog (rs : List LogRecord) : ClassAdLog Text where
  table := FlatMap.empty.put ['k'] (newAd textExprs ['t'])
  file := []
  activeTransaction := some (rs.foldl Transaction.appendLog .empty)

/-- An attribute that was set is found with its value. -/
theorem lookupAgrees_set :
    LookupAgrees textExprs (sampleLog [.setAttribute ['k'] ['a'] ['2']]).table
      ((commitTransaction textExprs (sampleLog [.setAttribute ['k'] ['a'] ['2']]) none).get
        (by decide)).table
      (Transaction.empty.appendLog (.setAttribute ['k'] ['a'] ['2'])) ['k'] ['a']
      (lookupInTransaction (sampleLog [.setAttribute ['k'] ['a'] ['2']]) ['k'] (some ['a'])) :=
  (lookupAgrees_iff textExprs _ _ _ rfl (by decide) none (some_get _).symm ['k'] ['a']
    (by decide)).mpr trivial

/-- Behind a `NewClassAd` a lookup still finds the value that was set before. -/
theorem lookup_stale_value : Plays textExprs (sampleLog []).table
        [.setAttribute ['k'] ['a'] ['2'], .destroyClassAd ['k'], .newClassAd ['k'] ['t']] ∧
      lookupInTransaction (sampleLog [.setAttribute ['k'] ['a'] ['2'], .destroyClassAd ['k'],
        .newClassAd ['k'] ['t']]) ['k'] (some ['a']) = (1, some ['2']) ∧
      (commitTransaction textExprs (sampleLog [.setAttribute ['k'] ['a'] ['2'],
        .destroyClassAd ['k'], .newClassAd ['k'] ['t']]) none).map
          (fun log => attrOf log.table ['k'] ['a']) = some (some none) := by
  refine ⟨?_, ?_, ?_⟩ <;> decide

/-! ## Ads that a transaction makes and destroys -/

variable {log log' : ClassAdLog E}

/-- One record of the key in the loop of `AdExistsInTableOrTransaction`. -/
def adExistsStep (adexists : Bool) : LogRecord → Bool
  | .newClassAd _ _ => true
  | .destroyClassAd _ => false
  | _ => adexists

def adExistsInTableOrTransaction (log : ClassAdLog E) (key : Text) : Bool :=
  let adexists := (log.table.find key).isSome
  match log.activeTransaction with
  | none => adexists
  | some tr => (tr.entriesOf key).foldl adExistsStep adexists

/-- A record makes or destroys the ad of its key, and no other; one that fails leaves it so. -/
theorem isSome_play : ((play X t r).1.find key).isSome =
      if r.key.getD [] = key then adExistsStep (t.find key).isSome r else (t.find key).isSome := by
  cases r with
  | newClassAd k mytype =>
    simp only [play, LogRecord.key, adExistsStep]
    cases hk : t.find k with
    | none =>
      by_cases h : k = key
      · simp [h]
      · simp [h, Ne.symm h]
    | some ad =>
      by_cases h : k = key
      · simp [← h, hk]
      · simp [h]
  | destroyClassAd k =>
    simp only [play, LogRecord.key, adExistsStep]
    cases hk : t.find k with
    | none =>
      by_cases h : k = key
      · simp [← h, hk]
      · simp [h]
    | some ad =>
      by_cases h : k = key
      · simp [h]
      · simp [h, Ne.symm h]
  | setAttribute k name value =>
    simp only [play, adExistsStep, ite_self]
    cases hk : t.find k with
    | none => rfl
    | some ad =>
      cases X.parseCached value with
      | none => rfl
      | some e =>
        split_ifs
        · rfl
        · rw [FlatMap.find_put]
          by_cases h : key = k
          · simp [h, hk]
          · simp [h]
  | deleteAttribute k name =>
    simp only [play, adExistsStep, ite_self]
    cases hk : t.find k with
    | none => rfl
    | some ad =>
      by_cases h : key = k
      · simp [h, hk]
      · simp [h]
  | beginTransaction | endTransaction | logHistoricalSequenceNumber => simp [play, adExistsStep]

/-- **The records of a key decide whether its ad exists**, whatever comes between them. -/
theorem isSome_playAll :
    ((playAll X t rs).find key).isSome = (ofKey key rs).foldl adExistsStep (t.find key).isSome := by
  induction rs generalizing t with
  | nil => rfl
  | cons r rs ih =>
    rw [playAll_cons, ih, isSome_play]
    by_cases hk : r.key.getD [] = key <;> simp [ofKey, hk]

/-- **The check inside a transaction answers what the table says after its commit.** -/
theorem adExists_iff_commit {comment : Option Text}
    (hcommit : commitTransaction X log comment = some log') (key : Text) :
    adExistsInTableOrTransaction log key = true ↔ log'.table.find key ≠ none := by
  rw [← Option.isSome_iff_ne_none]
  cases htr : log.activeTransaction with
  | none =>
    simp only [commitTransaction, htr] at hcommit
    obtain rfl := Option.some.inj hcommit
    simp [adExistsInTableOrTransaction, htr]
  | some tr =>
    rw [table_commitTransaction htr hcommit, isSome_playAll]
    simp [adExistsInTableOrTransaction, htr, entriesOf_eq_ofKey]

/-- An ad that exists is made again, destroyed, and destroyed once more; another one is made. -/
theorem adExists_iff_commit_failing :
    let log := sampleLog [.newClassAd ['k'] ['t'], .newClassAd ['j'] ['t'], .destroyClassAd ['k'],
      .destroyClassAd ['k'], .setAttribute ['k'] ['a'] ['2']]
    adExistsInTableOrTransaction log ['j'] = true ∧ ¬ adExistsInTableOrTransaction log ['k'] =
      true := by
  intro log
  have h : ∃ log', commitTransaction textExprs log none = some log' ∧ log'.table.find ['j'] ≠ none ∧
      log'.table.find ['k'] = none :=
    ⟨(commitTransaction textExprs log none).get (by decide),
      (Option.some_get _).symm, by decide, by decide⟩
  obtain ⟨log', hcommit, hj, hk⟩ := h
  exact ⟨(adExists_iff_commit hcommit ['j']).mpr hj,
    fun h => (adExists_iff_commit hcommit ['k']).mp h hk⟩

end Condor.Log
