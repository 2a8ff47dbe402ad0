import Condor.Log.Recovery

/-!
# Appending — when a loaded log may be written to

After a load that does not ask for cleaning, records are appended to the file as it is. That is
right when the file ends with a line end. A file that ends inside the last word of a `NewClassAd`
record loads without complaint as well, and the next record is then glued to that word.

* **`appendSafe_iff`**.
-/

namespace Condor.Log

open List LogRecord LoadState

variable {E : Type} {X : Exprs E} {r : LogRecord} {st : LoadState E}

/-! ## Playing a sequence of records with its transactions -/

structure Replay (E : Type) where
  table : Table E
  pending : Option (List LogRecord)

/-- One record: it is played, or kept until its transaction ends. -/
def Replay.step (X : Exprs E) (st : Replay E) (r : LogRecord) : Replay E :=
  match r with
  | .beginTransaction => { st with pending := some (st.pending.getD []) }
  | .endTransaction _ => ⟨playAll X st.table (st.pending.getD []), none⟩
  | .logHistoricalSequenceNumber _ _ => st
  | r =>
    match st.pending with
    | some rs => { st with pending := some (rs ++ [r]) }
    | none => { st with table := (play X st.table r).1 }

/-- The table after a sequence of records; a transaction that does not end has no effect. -/
def replay (X : Exprs E) (t : Table E) (rs : List LogRecord) : Table E :=
  (rs.foldl (Replay.step X) ⟨t, none⟩).table

def LoadState.replay (st : LoadState E) : Replay E :=
  ⟨st.table, st.activeTransaction.map Transaction.orderedOpLog⟩

theorem replay_loadStep : (loadStep X st r).replay = st.replay.step X r := by
  cases hr : r.key with
  | some key =>
    rw [loadStep_update st (by simp [hr])]
    cases ha : st.activeTransaction <;> cases r <;>
      simp [LogRecord.key] at hr <;> simp [LoadState.replay, Replay.step, ha]
  | none =>
    cases r <;> simp [LogRecord.key] at hr
    · cases ha : st.activeTransaction <;>
        simp [loadStep, LoadState.replay, Replay.step, LoadState.warn, ha]
    · cases ha : st.activeTransaction <;>
        simp [loadStep, LoadState.replay, Replay.step, LoadState.warn, Transaction.commit, ha]
    · obtain ⟨ht, ha⟩ := loadStep_sequence st _ _
      simp only [LoadState.replay, Replay.step]
      rw [ht, ha]

theorem replay_loadSteps (rs : List LogRecord) :
    (loadSteps X st rs).replay = (rs.map readBack).foldl (Replay.step X) st.replay := by
  rw [loadSteps]
  induction rs.map readBack generalizing st with
  | nil => rfl
  | cons r rs ih => rw [foldl_cons, foldl_cons, ih, replay_loadStep]

/-! ## Appending -/

/-- The type name of the record, if it has one, is not the placeholder. -/
def LogRecord.Plain : LogRecord → Prop
  | newClassAd _ mytype => mytype ≠ emptyTypeName
  | _ => True

theorem step_readBack (h : r.Plain) (st : Replay E) : st.step X r.readBack = st.step X r := by
  cases r <;> simp_all [readBack, Plain, Replay.step]

variable {rs : List LogRecord}

theorem foldl_step_readBack (h : ∀ r ∈ rs, r.Plain) (st : Replay E) :
    (rs.map readBack).foldl (Replay.step X) st = rs.foldl (Replay.step X) st := by
  induction rs generalizing st with
  | nil => rfl
  | cons r rs ih =>
    rw [map_cons, foldl_cons, foldl_cons, step_readBack (h r (by simp)),
      ih fun x hx => h x (by simp [hx])]

/-- What is appended to the loaded file is loaded as if it was played on the loaded table. -/
def AppendSafe (X : Exprs E) (file : Text) (l : Loaded E) : Prop :=
  ∀ rs : List LogRecord, (∀ r ∈ rs, WellFormed X r ∧ r.Plain) → ∀ now,
    ∃ l', loadClassAdLog X now (file ++ rs.flatMap line) = .ok l' ∧ l'.table = replay X l.table rs

def EndsLine (file : Text) : Prop := ∀ c ∈ file.getLast?, c = '\n'

instance (file : Text) : Decidable (EndsLine file) :=
  Option.decidableForallMem file.getLast?

theorem endsLine_lines (h : ∀ r ∈ rs, WellFormed X r) : EndsLine (rs.flatMap line) := by
  rcases eq_nil_or_concat rs with rfl | ⟨rs, r, rfl⟩
  · simp [EndsLine]
  · obtain ⟨body, hb⟩ : ∃ body, line r = body ++ ['\n'] := by
      have := write_eq_line (h r (by simp))
      cases hb : writeBody r with
      | none => simp [write, hb] at this
      | some body => exact ⟨opWord r.op ++ body, by rw [line_eq hb, append_assoc]⟩
    intro c hc
    simpa [hb, eq_comm] using hc

theorem not_endsLine_of_cut (h : WellFormed X r) {q : Text} (hq : CutInTarget q r)
    (s : Text) : ¬ EndsLine (s ++ q) := by
  obtain ⟨key, mytype, t, rfl, rfl, ht⟩ := hq
  intro hend
  rcases eq_nil_or_concat t with rfl | ⟨t', c, rfl⟩
  · have := hend ' ' (by simp [newWords, ← append_assoc])
    simp at this
  · have hc := hend c (by simp)
    have hmem : c ∈ targetType mytype := ht.subset (by simp)
    exact ((isWord_targetType h.2).isLine c hmem).1 hc

theorem load_lines (h : ∀ r ∈ rs, WellFormed X r) (now : ℕ) :
    loadClassAdLog X now (rs.flatMap line) =
      .ok (finishLoad (loadSteps X (init now) rs) [] []) := by
  obtain ⟨m, hm⟩ : ∃ m, (rs.flatMap line).length + 1 = rs.length + m :=
    ⟨(rs.flatMap line).length + 1 - rs.length, by have := length_le_lines h; omega⟩
  have := loadLoop_lines h m (init now) []
  rw [append_nil, loadLoop_nil] at this
  simp only [loadClassAdLog, hm, this]

theorem replay_init (now now' : ℕ) :
    (loadSteps X (init now) rs).replay = (loadSteps X (init now') rs).replay := by
  rw [replay_loadSteps, replay_loadSteps]
  rfl

theorem finishLoad_clean {next final : Text}
    (h : (finishLoad st next final).requiresSuccessfulCleaning = false) :
    next.length = final.length ∧ st.activeTransaction = none := by
  simpa [finishLoad] using h

/-- **Whole lines may be appended to.** -/
theorem appendSafe_lines (h : ∀ r ∈ rs, WellFormed X r) {now : ℕ}
    (hclean : (loadSteps X (LoadState.init now) rs).activeTransaction = none) :
    AppendSafe X (rs.flatMap line) (finishLoad (loadSteps X (LoadState.init now) rs) [] []) := by
  intro rs' hrs' now'
  have hwf : ∀ r ∈ rs ++ rs', WellFormed X r := fun r hr =>
    (mem_append.mp hr).elim (h r) fun hr => (hrs' r hr).1
  refine ⟨_, by rw [← flatMap_append]; exact load_lines hwf now', ?_⟩
  · have hreplay : (loadSteps X (LoadState.init now') (rs ++ rs')).replay =
        rs'.foldl (Replay.step X) (loadSteps X (LoadState.init now) rs).replay := by
      rw [replay_init now' now, replay_loadSteps, map_append, foldl_append,
        ← replay_loadSteps, foldl_step_readBack fun r hr => (hrs' r hr).2]
    have htable := congrArg Replay.table hreplay
    simp only [LoadState.replay, hclean] at htable
    exact htable

/-! ## Appending behind a cut -/

theorem readBody_nil (op : LogOp) : (readBody X op).run [] = (none, []) := by
  cases op <;> rfl

theorem readLogEntry_word {w : Text} (hw : IsWord w) (recnum : ℕ) :
    readLogEntry X recnum (w ++ ['\n']) = .null [] := by
  have hread := (reads_readword hw (d := '\n') (by decide)).full []
  rw [append_nil] at hread
  simp only [readLogEntry, hread]
  cases opOfWord w with
  | none => rfl
  | some op => exact instantiate_none (readBody_nil op)

/-- **A glued record is lost**: a `DestroyClassAd` behind a cut `NewClassAd` has no effect. -/
theorem load_glued (h : ∀ r ∈ rs, WellFormed X r) {key mytype q : Text}
    (hnew : WellFormed X (.newClassAd key mytype)) (hq : CutInTarget q (.newClassAd key mytype))
    (now : ℕ) : ∃ next, loadClassAdLog X now (rs.flatMap line ++ q ++ line (.destroyClassAd key)) =
      .ok (finishLoad (loadSteps X (init now) (rs ++ [.newClassAd key mytype])) next []) := by
  obtain ⟨key', mytype', t, heq, rfl, ht⟩ := hq
  obtain ⟨rfl, rfl⟩ : key = key' ∧ mytype = mytype' := by simpa using heq
  have hword : IsWord (t ++ Nat.toDigits 10 LogOp.destroyClassAd.code) := by
    refine ⟨by simp, fun c hc => ?_⟩
    rcases mem_append.mp hc with hc | hc
    · exact (isWord_targetType hnew.2).2 c (ht.subset hc)
    · exact (isWord_toDigits _).2 c hc
  have hfile : rs.flatMap line ++ (opWord .newClassAd ++ (newWords key mytype ++ t)) ++
      line (.destroyClassAd key) = rs.flatMap line ++ (opWord .newClassAd ++ (newWords key mytype ++
        ((t ++ Nat.toDigits 10 LogOp.destroyClassAd.code) ++ [' '] ++ (key ++ ['\n'])))) := by
    rw [line_eq rfl]
    simp [opWord, op]
  obtain ⟨m, hm⟩ : ∃ m, (rs.flatMap line ++ (opWord .newClassAd ++ (newWords key mytype ++ t)) ++
      line (.destroyClassAd key)).length + 1 = rs.length + (m + 1 + 1) := by
    have := length_le_lines h
    have := length_pos_iff.mpr (line_ne_nil (X := X) (r := .destroyClassAd key) hnew.1)
    simp only [length_append]
    exact ⟨(rs.flatMap line).length - rs.length + (opWord LogOp.newClassAd).length +
      (newWords key mytype).length + t.length + (line (.destroyClassAd key)).length - 1, by omega⟩
  refine ⟨key ++ ['\n'], ?_⟩
  have hloop : loadLoop X (rs.length + (m + 1 + 1)) (init now)
      (rs.flatMap line ++ (opWord .newClassAd ++ (newWords key mytype ++ t)) ++
        line (.destroyClassAd key)) =
      .ok (loadSteps X (init now) (rs ++ [.newClassAd key mytype]), key ++ ['\n'], []) := by
    rw [hfile, loadLoop_lines h, loadLoop, readLogEntry_opWord,
      instantiate_some (run_newWords hnew _), (reads_readword hword (by decide)).full]
    simp only [loadLoop, readLogEntry_word hnew.1]
    simp [loadSteps]
  simp only [loadClassAdLog, hm, hloop]

theorem find_play_new (t : Table E) (key mytype : Text) :
    (play X t (.newClassAd key mytype)).1.find key ≠ none := by
  simp only [play]
  split
  next h => simp
  next ad h => simp [h]

theorem find_play_destroy (t : Table E) (key : Text) :
    (play X t (.destroyClassAd key)).1.find key = none := by
  simp only [play]
  split
  next h => exact h
  next ad h => simp

theorem find_loadSteps_new {key mytype : Text}
    (h : (loadSteps X st (rs ++ [.newClassAd key mytype])).activeTransaction = none) :
    (loadSteps X st (rs ++ [.newClassAd key mytype])).table.find key ≠ none := by
  have hstep : loadSteps X st (rs ++ [.newClassAd key mytype]) =
      loadStep X (loadSteps X st rs) (newClassAd key mytype).readBack := by
    simp [loadSteps]
  rw [hstep, loadStep_update _ rfl] at h ⊢
  cases ha : (loadSteps X st rs).activeTransaction with
  | some tr => simp [ha] at h
  | none => exact find_play_new _ key _

/-- **A loaded log may be appended to exactly when it has no unfinished line**: whatever is appended
loads as if it was played on the table, if and only if the file is empty or ends with a line end. -/
theorem appendSafe_iff (X : Exprs E) (seq birth now : ℕ) (us : List LogUnit)
    (hus : ∀ u ∈ us, u.WellFormed X) (file : Text) (hfile : file <+: fileOf seq birth us)
    (l : Loaded E) (hl : loadClassAdLog X now file = .ok l)
    (hclean : l.requiresSuccessfulCleaning = false) : AppendSafe X file l ↔ EndsLine file := by
  have hwf := wellFormed_fileRecords seq birth hus
  obtain ⟨n, next, hload, htail⟩ := loadLoop_prefix hwf hfile (init now)
  obtain rfl : finishLoad _ next [] = l := by simpa [loadClassAdLog, hload] using hl
  obtain ⟨hnext, hopen⟩ := finishLoad_clean hclean
  have htake : ∀ m, ∀ r ∈ (fileRecords seq birth us).take m, WellFormed X r :=
    fun m r hr => hwf r (mem_of_mem_take hr)
  cases htail with
  | clean _ h =>
    subst h
    exact iff_of_true (appendSafe_lines (htake n) hopen) (endsLine_lines (htake n))
  | torn _ q h hq => exact absurd (length_eq_zero_iff.mp hnext) hq
  | glued n q r h hr hq =>
    subst h
    have hrwf := hwf r (mem_of_getElem? hr)
    refine iff_of_false (fun hsafe => ?_) (not_endsLine_of_cut hrwf hq _)
    obtain ⟨key, mytype, rfl⟩ : ∃ key mytype, r = .newClassAd key mytype := by
      obtain ⟨key, mytype, -, h, -⟩ := hq
      exact ⟨key, mytype, h⟩
    have htaken : (fileRecords seq birth us).take (n + 1) =
        (fileRecords seq birth us).take n ++ [.newClassAd key mytype] := by
      simp [take_add_one, hr]
    rw [htaken] at hopen
    -- the ad is in the loaded table, so that destroying it has an effect
    have hfind := find_loadSteps_new hopen
    obtain ⟨l', hl', htable⟩ := hsafe [.destroyClassAd key]
      (forall_mem_singleton.mpr ⟨hrwf.1, trivial⟩) now
    obtain ⟨next, hglued⟩ := load_glued (htake n) hrwf hq now
    rw [flatMap_singleton, hglued] at hl'
    obtain rfl := Except.ok.inj hl'
    apply hfind
    have := congrArg (FlatMap.find · key) htable
    exact this.trans (find_play_destroy _ key)

/-- A log that was cut behind a transaction may be appended to. -/
theorem appendSafe_iff_clean :
    AppendSafe textExprs (fileOf 1 0 [.transaction [.newClassAd ['k'] ['t']] none])
      (finishLoad (loadSteps textExprs (init 0)
        (fileRecords 1 0 [.transaction [.newClassAd ['k'] ['t']] none])) [] []) :=
  (appendSafe_iff textExprs 1 0 0 [.transaction [.newClassAd ['k'] ['t']] none]
    (by decide) _ (prefix_refl _) _
    (load_lines (wellFormed_fileRecords 1 0 (by decide)) 0) (by decide)).mpr (by decide)

/-- A file cut inside a `NewClassAd` record still has the ad when a record that destroys it is
appended. -/
theorem append_glued_lost : ∃ file, file <+: fileOf 1 0 [.record (.newClassAd ['k'] ['t'])] ∧
      (loadClassAdLog textExprs 0 file).toOption.map Loaded.requiresSuccessfulCleaning =
      some false ∧ (loadClassAdLog textExprs 0 (file ++ line (.destroyClassAd ['k']))).toOption.map
          (fun l => (l.table.find ['k']).isSome) = some true ∧
      (loadClassAdLog textExprs 0 file).toOption.map
          (fun l => ((replay textExprs l.table [.destroyClassAd ['k']]).find ['k']).isSome) =
        some false :=
  ⟨(fileOf 1 0 [.record (.newClassAd ['k'] ['t'])]).take 36, take_prefix _ _,
    by decide, by decide, by decide⟩

end Condor.Log
