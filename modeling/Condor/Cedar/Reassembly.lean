import Condor.Cedar.SafeMsg
import Mathlib.Algebra.BigOperators.Group.Finset.Basic
import Mathlib.Data.List.GetD

/-!
# CEDAR over UDP — the packets of a message come in any order

* `addPacket_new`, `addPacket_again`, **`addPackets_spec`**.
-/

namespace Condor.Cedar

open Nat Finset
/-! ## Packets with their numbers -/

/-- The packets of a long message. -/
structure Bodies (bodies : List (List Byte)) : Prop where
  several : 2 ≤ bodies.length
  few : bodies.length < 2 ^ 16
  ne_nil : ∀ b ∈ bodies, b ≠ []
  length_lt : ∀ b ∈ bodies, b.length < 2 ^ 16

def bodyAt (bodies : List (List Byte)) (i : ℕ) : List Byte := bodies.getD i []

variable {bodies : List (List Byte)} {i : ℕ}

theorem bodyAt_mem (hi : i < bodies.length) : bodyAt bodies i ∈ bodies := by
  rw [bodyAt, List.getD_eq_getElem _ _ hi]
  exact List.getElem_mem hi

theorem mem_fragments (h : Bodies bodies) {f : Fragment} :
    f ∈ OutMsg.fragments bodies ↔ ∃ i < bodies.length,
      f = ⟨i + 1 = bodies.length, i, (bodyAt bodies i).length, bodyAt bodies i⟩ := by
  have hfrag : ∀ i (hi : i < bodies.length), OutMsg.fragment bodies.length i bodies[i] =
      ⟨i + 1 = bodies.length, i, (bodyAt bodies i).length, bodyAt bodies i⟩ := by
    intro i hi
    have hlen := h.length_lt _ (bodyAt_mem hi)
    have hfew := h.few
    rw [bodyAt, List.getD_eq_getElem _ _ hi] at hlen ⊢
    rw [OutMsg.fragment, mod_eq_of_lt (by omega), mod_eq_of_lt hlen]
  rw [OutMsg.fragments, List.mem_mapIdx]
  constructor <;>
  · rintro ⟨i, hi, rfl⟩
    exact ⟨i, hi, hfrag i hi⟩

/-! ## The directory -/

namespace InMsg

variable {m : InMsg} {pages : List DirPage}

def Numbered (pages : List DirPage) : Prop := ∀ j (h : j < pages.length), pages[j].dirNo = j

def entryAt (pages : List DirPage) (i : ℕ) : DEntry := Paged.lookup {} (pages.map DirPage.dEntry) i

theorem entryAt_page {j : ℕ} (hj : j < pages.length) (k : Fin safeMsgNoOfDirEntry) :
    entryAt pages (safeMsgNoOfDirEntry * j + k) = pages[j].dEntry k := by
  rw [entryAt, Paged.lookup_index (by simpa using hj), List.getElem_map]

theorem entryAt_index {seq : ℕ} (hj : seq / safeMsgNoOfDirEntry < pages.length) :
    entryAt pages seq = pages[seq / safeMsgNoOfDirEntry].dEntry (index seq) := by
  rw [← entryAt_page hj, index, Fin.val_ofNat, div_add_mod]

theorem numbered_append (h : Numbered pages) : Numbered (pages ++ [DirPage.new pages.length]) := by
  intro j hj
  rw [List.getElem_append]
  split
  · exact h j _
  · rw [List.length_append, List.length_singleton] at hj
    have hj' : j = pages.length := by omega
    subst hj'
    simp [DirPage.new]

theorem entryAt_append (pages : List DirPage) (num i : ℕ) :
    entryAt (pages ++ [DirPage.new num]) i = entryAt pages i := by
  rw [entryAt, List.map_append]
  exact Paged.lookup_append_blank i

theorem findDir_spec (hnum : Numbered m.pages) (hcur : m.curDir < m.pages.length) {dest fuel : ℕ}
    (hfuel : (m.curDir - dest) + (dest - m.curDir) < fuel) :
    ∃ pages, findDir fuel m dest = some { m with pages := pages, curDir := dest } ∧
      Numbered pages ∧ dest < pages.length ∧ ∀ i, entryAt pages i = entryAt m.pages i := by
  induction fuel generalizing m with
  | zero => omega
  | succ fuel ih =>
    have hno : m.pages[m.curDir].dirNo = m.curDir := hnum m.curDir hcur
    rw [findDir, List.getElem?_eq_getElem hcur]
    simp only [Option.bind_eq_bind, Option.bind_some, hno]
    rcases lt_trichotomy m.curDir dest with hlt | heq | hgt
    · rw [if_neg (by omega), if_pos hlt]
      by_cases hnext : m.curDir + 1 < m.pages.length
      · rw [if_pos hnext]
        exact ih hnum hnext (by dsimp only; omega)
      · rw [if_neg hnext]
        have hlen : m.curDir + 1 = m.pages.length := by omega
        have hnum' := numbered_append hnum
        rw [← hlen] at hnum'
        obtain ⟨pages, hfind, hpages, hdest, hentry⟩ :=
          ih (m := { m with
              pages := m.pages ++ [DirPage.new (m.curDir + 1)], curDir := m.curDir + 1 })
            hnum' (by simp [hlen]) (by dsimp only; omega)
        refine ⟨pages, hfind, hpages, hdest, fun i => ?_⟩
        rw [hentry i]
        exact entryAt_append m.pages (m.curDir + 1) i
    · rw [if_pos heq.symm]
      exact ⟨m.pages, by rw [← heq], hnum, heq ▸ hcur, fun i => rfl⟩
    · rw [if_neg (by omega), if_neg (by omega), if_neg (by omega)]
      exact ih hnum (by dsimp only; omega)
        (by dsimp only; omega)

theorem findDir_dirFuel (hnum : Numbered m.pages) (hcur : m.curDir < m.pages.length) (dest : ℕ) :
    ∃ pages, findDir (m.dirFuel dest) m dest = some { m with pages := pages, curDir := dest } ∧
      Numbered pages ∧ dest < pages.length ∧ ∀ i, entryAt pages i = entryAt m.pages i :=
  findDir_spec hnum hcur (by unfold dirFuel; omega)

theorem map_setEntry (k : Fin safeMsgNoOfDirEntry) (e : DEntry) :
    (m.setEntry k e).pages.map DirPage.dEntry =
      Paged.write (m.pages.map DirPage.dEntry) m.curDir k e := by
  apply List.ext_getElem
  · simp [setEntry, Paged.write]
  · intro j h1 h2
    simp only [setEntry, Paged.write, List.getElem_map, List.getElem_modify]
    split <;> rfl

theorem entryAt_setEntry (hcur : m.curDir < m.pages.length) (k : Fin safeMsgNoOfDirEntry)
    (e : DEntry) : entryAt (m.setEntry k e).pages i =
      if i = safeMsgNoOfDirEntry * m.curDir + k then e else entryAt m.pages i := by
  rw [entryAt, map_setEntry, Paged.lookup_write (by simpa using hcur)]
  rfl

theorem length_setEntry (k : Fin safeMsgNoOfDirEntry) (e : DEntry) :
    (m.setEntry k e).pages.length = m.pages.length := by
  simp [setEntry]

theorem numbered_setEntry (hnum : Numbered m.pages) (k : Fin safeMsgNoOfDirEntry) (e : DEntry) :
    Numbered (m.setEntry k e).pages := by
  intro j hj
  rw [length_setEntry] at hj
  simp only [setEntry, List.getElem_modify]
  split <;> exact hnum j hj

/-! ## The packets that have come -/

def filled (b : List Byte) : DEntry := ⟨b.length, some b⟩

/-- The packets with these numbers are in their places, and are counted. -/
structure Filed (bodies : List (List Byte)) (got : Finset ℕ) (m : InMsg) : Prop where
  sub : ∀ i ∈ got, i < bodies.length
  entry : ∀ i, entryAt m.pages i = if i ∈ got then filled (bodyAt bodies i) else {}
  received : m.received = got.card
  lastNo : m.lastNo = if bodies.length - 1 ∈ got then bodies.length - 1 else 0
  msgLen : m.msgLen = ∑ i ∈ got, (bodyAt bodies i).length
  passed : m.passed = 0
  numbered : Numbered m.pages
  curDir : m.curDir < m.pages.length
  curPacket : m.curPacket = 0
  curData : m.curData = 0

structure Collects (bodies : List (List Byte)) (got : Finset ℕ) (m : InMsg) : Prop
    extends Filed bodies got m where
  nonempty : got.Nonempty
  start : got = range bodies.length → m.curDir = 0

def fragmentAt (bodies : List (List Byte)) (i : ℕ) : Fragment :=
  ⟨i + 1 = bodies.length, i, (bodyAt bodies i).length, bodyAt bodies i⟩

variable {got : Finset ℕ}

theorem card_eq_iff (hsub : ∀ i ∈ got, i < bodies.length) :
    got.card = bodies.length ↔ got = range bodies.length := by
  have hsub : got ⊆ range bodies.length := fun i hi => mem_range.mpr (hsub i hi)
  constructor
  · exact fun h => eq_of_subset_of_card_le hsub (by simp [h])
  · rintro rfl
    exact card_range _

theorem Filed.complete_iff (hb : Bodies bodies) (h : Filed bodies got m) (hone : got.card ≠ 1) :
    m.lastNo + 1 = m.received ↔ got = range bodies.length := by
  have hseveral := hb.several
  rw [h.lastNo, h.received, ← card_eq_iff h.sub]
  by_cases hlast : bodies.length - 1 ∈ got
  · rw [if_pos hlast]
    omega
  · rw [if_neg hlast, card_eq_iff h.sub]
    constructor
    · omega
    · rintro rfl
      exact absurd (mem_range.mpr (by omega)) hlast

theorem Collects.ready_iff (hb : Bodies bodies) (h : Collects bodies got m) :
    m.ready = true ↔ got = range bodies.length := by
  have hseveral := hb.several
  rw [ready, decide_eq_true_iff, h.lastNo, h.received, ← card_eq_iff h.sub]
  by_cases hlast : bodies.length - 1 ∈ got
  · rw [if_pos hlast]
    omega
  · rw [if_neg hlast, card_eq_iff h.sub]
    constructor
    · exact fun hne => absurd rfl hne.1
    · rintro rfl
      exact absurd (mem_range.mpr (by omega)) hlast

theorem entry_place (i : ℕ) :
    safeMsgNoOfDirEntry * (i / safeMsgNoOfDirEntry) + (index i : ℕ) = i := by
  rw [index, Fin.val_ofNat, div_add_mod]

theorem Filed.store (h : Filed bodies got m) (hcur : m.curDir = i / safeMsgNoOfDirEntry)
    (hi : i < bodies.length) (hnew : i ∉ got) :
    Filed bodies (insert i got) ((m.store (fragmentAt bodies i)).count (fragmentAt bodies i)) where
  sub := by
    intro j hj
    rcases mem_insert.mp hj with rfl | hj
    · exact hi
    · exact h.sub j hj
  entry := by
    intro j
    have hplace := entry_place i
    rw [← hcur] at hplace
    refine (entryAt_setEntry h.curDir (index i) _).trans ?_
    rw [hplace, h.entry]
    simp only [fragmentAt]
    by_cases hj : j = i
    · subst hj
      simp [filled]
    · simp [hj]
  received := by
    rw [card_insert_of_notMem hnew, ← h.received]
    rfl
  lastNo := by
    change (if decide (i + 1 = bodies.length) = true then i else m.lastNo) = _
    rw [h.lastNo]
    simp only [mem_insert, decide_eq_true_eq]
    by_cases hlast : i + 1 = bodies.length
    · rw [if_pos hlast, if_pos (Or.inl (by omega))]
      omega
    · have hne : bodies.length - 1 ≠ i := by omega
      rw [if_neg hlast]
      simp [hne]
  msgLen := by
    rw [sum_insert hnew, ← h.msgLen, add_comm]
    rfl
  passed := h.passed
  numbered := numbered_setEntry h.numbered _ _
  curDir := by
    refine lt_of_lt_of_eq h.curDir (length_setEntry _ _).symm
  curPacket := h.curPacket
  curData := h.curData

theorem Filed.findDir (h : Filed bodies got m) (i : ℕ) :
    ∃ m' page, m.findDir (m.dirFuel (i / safeMsgNoOfDirEntry)) (i / safeMsgNoOfDirEntry) = some m' ∧
      Filed bodies got m' ∧ m'.curDir = i / safeMsgNoOfDirEntry ∧ m'.pages[m'.curDir]? = some page ∧
      page.dEntry (index i) = if i ∈ got then filled (bodyAt bodies i) else {} := by
  obtain ⟨pages, hfind, hpages, hdest, hentry⟩ :=
    findDir_dirFuel h.numbered h.curDir (i / safeMsgNoOfDirEntry)
  refine ⟨{ m with pages := pages, curDir := i / safeMsgNoOfDirEntry }, _, hfind, ?_, rfl,
    List.getElem?_eq_getElem hdest, ?_⟩
  · exact { h with
      entry := fun j => (hentry j).trans (h.entry j)
      numbered := hpages
      curDir := hdest }
  · rw [← entryAt_index hdest, hentry, h.entry]

theorem new_collects (hb : Bodies bodies) (hi : i < bodies.length) :
    ∃ m, new (fragmentAt bodies i) = some m ∧ Collects bodies {i} m := by
  have hnum : Numbered [DirPage.new 0] := by
    intro j hj
    have hj0 : j = 0 := by simpa using hj
    subst hj0
    rfl
  let f := fragmentAt bodies i
  obtain ⟨pages, hfind, hpages, hdest, hentry⟩ := findDir_dirFuel
    (m := ⟨f.len, if f.last then f.seq else 0, 1, 0, [DirPage.new 0], 0, 0, 0⟩)
    hnum one_pos (i / safeMsgNoOfDirEntry)
  -- the counters of a message without packets
  have hfiled : Filed bodies ∅ ⟨0, 0, 0, 0, pages, i / safeMsgNoOfDirEntry, 0, 0⟩ :=
    { sub := by simp
      entry := fun j => (hentry j).trans (entryAt_append [] 0 j)
      received := rfl
      lastNo := rfl
      msgLen := rfl
      passed := rfl
      numbered := hpages
      curDir := hdest
      curPacket := rfl
      curData := rfl }
  have hstore := hfiled.store rfl hi (notMem_empty i)
  refine ⟨_, ?_, hstore, singleton_nonempty i, ?_⟩
  · rw [new]
    refine Option.bind_eq_some_iff.mpr ⟨_, hfind, ?_⟩
    simp only [count, InMsg.store, setEntry, zero_add]
    rfl
  · intro hall
    have hseveral := hb.several
    have hcard := congrArg card hall
    rw [card_singleton, card_range] at hcard
    omega

section

variable (hb : Bodies bodies) (h : Collects bodies got m)
include hb h

theorem addPacket_again (hi : i ∈ got) :
    ∃ m', m.addPacket (fragmentAt bodies i) = some (false, m') ∧ Collects bodies got m' := by
  by_cases hready : m.ready = true
  · exact ⟨m, by rw [addPacket, if_pos hready], h⟩
  · obtain ⟨m', page, hfind, hfiled, -, hpage, hentry⟩ := h.toFiled.findDir i
    have hlen : (page.dEntry (index i)).dLen ≠ 0 := by
      rw [hentry, if_pos hi]
      exact ne_of_gt (List.length_pos_iff.mpr (hb.ne_nil _ (bodyAt_mem (h.sub i hi))))
    refine ⟨m', ?_, hfiled, h.nonempty, fun hall => absurd ((h.ready_iff hb).mpr hall) hready⟩
    rw [addPacket, if_neg hready]
    refine Option.bind_eq_some_iff.mpr ⟨_, hfind, Option.bind_eq_some_iff.mpr ⟨_, hpage, ?_⟩⟩
    exact if_neg hlen

theorem addPacket_new (hi : i < bodies.length) (hnew : i ∉ got) :
    ∃ m', m.addPacket (fragmentAt bodies i) =
      some (decide (insert i got = range bodies.length), m') ∧
      Collects bodies (insert i got) m' := by
  have hready : ¬ m.ready = true := by
    rw [h.ready_iff hb]
    rintro rfl
    exact hnew (mem_range.mpr hi)
  obtain ⟨m1, page, hfind, hfiled, hcur, hpage, hentry⟩ := h.toFiled.findDir i
  have hlen : (page.dEntry (index i)).dLen = 0 := by rw [hentry, if_neg hnew]
  have hstore := hfiled.store hcur hi hnew
  have hpos := h.nonempty.card_pos
  have hcard := card_insert_of_notMem hnew
  have hcomplete := hstore.complete_iff hb (by omega)
  have hadd : m.addPacket (fragmentAt bodies i) =
      if ((m1.store (fragmentAt bodies i)).count (fragmentAt bodies i)).lastNo + 1 =
          ((m1.store (fragmentAt bodies i)).count (fragmentAt bodies i)).received then
        some (true, { (m1.store (fragmentAt bodies i)).count (fragmentAt bodies i) with
          curDir := 0, curPacket := 0, curData := 0 })
      else some (false, (m1.store (fragmentAt bodies i)).count (fragmentAt bodies i)) := by
    rw [addPacket, if_neg hready]
    change (m.findDir (m.dirFuel (i / safeMsgNoOfDirEntry)) (i / safeMsgNoOfDirEntry)).bind _ = _
    rw [hfind, Option.bind_some, hpage]
    change (if (page.dEntry (index i)).dLen = 0 then _ else _) = _
    rw [if_pos hlen]
  by_cases hall : insert i got = range bodies.length
  · refine ⟨_, hadd.trans ((if_pos (hcomplete.mpr hall)).trans (by rw [decide_eq_true hall])), ?_⟩
    exact { hstore with
      curDir := lt_of_le_of_lt (zero_le _) hstore.curDir
      curPacket := rfl
      curData := rfl
      nonempty := insert_nonempty i got
      start := fun _ => rfl }
  · refine ⟨_, hadd.trans ((if_neg fun h => hall (hcomplete.mp h)).trans
      (by rw [decide_eq_false hall])), ?_⟩
    exact { hstore with
      nonempty := insert_nonempty i got
      start := fun h => absurd h hall }

/-- Packets come one after the other: the answer says whether this was the last one missing. -/
theorem addPackets_spec {arrivals : List ℕ} (hsub : ∀ i ∈ arrivals, i < bodies.length) :
    ∃ answers m', m.addPackets (arrivals.map (fragmentAt bodies)) = some (answers, m') ∧
      Collects bodies (got ∪ arrivals.toFinset) m' ∧ answers.length = arrivals.length ∧
      ∀ k < arrivals.length, answers[k]? =
        some (decide (got ∪ (arrivals.take (k + 1)).toFinset = range bodies.length ∧
          got ∪ (arrivals.take k).toFinset ≠ range bodies.length)) := by
  induction arrivals generalizing got m with
  | nil => exact ⟨[], m, rfl, by simpa using h, rfl, by simp⟩
  | cons i arrivals ih =>
    have hi := hsub i List.mem_cons_self
    obtain ⟨m1, hadd, hm1⟩ : ∃ m1, m.addPacket (fragmentAt bodies i) =
        some (decide (insert i got = range bodies.length ∧ got ≠ range bodies.length),
          m1) ∧ Collects bodies (insert i got) m1 := by
      by_cases hgot : i ∈ got
      · obtain ⟨m1, hadd, hm1⟩ := addPacket_again hb h hgot
        rw [insert_eq_of_mem hgot]
        refine ⟨m1, ?_, hm1⟩
        rw [hadd, decide_eq_false fun hne => hne.2 hne.1]
      · obtain ⟨m1, hadd, hm1⟩ := addPacket_new hb h hi hgot
        have hne : got ≠ range bodies.length := by
          rintro rfl
          exact hgot (mem_range.mpr hi)
        refine ⟨m1, ?_, hm1⟩
        rw [hadd]
        simp [hne]
    obtain ⟨answers, m', hadds, hm', hlen, hanswers⟩ :=
      ih hm1 fun j hj => hsub j (List.mem_cons_of_mem i hj)
    refine ⟨decide (insert i got = range bodies.length ∧ got ≠ range bodies.length) ::
      answers, m', ?_, ?_, by simp [hlen], ?_⟩
    · rw [List.map_cons, addPackets, hadd]
      simp only [Option.bind_eq_bind, Option.bind_some, hadds]
      rfl
    · rw [List.toFinset_cons, union_insert, ← insert_union]
      exact hm'
    · intro k hk
      cases k with
      | zero => simp
      | succ k =>
        rw [List.getElem?_cons_succ, hanswers k (by simpa using hk)]
        simp

end

end InMsg

end Condor.Cedar
