import Condor.Security.Authorization

/-!
# Authorization — calls one after the other

A hole is counted at its own permission and at all that this one implies. As long as every
`FillHole` undoes a `PunchHole`, the counts are those of the holes that are open, whatever the order
of the calls, and no hole leaves a trace in the table of the results.

* **`verify_iff_granted`**, **`verify_eq_fresh`**: the answers.
-/

namespace Condor.Authorization

open List

variable {E : Env} {cfg : Config} {v : IpVerify} {perm : DCpermission} {id : Text}

/-! ## What a call changes -/

def chain : DCpermission → List DCpermission
  | .administrator => [.administrator, .write, .read]
  | .daemon => [.daemon, .write, .read]
  | .write => [.write, .read]
  | .negotiator => [.negotiator, .read]
  | .config => [.config, .read]
  | .advertiseStartd => [.advertiseStartd, .read]
  | .advertiseSchedd => [.advertiseSchedd, .read]
  | .advertiseMaster => [.advertiseMaster, .read]
  | perm => [perm]

theorem chain_of_none (h : perm.nextImplied = none) : chain perm = [perm] := by
  cases perm <;> first | rfl | cases h

section

variable {implied : DCpermission} (h : perm.nextImplied = some implied)
include h

theorem chain_of_some : chain perm = perm :: chain implied := by
  cases perm <;> cases h <;> rfl

theorem notMem_chain : perm ∉ chain implied := by
  cases perm <;> cases h <;> decide

end

theorem mem_chain_of_implied {q p implied : DCpermission} (h : p.nextImplied = some implied)
    (hp : p ∈ chain q) : implied ∈ chain q := by
  revert q
  cases p <;> cases h <;> intro q <;> cases q <;> decide

@[simp] theorem holes_setHoles (p : DCpermission) (holes : AList fun _ : Text => ℤ) :
    (v.setHoles perm holes).punchedHoleArray p = if p = perm then holes
      else v.punchedHoleArray p := by
  simp [IpVerify.setHoles, Function.update_apply]

/-- **`PunchHole`** counts the hole at the permission and at all that it implies. -/
theorem lookup_punchHole (p : DCpermission) (i : Text) :
    ((punchHole v perm id).punchedHoleArray p).lookup i =
      if i = id ∧ p ∈ chain perm then some (((v.punchedHoleArray p).lookup i).getD 0 + 1)
      else (v.punchedHoleArray p).lookup i := by
  have hset : ∀ (v : IpVerify) (perm : DCpermission),
      ((v.setHoles perm ((v.punchedHoleArray perm).insert id
        (((v.punchedHoleArray perm).lookup id).getD 0 + 1))).punchedHoleArray p).lookup i =
          if i = id ∧ p = perm then some (((v.punchedHoleArray p).lookup i).getD 0 + 1)
          else (v.punchedHoleArray p).lookup i := by
    intro v perm
    by_cases hp : p = perm
    · by_cases hi : i = id
      · subst hp hi
        simp
      · simp [hp, hi]
    · simp [hp]
  fun_induction punchHole v perm id with
  | case1 v perm holes v' hnext =>
    rw [chain_of_none hnext, hset]
    simp
  | case2 v perm holes v' implied hnext ih =>
    rw [ih, hset, chain_of_some hnext]
    by_cases hp : p = perm
    · subst hp
      simp [notMem_chain hnext]
    · simp [hp]

/-- The count of a hole goes down; there is none if it was the last. -/
def lowered (count : Option ℤ) : Option ℤ :=
  count.bind fun c => if c ≤ 1 then none else some (c - 1)

/-- **`FillHole`** counts the hole down at the permission and at all that it implies. -/
theorem lookup_fillHole (p : DCpermission) (i : Text)
    (hopen : ∀ q ∈ chain perm, ((v.punchedHoleArray q).lookup id).isSome) :
    (fillHole v perm id).2 = true ∧ ((fillHole v perm id).1.punchedHoleArray p).lookup i =
      if i = id ∧ p ∈ chain perm then lowered ((v.punchedHoleArray p).lookup i)
      else (v.punchedHoleArray p).lookup i := by
  have hset : ∀ (v : IpVerify) (perm : DCpermission) (count : ℤ) (q : DCpermission) (j : Text),
      (v.punchedHoleArray perm).lookup id = some count →
      let lower := if 0 < count then count - 1 else count
      ((v.setHoles perm (if lower ≤ 0 then (v.punchedHoleArray perm).erase id
        else (v.punchedHoleArray perm).insert id lower)).punchedHoleArray q).lookup j =
          if j = id ∧ q = perm then lowered ((v.punchedHoleArray q).lookup j)
          else (v.punchedHoleArray q).lookup j := by
    intro v perm count q j hcount lower
    by_cases hq : q = perm
    · by_cases hj : j = id
      · subst hq hj
        have hlast : lower ≤ 0 ↔ count ≤ 1 := by
          simp only [lower]
          split_ifs <;> omega
        simp only [if_true, and_self, hcount, lowered, Option.bind_some, hlast]
        split_ifs
        · simp
        · have hlower : lower = count - 1 := if_pos (by omega)
          simp [hlower]
      · simp only [holes_setHoles, hq, if_true, hj, false_and, if_false]
        split_ifs
        · exact AList.lookup_erase_ne hj
        · exact AList.lookup_insert_ne hj
    · simp [hq]
  fun_induction fillHole v perm id with
  | case1 v perm holes hnone =>
    have h := hopen perm (by cases perm <;> decide)
    simp [holes] at hnone
    simp [hnone] at h
  | case2 v perm holes count hcount lower v' hnext =>
    refine ⟨rfl, ?_⟩
    rw [chain_of_none hnext]
    simp only [mem_singleton]
    exact hset v perm count p i hcount
  | case3 v perm holes count hcount lower v' implied hnext ih =>
    have hne : ∀ q ∈ chain implied, q ≠ perm := fun q hq he => notMem_chain hnext (he ▸ hq)
    rw [chain_of_some hnext] at hopen ⊢
    have hopen' : ∀ q ∈ chain implied, ((v'.punchedHoleArray q).lookup id).isSome := by
      intro q hq
      have h : (v'.punchedHoleArray q).lookup id = _ := hset v perm count q id hcount
      rw [h, if_neg fun h => hne q hq h.2]
      exact hopen q (mem_cons_of_mem _ hq)
    have h : (v'.punchedHoleArray p).lookup i = _ := hset v perm count p i hcount
    refine ⟨rfl, ?_⟩
    rw [(ih hopen').2, h]
    by_cases hp : p = perm
    · subst hp
      simp [notMem_chain hnext]
    · simp [hp]

theorem Good.punchHole (hG : Good E cfg v) : Good E cfg (punchHole v perm id) := by
  fun_induction Authorization.punchHole v perm id with
  | case1 => exact ⟨hG.table, hG.deny, hG.allow⟩
  | case2 _ _ _ _ _ _ ih => exact ih ⟨hG.table, hG.deny, hG.allow⟩

theorem Good.fillHole (hG : Good E cfg v) : Good E cfg (fillHole v perm id).1 := by
  fun_induction Authorization.fillHole v perm id with
  | case1 => exact hG
  | case2 => exact ⟨hG.table, hG.deny, hG.allow⟩
  | case3 _ _ _ _ _ _ _ _ _ ih => exact ih ⟨hG.table, hG.deny, hG.allow⟩

/-! ## The holes that are open -/

abbrev Hole := DCpermission × Text

/-- How many of the open holes count at a permission, for an id. -/
def openCount (opened : List Hole) (p : DCpermission) (id : Text) : ℕ :=
  opened.countP fun h => id = h.2 ∧ p ∈ chain h.1

def Tracks (v : IpVerify) (opened : List Hole) : Prop :=
  ∀ p id, (v.punchedHoleArray p).lookup id =
    if openCount opened p id = 0 then none else some (openCount opened p id : ℤ)

variable {opened : List Hole}

theorem tracks_new : Tracks {} [] := fun _ _ => rfl

theorem openCount_cons (p : DCpermission) (i : Text) : openCount ((perm, id) :: opened) p i =
      openCount opened p i + if i = id ∧ p ∈ chain perm then 1 else 0 := by
  simp [openCount, countP_cons]

theorem openCount_erase (hmem : (perm, id) ∈ opened) (p : DCpermission) (i : Text) :
    openCount opened p i =
      openCount (opened.erase (perm, id)) p i + if i = id ∧ p ∈ chain perm then 1 else 0 := by
  rw [← openCount_cons]
  exact (perm_cons_erase hmem).countP_eq _

section

variable (hT : Tracks v opened)
include hT

theorem Tracks.punchHole : Tracks (punchHole v perm id) ((perm, id) :: opened) := by
  intro p i
  rw [lookup_punchHole, hT p i, openCount_cons]
  by_cases h : i = id ∧ p ∈ chain perm
  · by_cases hzero : openCount opened p i = 0
    · simp only [if_pos h, hzero]
      rfl
    · simp [if_pos h, hzero]
  · simp [h]

theorem Tracks.isSome (hmem : (perm, id) ∈ opened) {q : DCpermission}
    (hq : q ∈ chain perm) : ((v.punchedHoleArray q).lookup id).isSome := by
  have hpos : openCount opened q id ≠ 0 :=
    (countP_pos_iff.mpr ⟨(perm, id), hmem, by simp [hq]⟩).ne'
  rw [hT q id, if_neg hpos]
  rfl

theorem Tracks.fillHole (hmem : (perm, id) ∈ opened) :
    Tracks (fillHole v perm id).1 (opened.erase (perm, id)) := by
  intro p i
  rw [(lookup_fillHole p i fun q hq => hT.isSome hmem hq).2, hT p i, openCount_erase hmem]
  by_cases h : i = id ∧ p ∈ chain perm
  · simp only [if_pos h, lowered]
    by_cases hzero : openCount (opened.erase (perm, id)) p i = 0
    · simp
    · simp
  · simp [h]

theorem Tracks.holesDown : HolesDown v := by
  intro p implied i hnext hopen
  have hpos : openCount opened p i ≠ 0 := by
    intro hzero
    rw [hT p i, if_pos hzero] at hopen
    cases hopen
  obtain ⟨h, hmem, hcount⟩ := countP_pos_iff.mp (Nat.pos_of_ne_zero hpos)
  obtain ⟨hi, hp⟩ := of_decide_eq_true hcount
  exact hi ▸ hT.isSome hmem (mem_chain_of_implied hnext hp)

end

theorem Tracks.findHole_eq {w : IpVerify} (hv : Tracks v opened) (hw : Tracks w opened)
    (user : Option Text) (ip : Text) : findHole v perm user ip = findHole w perm user ip := by
  unfold findHole
  congr 1
  funext i
  rw [hv perm i, hw perm i]

/-! ## Sequences of calls -/

/-- A call. -/
inductive Op where
  | verify (perm : DCpermission) (addr : SockAddr) (user : Option Text) (r : Reasons)
  | punchHole (perm : DCpermission) (id : Text)
  | fillHole (perm : DCpermission) (id : Text)
deriving DecidableEq, Repr

def Op.openAfter (opened : List Hole) : Op → List Hole
  | verify .. => opened
  | punchHole perm id => (perm, id) :: opened
  | fillHole perm id => opened.erase (perm, id)

def openAfter (opened : List Hole) (ops : List Op) : List Hole := ops.foldl Op.openAfter opened

/-- Every `FillHole` undoes a `PunchHole` that has not been undone. -/
def Legal : List Hole → List Op → Prop
  | _, [] => True
  | opened, op :: ops =>
    (match op with
      | .fillHole perm id => (perm, id) ∈ opened
      | _ => True) ∧ Legal (op.openAfter opened) ops

variable (E cfg)

/-- The calls one after the other, with the answers of `Verify`. -/
def runOps : IpVerify → List Op → Option (IpVerify × List Bool)
  | v, [] => some (v, [])
  | v, .verify perm addr user r :: ops => do
    let (v, ok, _) ← verify E cfg v perm addr user r
    let (v, answers) ← runOps v ops
    return (v, ok :: answers)
  | v, .punchHole perm id :: ops => runOps (punchHole v perm id) ops
  | v, .fillHole perm id :: ops => runOps (fillHole v perm id).1 ops

def fresh (opened : List Hole) : IpVerify :=
  opened.foldr (fun h v => punchHole v h.1 h.2) (init E cfg {})

/-- The answers of a new `IpVerify` at every call, with the holes that are open then. -/
def freshAnswers : List Hole → List Op → Option (List Bool)
  | _, [] => some []
  | opened, .verify perm addr user r :: ops => do
    let (_, ok, _) ← verify E cfg (fresh E cfg opened) perm addr user r
    let answers ← freshAnswers opened ops
    return ok :: answers
  | opened, .punchHole perm id :: ops => freshAnswers ((perm, id) :: opened) ops
  | opened, .fillHole perm id :: ops => freshAnswers (opened.erase (perm, id)) ops

theorem fresh_good : Good E cfg (fresh E cfg opened) ∧ Tracks (fresh E cfg opened) opened := by
  induction opened with
  | nil =>
    refine ⟨good_new.init, ?_⟩
    intro p i
    exact tracks_new p i
  | cons h opened ih => exact ⟨ih.1.punchHole, ih.2.punchHole⟩

variable {E cfg}

/-- **Calls one after the other**: the answers are those of a new `IpVerify`, and the table stays
good and the counts those of the holes that are open. -/
theorem runOps_fresh (ops : List Op) (hG : Good E cfg v) (hT : Tracks v opened)
    (hlegal : Legal opened ops) : ∃ v' answers, runOps E cfg v ops = some (v', answers) ∧
      freshAnswers E cfg opened ops = some answers ∧
      Good E cfg v' ∧ Tracks v' (openAfter opened ops) := by
  induction ops generalizing v opened with
  | nil => exact ⟨v, [], rfl, rfl, hG, hT⟩
  | cons op ops ih =>
    obtain ⟨hop, hlegal⟩ := hlegal
    cases op with
    | punchHole perm id => exact ih hG.punchHole hT.punchHole hlegal
    | fillHole perm id => exact ih hG.fillHole (hT.fillHole hop) hlegal
    | verify perm addr user r =>
      obtain ⟨hGf, hTf⟩ := fresh_good E cfg
      obtain ⟨v', ok, r', hrun, hG', hh, hok⟩ :=
        verify_granted perm addr user hG hT.holesDown r
      obtain ⟨w, ok', r'', hrun', -, -, hok'⟩ :=
        verify_granted perm addr user hGf hTf.holesDown r
      rw [hTf.findHole_eq hT, ← hok, ← Bool.eq_iff_iff] at hok'
      have hT' : Tracks v' opened := by
        intro p i
        rw [hh]
        exact hT p i
      obtain ⟨v'', answers, hrest, hfresh, hG'', hT''⟩ := ih hG' hT' hlegal
      refine ⟨v'', ok :: answers, ?_, ?_, hG'', hT''⟩
      · simp [runOps, hrun, hrest]
      · have hfresh' : freshAnswers E cfg opened ops = some answers := hfresh
        simp [freshAnswers, hrun', hfresh', hok']

/-! ## The answers -/

/-- **The decision.** After any calls, with no hole open, a request succeeds exactly if no `DENY`
entry of the permission matches it and an `ALLOW` entry does, or else if a permission that implies
it is granted so. -/
theorem verify_iff_granted (E : Env) (cfg : Config) (ops : List Op) (hlegal : Legal [] ops)
    (hclosed : openAfter [] ops = []) (perm : DCpermission) (hperm : perm ≠ .allow)
    (addr : SockAddr) (user : Option Text) (r : Reasons) :
    ∃ v answers, runOps E cfg {} ops = some (v, answers) ∧
      ∃ v' ok r', verify E cfg v perm addr user r = some (v', ok, r') ∧
        (ok = true ↔ denied E cfg addr.toIpv6Address (whoOf user) perm = false ∧
          (allowed E cfg addr.toIpv6Address (whoOf user) perm = true ∨
            allowed E cfg addr.toIpv6Address (whoOf user) perm = false ∧
              ∃ parent, parent.nextImplied = some perm ∧
                Granted E cfg addr.toIpv6Address (whoOf user) parent)) := by
  obtain ⟨v, answers, hrun, -, hG, hT⟩ := runOps_fresh ops (good_new : Good E cfg _)
    tracks_new hlegal
  rw [hclosed] at hT
  obtain ⟨v', ok, r', hverify, -, -, hok⟩ := verify_granted perm addr user hG hT.holesDown r
  refine ⟨v, answers, hrun, v', ok, r', hverify, ?_⟩
  have hnone : findHole v perm user (E.ipString addr.toIpv6Address) = none := by
    rw [hT.findHole_eq tracks_new]
    exact find?_eq_none.mpr fun _ _ => by simp
  rw [hok, hnone, ← granted_iff]
  simp [hperm]

/-- A host with no name, where entries match as they are written, and a star matches all. -/
def plainEnv : Env where
  ipString sin6 := Nat.toDigits 10 sin6.toNat
  hostnameWithAlias _ := []
  resolveHostname _ := []
  isNetString _ := false
  matchesWithNetwork host ip := host = "*".toList || host = ip
  matchesAnycaseWithWildcard item who := item = "*".toList || item = who
  innetgr _ _ _ _ := false

/-- Address 5 is not to read, and ann may write. -/
def plainConfig : Config where
  clientOnly := false
  allowSetting perm := if perm = .write then some "ann@x".toList else none
  denySetting perm := if perm = .read then some "5".toList else none

theorem verify_iff_granted_ann : ∃ v answers,
    runOps plainEnv plainConfig {} [.verify .read (.v6 5 0 0) none {}] = some (v, answers) ∧
      ∃ v' r', verify plainEnv plainConfig v .read (.v6 6 0 0) (some "ann@x".toList) {} =
        some (v', true, r') := by
  obtain ⟨v, answers, hrun, v', ok, r', hverify, hok⟩ := verify_iff_granted plainEnv plainConfig
    [.verify .read (.v6 5 0 0) none {}] ⟨trivial, trivial⟩ rfl .read (by decide) (.v6 6 0 0)
    (some "ann@x".toList) {}
  have hwrite : Granted plainEnv plainConfig 6 "ann@x".toList .write :=
    .entry (by decide) (by decide)
  have hread : ok = true := hok.mpr ⟨by decide, .inr ⟨by decide, .write, rfl, hwrite⟩⟩
  subst hread
  exact ⟨v, answers, hrun, v', r', hverify⟩

/-- **Nothing stays behind.** The answers are those that a new `IpVerify` gives, with the holes that
are open. -/
theorem verify_eq_fresh (E : Env) (cfg : Config) (ops : List Op) (hlegal : Legal [] ops) :
    ∃ v answers, runOps E cfg {} ops = some (v, answers) ∧
      freshAnswers E cfg [] ops = some answers := by
  obtain ⟨v, answers, hrun, hfresh, -, -⟩ := runOps_fresh ops good_new tracks_new hlegal
  exact ⟨v, answers, hrun, hfresh⟩

theorem verify_eq_fresh_filled : ∃ v answers,
    runOps plainEnv plainConfig {} [.punchHole .daemon "5".toList,
      .verify .read (.v6 5 0 0) none {},
      .fillHole .daemon "5".toList, .verify .read (.v6 5 0 0) none {}] = some (v, answers) ∧
    freshAnswers plainEnv plainConfig [] [.punchHole .daemon "5".toList,
      .verify .read (.v6 5 0 0) none {}, .fillHole .daemon "5".toList,
      .verify .read (.v6 5 0 0) none {}] = some answers :=
  verify_eq_fresh plainEnv plainConfig _ ⟨trivial, trivial, mem_singleton_self _, trivial, trivial⟩

end Condor.Authorization
