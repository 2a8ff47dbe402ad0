import Condor.Procd.Trackers

/-!
# Snapshots

A snapshot marks the members that are still there and takes the new times of their processes; it
removes the other members and keeps their times; it finds families for the processes that are left;
and it removes the families whose watchers have exited.

* **`snapshot_spec`**.
-/

namespace Condor.Procd

open List Function Monitor

variable {M M' M'' : Monitor} {kids kids' : Addr → List Addr} {dom fams fams' cs l : List Addr}
  {L L' : Addr → List Addr} {f g p a c : Addr} {pid : ℤ} {pi : ProcInfo} {ps rest : List ProcInfo}
    {n : ℕ}

/-- The list of a snapshot: every process is there once, and has a positive pid. -/
structure Proper (ps : List ProcInfo) : Prop where
  nodup : (ps.map ProcInfo.pid).Nodup
  pos : ∀ pi ∈ ps, 0 < pi.pid

def Seen (M : Monitor) (pi : ProcInfo) (a : Addr) : Prop :=
  M.memberTable pi.pid = some a ∧ (M.procInfo a).birthday = pi.birthday

def Idle (M : Monitor) : Prop := ∀ a, M.stillAlive a = false

/-! ## Marking and removing -/

/-- **The first loop** takes the new times of the members that are still there. -/
theorem markSeen_spec (hpid : ∀ pid a, M.memberTable pid = some a → (M.procInfo a).pid = pid)
    (hps : Proper ps) :
    ∃ rest procInfo stillAlive,
      markSeen ps M = (rest, { M with procInfo := procInfo, stillAlive := stillAlive }) ∧
      (∀ pi, pi ∈ rest ↔ pi ∈ ps ∧ ∀ a, ¬ Seen M pi a) ∧
      (∀ pi ∈ ps, ∀ a, Seen M pi a → procInfo a = pi ∧ stillAlive a = true) ∧
      ∀ a, (∀ pi ∈ ps, ¬ Seen M pi a) → procInfo a = M.procInfo a ∧
      stillAlive a = M.stillAlive a := by
  induction ps generalizing M with
  | nil => exact ⟨[], M.procInfo, M.stillAlive, rfl, by simp, nofun, fun _ _ => ⟨rfl, rfl⟩⟩
  | cons pi ps ih =>
    obtain ⟨hpi, hnodup⟩ := nodup_cons.mp hps.nodup
    have hps' : Proper ps := ⟨hnodup, fun q hq => hps.pos q (mem_cons_of_mem _ hq)⟩
    have hpos : pi.pid ≠ 0 := (hps.pos pi mem_cons_self).ne'
    have hother : ∀ q ∈ ps, q.pid ≠ pi.pid :=
      fun q hq h => hpi (by rw [← h]; exact mem_map_of_mem hq)
    by_cases hseen : ∃ a, Seen M pi a
    · -- the member is marked; the others are seen as before
      obtain ⟨a, ha, hbirth⟩ := hseen
      have hpid' : ∀ pid b, (M.markAlive a pi).memberTable pid = some b →
          ((M.markAlive a pi).procInfo b).pid = pid := by
        intro pid b hb
        change (update M.procInfo a pi b).pid = pid
        by_cases hba : b = a
        · subst hba
          rw [update_self, ← hpid pi.pid b ha, hpid pid b hb]
        · rw [update_of_ne hba]
          exact hpid pid b hb
      have hne : ∀ q ∈ ps, ∀ b, M.memberTable q.pid = some b → b ≠ a := fun q hq b hb h =>
        hother q hq (by
        rw [← hpid q.pid b hb, h, hpid pi.pid a ha])
      have hseen' : ∀ q ∈ ps, ∀ b, Seen (M.markAlive a pi) q b ↔ Seen M q b := fun q hq b => by
        refine and_congr_right fun hb => ?_
        change (update M.procInfo a pi b).birthday = _ ↔ _
        rw [update_of_ne (hne q hq b hb)]
      obtain ⟨rest, P, A, hrun, hrest, hP, hA⟩ := ih hpid' hps'
      have hout : ∀ q ∈ ps, ¬ Seen (M.markAlive a pi) q a := fun q hq h => hne q hq a h.1 rfl
      have heqa : ∀ b, Seen M pi b → b = a := fun b hb => Option.some.inj (hb.1.symm.trans ha)
      refine ⟨rest, P, A, ?_, fun q => ?_, fun q hq b hb => ?_, fun b hb => ?_⟩
      · rw [markSeen, if_neg hpos, ha]
        simp only [if_pos hbirth, hrun]
        rfl
      · rw [hrest]
        constructor
        · exact fun ⟨hq, hq'⟩ => ⟨mem_cons_of_mem _ hq, fun b hb => hq' b ((hseen' q hq b).mpr hb)⟩
        · rintro ⟨hq, hq'⟩
          rcases mem_cons.mp hq with rfl | hq
          · exact absurd ⟨ha, hbirth⟩ (hq' a)
          · exact ⟨hq, fun b hb => hq' b ((hseen' q hq b).mp hb)⟩
      · rcases mem_cons.mp hq with rfl | hq
        · rw [heqa b hb, (hA a hout).1, (hA a hout).2]
          exact ⟨update_self .., update_self ..⟩
        · exact hP q hq b ((hseen' q hq b).mpr hb)
      · have hba : b ≠ a := fun h => hb pi mem_cons_self (by rw [h]; exact ⟨ha, hbirth⟩)
        obtain ⟨hPb, hAb⟩ := hA b fun q hq h => hb q (mem_cons_of_mem _ hq) ((hseen' q hq b).mp h)
        rw [hPb, hAb]
        exact ⟨update_of_ne hba .., update_of_ne hba ..⟩
    · -- the process remains
      obtain ⟨rest, P, A, hrun, hrest, hP, hA⟩ := ih hpid hps'
      refine ⟨pi :: rest, P, A, ?_, fun q => ?_, fun q hq b hb => ?_, fun b hb => ?_⟩
      · rw [markSeen, if_neg hpos, hrun]
        cases ha : M.memberTable pi.pid with
        | none => rfl
        | some a =>
          simp only
          rw [if_neg fun hbirth => hseen ⟨a, ha, hbirth⟩]
      · rw [mem_cons, mem_cons, hrest]
        constructor
        · rintro (rfl | ⟨hq, hq'⟩)
          · exact ⟨.inl rfl, fun b hb => hseen ⟨b, hb⟩⟩
          · exact ⟨.inr hq, hq'⟩
        · rintro ⟨rfl | hq, hq'⟩
          · exact .inl rfl
          · exact .inr ⟨hq, hq'⟩
      · rcases mem_cons.mp hq with rfl | hq
        · exact absurd ⟨b, hb⟩ hseen
        · exact hP q hq b hb
      · exact hA b fun q hq => hb q (mem_cons_of_mem _ hq)

/-- The two processes are the same one, as far as pids and birthdays tell. -/
def ProcInfo.same (p q : ProcInfo) : Bool := decide (p.pid = q.pid ∧ p.birthday = q.birthday)

def Monitor.isIn (M : Monitor) (ps : List ProcInfo) (a : Addr) : Bool := ps.any (M.procInfo a).same

/-- **What the first half of a snapshot does**: the members are those that the list has under the
same pid and birthday, with what it says of them, and the times of the others are added to their
families. -/
structure Swept (M : Monitor) (fams : List Addr) (L : Addr → List Addr) (ps : List ProcInfo)
    (M' : Monitor) : Prop
    extends SameTree M M' where
  made : M'.made = M.made
  idle : Idle M'
  table : ∀ pid a, M'.memberTable pid = some a ↔ ∃ pi ∈ ps, pi.pid = pid ∧ Seen M pi a
  procInfo : ∀ pi ∈ ps, ∀ a, Seen M pi a → M'.procInfo a = pi
  exited : ∀ f ∈ fams, M'.exited f = M.exited f + M.timesOf ((L f).filter fun a => !M.isIn ps a)
  usage : (∀ pi ∈ ps, ∀ a, Seen M pi a → (M.procInfo a).times ≤ pi.times) →
    ∀ f ∈ fams, M.usage f ≤ M'.usage f

section

variable (h : Inv M kids fams L) (hf : f ∈ M.everybodyElse :: fams) (ha : a ∈ L f)
include h hf ha

theorem Inv.seen_iff : Seen M pi a ↔ (M.procInfo a).same pi = true := by
  rw [ProcInfo.same, decide_eq_true_iff]
  refine and_congr_left fun _ => ⟨fun hpid => (h.mem_of_table hpid).2.2, fun hpid => ?_⟩
  exact (h.table _ a).mpr ⟨f, hf, ha, hpid⟩

theorem Inv.isIn_iff : M.isIn ps a = true ↔ ∃ pi ∈ ps, Seen M pi a := by
  rw [isIn, any_eq_true]
  exact exists_congr fun pi => and_congr_right fun _ => (h.seen_iff hf ha).symm

end

/-- **The members that are gone** leave their times to their families. -/
theorem sweep_spec (h : Inv M kids fams L) (hidle : Idle M) (hps : Proper ps) :
    ∃ rest M1 M2 M', markSeen ps M = (rest, M1) ∧ M1.removeExitedTree = some M2 ∧
      M2.removeExited M2.everybodyElse = some M' ∧
      (∀ pi, pi ∈ rest ↔ pi ∈ ps ∧ ∀ a, ¬ Seen M pi a) ∧
      Inv M' kids fams (fun f => (L f).filter (M.isIn ps)) ∧ Swept M fams L ps M' := by
  have hpid : ∀ pid a, M.memberTable pid = some a → (M.procInfo a).pid = pid := fun pid a ha =>
    (h.mem_of_table ha).2.2
  obtain ⟨rest, P, A, hrun, hrest, hP, hA⟩ := markSeen_spec hpid hps
  set M1 : Monitor := { M with procInfo := P, stillAlive := A }
  set dom := M.everybodyElse :: fams with hdom
  have hunseen : ∀ f ∈ dom, ∀ a ∈ L f, M.isIn ps a = false → ∀ pi ∈ ps, ¬ Seen M pi a :=
    fun f hf a ha hin pi hpi hs => by
    rw [(h.isIn_iff hf ha).mpr ⟨pi, hpi, hs⟩] at hin
    cases hin
  have halive : ∀ f ∈ dom, ∀ a ∈ L f, A a = M.isIn ps a := by
    intro f hf a ha
    cases hin : M.isIn ps a with
    | true =>
      obtain ⟨pi, hpi, hs⟩ := (h.isIn_iff hf ha).mp hin
      exact (hP pi hpi a hs).2
    | false => rw [(hA a (hunseen f hf a ha hin)).2, hidle a]
  have hpid1 : ∀ a, Member dom L a → (P a).pid = (M.procInfo a).pid := by
    rintro a ⟨f, hf, ha⟩
    cases hin : M.isIn ps a with
    | true =>
      obtain ⟨pi, hpi, hs⟩ := (h.isIn_iff hf ha).mp hin
      rw [(hP pi hpi a hs).1, hpid _ a hs.1]
    | false => rw [(hA a (hunseen f hf a ha hin)).1]
  have h1 : Inv M1 kids fams L :=
    ⟨h.tree.congr ⟨rfl, rfl, rfl, rfl, rfl, rfl, rfl, rfl⟩ (Nat.le_refl _),
      h.lists.congr rfl rfl rfl rfl rfl,
      h.table.congr rfl hpid1 fun _ => Iff.rfl⟩
  obtain ⟨M2, M', hrun2, hrun', hc⟩ := removeExitedTree_spec h1
  have hall : ∀ f, f ∈ fams ++ [M.everybodyElse] ↔ f ∈ dom := fun f => by
    rw [mem_append, mem_singleton, mem_cons, or_comm]
  have hL' : ∀ f ∈ dom, (if f ∈ fams ++ [M1.everybodyElse] then (L f).filter M1.stillAlive
      else L f) = (L f).filter (M.isIn ps) := fun f hf => by
    rw [if_pos ((hall f).mpr hf)]
    exact filter_congr (halive f hf)
  have hsame : SameTree M M' :=
    (show SameTree M M1 from ⟨rfl, rfl, rfl, rfl, rfl, rfl, rfl, rfl⟩).trans hc.toSameTree
  have hinv : Inv M' kids fams fun f => (L f).filter (M.isIn ps) := by
    refine ⟨h.tree.congr hsame (Nat.le_of_eq hc.made.symm), fun f hf => ?_, fun pid a => ?_⟩
    · rw [hsame.everybodyElse] at hf
      rw [← hL' f hf]
      exact hc.lists f hf
    · rw [hc.table pid a, hsame.everybodyElse]
      exact exists_congr fun f => and_congr_right fun hf => by simp only [hL' f hf]
  have hgone : ∀ f ∈ fams, M'.exited f =
      M.exited f + M.timesOf ((L f).filter fun a => !M.isIn ps a) := by
    intro f hf
    have hf' : f ∈ dom := mem_cons_of_mem _ hf
    have hfilter : (L f).filter (fun a => !A a) = (L f).filter fun a => !M.isIn ps a :=
      filter_congr fun a ha => by rw [halive f hf' a ha]
    rw [hc.exited, if_pos ((hall f).mpr hf')]
    change M.exited f + total (fun a => (P a).times) ((L f).filter fun a => !A a) = _
    rw [hfilter]
    congr 1
    refine total_congr fun a ha => ?_
    obtain ⟨ha, hin⟩ := mem_filter.mp ha
    rw [(hA a (hunseen f hf' a ha (by simpa using hin))).1]
  refine ⟨rest, M1, M2, M', hrun, hrun2, hrun', hrest, hinv, hsame, hc.made, fun a => ?_,
    fun pid a => ?_, fun pi hpi a hs => ?_, fun f hf => ?_, fun htimes f hf => ?_⟩
  · -- every marked member is in a list, and has lost its mark
    rw [hc.stillAlive]
    by_cases hin : ∃ pi ∈ ps, Seen M pi a
    · obtain ⟨pi, -, hs⟩ := hin
      obtain ⟨hf, ha, -⟩ := h.mem_of_table hs.1
      have : ¬ ∀ f ∈ fams ++ [M.everybodyElse], a ∉ L f := fun hout => hout _ ((hall _).mpr hf) ha
      rw [decide_eq_false this, Bool.and_false]
    · have hout : ∀ pi ∈ ps, ¬ Seen M pi a := fun pi hpi hs => hin ⟨pi, hpi, hs⟩
      change (A a && _) = false
      rw [(hA a hout).2, hidle a, Bool.false_and]
  · rw [hinv.table pid a, hsame.everybodyElse, hc.procInfo]
    constructor
    · rintro ⟨f, hf, ha, hpid'⟩
      obtain ⟨ha, hin⟩ := mem_filter.mp ha
      obtain ⟨pi, hpi, hs⟩ := (h.isIn_iff hf ha).mp hin
      change (P a).pid = pid at hpid'
      rw [(hP pi hpi a hs).1] at hpid'
      exact ⟨pi, hpi, hpid', hs⟩
    · rintro ⟨pi, hpi, hpid', hs⟩
      obtain ⟨hf, ha, -⟩ := h.mem_of_table hs.1
      refine ⟨_, hf, mem_filter.mpr ⟨ha, (h.isIn_iff hf ha).mpr ⟨pi, hpi, hs⟩⟩, ?_⟩
      change (P a).pid = pid
      rw [(hP pi hpi a hs).1, hpid']
  · rw [hc.procInfo]
    exact (hP pi hpi a hs).1
  · exact hgone f hf
  · refine h.usage_le hinv (fun g hg => ?_) hf
    have hg' : g ∈ dom := mem_cons_of_mem _ hg
    unfold own
    rw [hgone g hg, add_assoc]
    refine add_le_add_right ?_ _
    rw [timesOf, total_filter (M.isIn ps), add_comm]
    refine add_le_add_right (total_mono fun a ha => ?_) _
    obtain ⟨ha, hin⟩ := mem_filter.mp ha
    obtain ⟨pi, hpi, hs⟩ := (h.isIn_iff hg' ha).mp hin
    rw [hc.procInfo]
    change (M.procInfo a).times ≤ (P a).times
    rw [(hP pi hpi a hs).1]
    exact htimes pi hpi a hs

/-! ## Families whose watchers have exited -/

/-- Families have gone, and their members are in families above them. -/
structure Pruned (M : Monitor) (fams : List Addr) (L : Addr → List Addr) (M' : Monitor)
    (fams' : List Addr) (L' : Addr → List Addr) : Prop where
  registration : M'.registration = M.registration
  everybodyElse : M'.everybodyElse = M.everybodyElse
  tree : M'.tree = M.tree
  procInfo : M'.procInfo = M.procInfo
  stillAlive : M'.stillAlive = M.stillAlive
  made : M'.made = M.made
  memberTable : M'.memberTable = M.memberTable
  sub : fams' ⊆ fams
  others : L' M.everybodyElse = L M.everybodyElse
  usage : ∀ c ∈ fams', M'.usage c = M.usage c
  exited : total M'.exited fams' = total M.exited fams

variable {L'' : Addr → List Addr} {fams'' pre : List Addr}

theorem Pruned.refl (M : Monitor) : Pruned M fams L M fams L :=
  ⟨rfl, rfl, rfl, rfl, rfl, rfl, rfl, Subset.refl _, rfl, fun _ _ => rfl, rfl⟩

theorem Pruned.trans (h : Pruned M fams L M' fams' L') (h' : Pruned M' fams' L' M'' fams'' L'') :
    Pruned M fams L M'' fams'' L'' where
  registration := h'.registration.trans h.registration
  everybodyElse := h'.everybodyElse.trans h.everybodyElse
  tree := h'.tree.trans h.tree
  procInfo := h'.procInfo.trans h.procInfo
  stillAlive := h'.stillAlive.trans h.stillAlive
  made := h'.made.trans h.made
  memberTable := h'.memberTable.trans h.memberTable
  sub := Subset.trans h'.sub h.sub
  others := by
    rw [← h.everybodyElse, h'.others, h.everybodyElse, h.others]
  usage c hc := (h'.usage c hc).trans (h.usage c (h'.sub hc))
  exited := h'.exited.trans h.exited

theorem unregister_pruned (h : Inv M kids fams L) (hp : p ∈ fams) (hf : f ∈ kids p) :
    ∃ M' L', M.unregister f = some M' ∧
      Inv M' (fun c => splice kids f (kids c)) (fams.filter (· ≠ f)) L' ∧
      Pruned M fams L M' (fams.filter (· ≠ f)) L' := by
  obtain ⟨M', hrun, hinv, hM'⟩ := unregister_spec h hp hf
  have hnodup := h.tree.fams_nodup
  have hfm : f ∈ fams := h.tree.forest.kids_subset hp hf
  have htf : M.tree ≠ f := fun h' =>
    (h.tree.forest.unique hnodup).2.2.1 p hp f hf (by rw [h']; exact mem_singleton_self _)
  refine ⟨M', _, hrun, hinv, hM'.registration, hM'.everybodyElse, hM'.tree, hM'.procInfo,
    hM'.stillAlive, hM'.made, hM'.memberTable, filter_subset_self _, ?_, fun c hc => ?_, ?_⟩
  · rw [update_of_ne (h.tree.ne_everybodyElse hfm).symm,
      update_of_ne (h.tree.ne_everybodyElse hp).symm]
  · obtain ⟨hc, hcf⟩ := mem_filter.mp hc
    exact unregister_usage h hp hf hinv hM' hc (by simpa using hcf)
  · refine total_splice h.tree.forest hnodup hp hf h.tree.forest (Sublist.refl _) htf ?_
      fun b _ hbp => ?_
    · rw [hM'.exited, update_self]
    · rw [hM'.exited, update_of_ne hbp]

/-- One turn of the loop: the child stays, or its subfamilies are in its place. -/
theorem deleteUnwatched_child (hkids : kids f = pre ++ c :: cs)
    (hrun : deleteUnwatchedFrom n (M.child c) M = some M') (h' : Inv M' kids' fams' L')
    (hpruned : Pruned M fams L M' fams' L') (hf' : f ∈ fams') (hkids' : kids' f = kids f) :
    ∃ M'' kids'' fams'' L'' mid, deleteUnwatched (n + 1) c M = some M'' ∧
      Inv M'' kids'' fams'' L'' ∧ Pruned M fams L M'' fams'' L'' ∧ kids'' f = pre ++ mid ++ cs ∧
      (∀ g ∈ fams', g ≠ c → g ∈ fams'') ∧ ∀ g ∈ fams', g ≠ c → g ≠ f → kids'' g = kids' g := by
  have hstep : deleteUnwatched (n + 1) c M = if M'.watcherGone c then M'.unregister c
      else some M' := by
    rw [deleteUnwatched, hrun]
    rfl
  have hcf : c ∈ kids' f := by rw [hkids', hkids]; simp
  cases hgone : M'.watcherGone c with
  | false =>
    refine ⟨M', kids', fams', L', [c], by rw [hstep, hgone]; rfl, h',
      hpruned, by rw [hkids', hkids]; simp, fun g hg _ => hg, fun _ _ _ _ => rfl⟩
  | true =>
    obtain ⟨M'', L'', hrun'', hinv'', hpruned''⟩ := unregister_pruned h' hf' hcf
    obtain ⟨-, hnodup, -, hunique⟩ := h'.tree.forest.unique h'.tree.fams_nodup
    have hout : c ∉ pre ++ cs := by
      have := hnodup f hf'
      rw [hkids', hkids, nodup_middle] at this
      exact (nodup_cons.mp this).1
    refine ⟨M'', _, _, L'', kids' c, by rw [hstep, hgone]; exact hrun'', hinv'',
      hpruned.trans hpruned'', ?_, fun g hg hgc => by simp [hg, hgc], fun g hg hgc hgf => ?_⟩
    · rw [hkids', hkids, splice_append, splice_cons_self, splice_of_notMem fun h =>
        hout (mem_append_left _ h),
        splice_of_notMem fun h => hout (mem_append_right _ h), append_assoc]
    · exact splice_of_notMem fun h => hgf (hunique g hg f hf' c h hcf)

/-- **The loop** over the children that are left. Before them, some families may have gone. -/
theorem deleteUnwatchedFrom_spec {kids0 : Addr → List Addr} {p : List Addr}
    (hforest : Forest kids0 cs l) (heq : ∀ g ∈ l, kids g = kids0 g) (h : Inv M kids fams L)
    (hf : f ∈ fams) (hkids : kids f = p ++ cs) (hl : l ⊆ fams) (hnodup : l.Nodup) (hfl : f ∉ l)
    (hn : 2 * l.length ≤ n) :
    ∃ M' kids' fams' L', deleteUnwatchedFrom n cs.head? M = some M' ∧ Inv M' kids' fams' L' ∧
      Pruned M fams L M' fams' L' ∧ (∀ g ∈ fams, g ∉ l → g ∈ fams') ∧
      ∀ g ∈ fams, g ∉ l → g ≠ f → kids' g = kids g := by
  induction hforest generalizing M kids fams L f p n with
  | nil =>
    exact ⟨M, kids, fams, L, by cases n <;> rfl, h, Pruned.refl M, fun _ hg _ => hg,
      fun _ _ _ _ => rfl⟩
  | @cons c cs l1 l2 below beside ih1 ih2 =>
    obtain ⟨n, rfl⟩ : ∃ m, n = m + 2 := ⟨n - 2, by simp at hn; omega⟩
    have hlen : 2 * l1.length + 2 * l2.length ≤ n := by
      simp only [length_cons, length_append] at hn
      omega
    obtain ⟨hcl, hnodup⟩ := nodup_cons.mp hnodup
    obtain ⟨hnodup1, hnodup2, hdisj⟩ := nodup_append.mp hnodup
    have hc : c ∈ fams := hl mem_cons_self
    have hl1 : l1 ⊆ fams := fun d hd => hl (mem_cons_of_mem _ (mem_append_left _ hd))
    have hl2 : l2 ⊆ fams := fun d hd => hl (mem_cons_of_mem _ (mem_append_right _ hd))
    have hc1 : c ∉ l1 := fun h => hcl (mem_append_left _ h)
    have hc2 : c ∉ l2 := fun h => hcl (mem_append_right _ h)
    have hfc : f ≠ c := fun h => hfl (by rw [h]; exact mem_cons_self)
    have hf1 : f ∉ l1 := fun h => hfl (mem_cons_of_mem _ (mem_append_left _ h))
    have hf2 : f ∉ l2 := fun h => hfl (mem_cons_of_mem _ (mem_append_right _ h))
    have hkc : kids c = kids0 c := heq c mem_cons_self
    have hnext : M.sibling c = cs.head? := by
      have hseg := h.tree.links.sibling f hf
      rw [hkids, segment_append] at hseg
      rw [hseg.2.1, Option.or_none]
    -- below the child
    obtain ⟨M1, kids1, fams1, L1, hrun1, hinv1, hpruned1, hstay1, hkids1⟩ := ih1 (p := [])
      (fun g hg => heq g (mem_cons_of_mem _ (mem_append_left _ hg))) h hc hkc hl1 hnodup1 hc1
      (by omega : 2 * l1.length ≤ n)
    rw [← hkc, ← h.tree.links.child c hc] at hrun1
    -- the child itself
    obtain ⟨M2, kids2, fams2, L2, mid, hrun2, hinv2, hpruned2, hkids2, hstay2, hother2⟩ :=
      deleteUnwatched_child hkids hrun1 hinv1 hpruned1 (hstay1 f hf hf1) (hkids1 f hf hf1 hfc)
    have hstay : ∀ g ∈ fams, g ∉ l1 → g ≠ c → g ∈ fams2 := fun g hg hg1 hgc =>
      hstay2 g (hstay1 g hg hg1) hgc
    have hkids' : ∀ g ∈ fams, g ∉ l1 → g ≠ c → g ≠ f → kids2 g = kids g := fun g hg hg1 hgc hgf =>
      (hother2 g (hstay1 g hg hg1) hgc hgf).trans (hkids1 g hg hg1 hgc)
    have hmem2 : ∀ g ∈ l2, g ∉ l1 ∧ g ≠ c ∧ g ≠ f := fun g hg =>
      ⟨fun h => hdisj g h g hg rfl, fun h => hc2 (by rw [← h]; exact hg),
        fun h => hf2 (by rw [← h]; exact hg)⟩
    -- the younger children
    obtain ⟨M3, kids3, fams3, L3, hrun3, hinv3, hpruned3, hstay3, hother3⟩ := ih2 (n := n + 1)
      (fun g hg => (hkids' g (hl2 hg) (hmem2 g hg).1 (hmem2 g hg).2.1 (hmem2 g hg).2.2).trans
        (heq g (mem_cons_of_mem _ (mem_append_right _ hg))))
      hinv2 (hstay f hf hf1 hfc) hkids2
      (fun g hg => hstay g (hl2 hg) (hmem2 g hg).1 (hmem2 g hg).2.1) hnodup2 hf2 (by omega)
    refine ⟨M3, kids3, fams3, L3, ?_, hinv3, hpruned2.trans hpruned3, fun g hg hgl => ?_,
      fun g hg hgl hgf => ?_⟩
    · rw [head?_cons, deleteUnwatchedFrom, hrun2, hnext]
      exact hrun3
    · simp only [mem_cons, mem_append, not_or] at hgl
      exact hstay3 g (hstay g hg hgl.2.1 hgl.1) hgl.2.2
    · simp only [mem_cons, mem_append, not_or] at hgl
      exact (hother3 g (hstay g hg hgl.2.1 hgl.1) hgl.2.2 hgf).trans (hkids' g hg hgl.2.1 hgl.1 hgf)

/-- **`delete_unwatched_families`** comes to an end, and never reaches the root. -/
theorem deleteUnwatched_spec (h : Inv M kids fams L) :
    ∃ M' kids' fams' L', deleteUnwatched (2 * M.made + 1) M.tree M = some M' ∧
      Inv M' kids' fams' L' ∧ Pruned M fams L M' fams' L' := by
  obtain ⟨l, hfams, hbelow⟩ := h.tree.below_tree
  have hnodup := h.tree.fams_nodup
  have hlen := h.tree.length_le
  rw [hfams] at hnodup hlen
  obtain ⟨htl, hnodup⟩ := nodup_cons.mp hnodup
  obtain ⟨M', kids', fams', L', hrun, hinv, hpruned, -, -⟩ :=
    deleteUnwatchedFrom_spec (n := 2 * M.made) (p := []) hbelow
      (fun _ _ => rfl) h h.tree.tree_mem rfl (by rw [hfams]; exact subset_cons_self _ _) hnodup htl
      (by simp at hlen; omega)
  rw [← h.tree.links.child _ h.tree.tree_mem] at hrun
  have hwatched : M'.watcherGone M.tree = false := by
    rw [watcherGone, hpruned.registration, h.tree.unwatched]
    rfl
  refine ⟨M', kids', fams', L', ?_, hinv, hpruned⟩
  rw [deleteUnwatched, hrun]
  simp [hwatched]

/-! ## The whole snapshot -/

/-- **What a snapshot does**: its processes are the members, those that were there keep to their
side of `everybodyElse`, families may go, and no CPU time is lost. -/
structure Snapped (M : Monitor) (fams : List Addr) (L : Addr → List Addr) (ps : List ProcInfo)
    (M' : Monitor) (fams' : List Addr) : Prop where
  registration : M'.registration = M.registration
  everybodyElse : M'.everybodyElse = M.everybodyElse
  tree : M'.tree = M.tree
  made : M.made ≤ M'.made
  idle : Idle M'
  sub : fams' ⊆ fams
  listed : ∀ pi ∈ ps, ∃ a, M'.memberTable pi.pid = some a ∧ M'.procInfo a = pi
  only : ∀ pid a, M'.memberTable pid = some a → M'.procInfo a ∈ ps
  stays : ∀ pi ∈ ps, ∀ a, Seen M pi a →
    M'.memberTable pi.pid = some a ∧ (M'.family a = M.everybodyElse ↔ M.family a = M.everybodyElse)
  exited : total M'.exited fams' =
    total (fun f => M.exited f + M.timesOf ((L f).filter fun a => !M.isIn ps a)) fams
  usage : (∀ pi ∈ ps, ∀ a, Seen M pi a → (M.procInfo a).times ≤ pi.times) →
    ∀ f ∈ fams', M.usage f ≤ M'.usage f

theorem Proper.eq_of_pid (hps : Proper ps) {q : ProcInfo} (hpi : pi ∈ ps) (hq : q ∈ ps)
    (h : pi.pid = q.pid) : pi = q :=
  inj_on_of_nodup_map hps.nodup hpi hq h

theorem Inv.family_eq_everybodyElse_iff (h : Inv M kids fams L) (ha : M.memberTable pid = some a) :
    M.family a = M.everybodyElse ↔ a ∈ L M.everybodyElse := by
  obtain ⟨-, hmem, -⟩ := h.mem_of_table ha
  exact ⟨fun heq => by rwa [heq] at hmem, h.family_eq mem_cons_self⟩

theorem Grown.family_eq_everybodyElse_iff (h : Inv M kids fams L) (hgrown : Grown kids fams ps M M')
    (ha : M.memberTable pid = some a) :
    M'.family a = M.everybodyElse ↔ M.family a = M.everybodyElse := by
  rcases hgrown.down pid a ha with heq | ⟨hmem, habove⟩
  · rw [heq]
  · exact iff_of_false (h.tree.ne_everybodyElse (habove.mem h.tree.forest hmem))
      (h.tree.ne_everybodyElse hmem)

/-- **A snapshot** returns and keeps the invariant; no family of the tree loses times. -/
theorem snapshot_spec (h : Inv M kids fams L) (hidle : Idle M) (hps : Proper ps) :
    ∃ M' kids' fams' L', M.snapshot ps = some M' ∧ Inv M' kids' fams' L' ∧
      Snapped M fams L ps M' fams' := by
  obtain ⟨rest, M1, M2, M3, hrun1, hrun2, hrun3, hrest, hinv3, hswept⟩ := sweep_spec h hidle hps
  have hrestps : rest ⊆ ps := fun pi hpi => ((hrest pi).mp hpi).1
  obtain ⟨b, M4, L4, hrun4, hinv4, hgrown4, -⟩ := findProcesses_spec False
    (fun M L pi hM hpi => by simpa using checkPid_spec hM hpi) (Subset.refl rest) hinv3
  have hfuel : rest.length * (fams.length + 1) - effort M4 fams rest <
      rest.length * (M4.made + rest.length + 2) + 1 := by
    have hle : fams.length + 1 ≤ M4.made + rest.length + 2 := by
      have := hinv4.tree.length_le
      omega
    have := Nat.mul_le_mul_left rest.length hle
    omega
  obtain ⟨M5, L5, hrun5, hinv5, hgrown5⟩ := findByParent_spec hinv4 hfuel
  obtain ⟨M6, L6, hrun6, hinv6, hgrown6, hall⟩ := addRest_spec (Subset.refl rest) hinv5
  obtain ⟨M', kids', fams', L', hrun', hinv', hpruned⟩ := deleteUnwatched_spec hinv6
  have hgrown := (hgrown4.trans hgrown5).trans hgrown6
  have hsame := hswept.toSameTree.trans hgrown.toSameTree
  have hothers : M'.everybodyElse = M.everybodyElse :=
    hpruned.everybodyElse.trans hsame.everybodyElse
  have hseen : ∀ pi ∈ ps, ∀ a, Seen M pi a → M3.memberTable pi.pid = some a := fun pi hpi a hs =>
    (hswept.table _ a).mpr ⟨pi, hpi, rfl, hs⟩
  have hstays : ∀ pi ∈ ps, ∀ a, Seen M pi a → M'.memberTable pi.pid = some a :=
    fun pi hpi a hs => by
    rw [hpruned.memberTable]
    exact (hgrown.kept _ a (hseen pi hpi a hs)).1
  refine ⟨M', kids', fams', L', ?_, hinv', ⟨hpruned.registration.trans hsame.registration, hothers,
    hpruned.tree.trans hsame.tree, ?_, fun a => ?_, hpruned.sub, fun pi hpi => ?_,
    fun pid a ha => ?_, fun pi hpi a hs => ⟨hstays pi hpi a hs, ?_⟩, ?_, fun htimes f hf => ?_⟩⟩
  · rw [snapshot, hrun1]
    simp [hrun2, hrun3, hrun4, hrun5, hrun6, hrun']
  · rw [hpruned.made, ← hswept.made]
    exact hgrown.made
  · rw [hpruned.stillAlive]
    exact hgrown.idle hswept.idle a
  · by_cases hs : ∃ a, Seen M pi a
    · obtain ⟨a, hs⟩ := hs
      refine ⟨a, hstays pi hpi a hs, ?_⟩
      rw [hpruned.procInfo, (hgrown.kept _ a (hseen pi hpi a hs)).2, hswept.procInfo pi hpi a hs]
    · -- the process was left, and has been added
      have hpirest : pi ∈ rest := (hrest pi).mpr ⟨hpi, fun a hs' => hs ⟨a, hs'⟩⟩
      obtain ⟨a, ha⟩ := Option.ne_none_iff_exists'.mp (hall pi hpirest)
      refine ⟨a, by rw [hpruned.memberTable]; exact ha, ?_⟩
      rw [hpruned.procInfo]
      rcases hgrown.new _ a ha with ha3 | hmem
      · obtain ⟨q, hq, hpid, hs'⟩ := (hswept.table _ a).mp ha3
        rw [hps.eq_of_pid hq hpi hpid] at hs'
        exact absurd ⟨a, hs'⟩ hs
      · exact hps.eq_of_pid (hrestps hmem) hpi (hinv6.mem_of_table ha).2.2
  · rw [hpruned.memberTable] at ha
    rw [hpruned.procInfo]
    rcases hgrown.new _ a ha with ha3 | hmem
    · obtain ⟨pi, hpi, -, hs⟩ := (hswept.table _ a).mp ha3
      rw [(hgrown.kept _ a ha3).2, hswept.procInfo pi hpi a hs]
      exact hpi
    · exact hrestps hmem
  · have ha' := hstays pi hpi a hs
    have ha3 := hseen pi hpi a hs
    have ha6 := (hgrown.kept _ a ha3).1
    rw [← hothers, hinv'.family_eq_everybodyElse_iff ha', hpruned.everybodyElse, hpruned.others,
      ← hinv6.family_eq_everybodyElse_iff ha6, hgrown.everybodyElse,
      hgrown.family_eq_everybodyElse_iff hinv3 ha3,
      hinv3.family_eq_everybodyElse_iff ha3, hswept.everybodyElse,
      h.family_eq_everybodyElse_iff hs.1, mem_filter]
    exact and_iff_left_of_imp fun hmem => (h.isIn_iff mem_cons_self hmem).mpr ⟨pi, hpi, hs⟩
  · rw [hpruned.exited, hgrown.exited]
    exact total_congr hswept.exited
  · rw [hpruned.usage f hf]
    exact (hswept.usage htimes f (hpruned.sub hf)).trans (hgrown.usage f (hpruned.sub hf))

end Condor.Procd
