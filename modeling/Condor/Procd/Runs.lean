import Condor.Procd.Snapshot

/-!
# Runs of the monitor

The monitor starts with a snapshot and answers requests. Every request returns, and after each one
the processes of the last snapshot are divided among the families of the tree and everybody else.

* **`partition_of_run`**.
-/

namespace Condor.Procd

open List Monitor Function
variable {M M' : Monitor} {kids kids' : Addr → List Addr} {fams fams' : List Addr}
  {L L' : Addr → List Addr}
  {f p a : Addr} {pid : ℤ} {ps qs : List ProcInfo} {op : Op} {ops : List Op}

/-- The list of the snapshot that a request takes; a registration that is refused takes none. -/
def Op.taken : Op → Option (List ProcInfo)
  | .snapshot ps => some ps
  | .register rootPid watcherPid interval ps =>
    if rootPid ≤ 0 ∨ watcherPid < 0 ∨ interval < -1 then none else some ps
  | .unregister _ => none

/-- The constructor of `ProcFamilyMonitor`, with its first snapshot. -/
def start (pid birthday maxSnapshotInterval : ℤ) (ps : List ProcInfo) : Option Monitor :=
  (fresh pid birthday maxSnapshotInterval).snapshot ps

def run : List Op → Monitor → Option Monitor
  | [], M => some M
  | op :: ops, M => (step M op).bind (run ops)

def lastSnapshot (ps : List ProcInfo) : List Op → List ProcInfo
  | [] => ps
  | op :: ops => lastSnapshot (op.taken.getD ps) ops

/-- The members are the processes of a list, as they are in it. -/
structure Listed (M : Monitor) (ps : List ProcInfo) : Prop where
  proper : Proper ps
  listed : ∀ pi ∈ ps, ∃ a, M.memberTable pi.pid = some a ∧ M.procInfo a = pi
  only : ∀ pid a, M.memberTable pid = some a → M.procInfo a ∈ ps

/-- A family comes or goes, with the same processes and the times of the other families. -/
structure Kept (M : Monitor) (fams : List Addr) (M' : Monitor) (fams' : List Addr) : Prop where
  everybodyElse : M'.everybodyElse = M.everybodyElse
  tree : M'.tree = M.tree
  procInfo : M'.procInfo = M.procInfo
  stillAlive : M'.stillAlive = M.stillAlive
  memberTable : M'.memberTable = M.memberTable
  made : M.made ≤ M'.made
  old : ∀ f ∈ fams', f < M.made → f ∈ fams
  family : ∀ pid a, M.memberTable pid = some a →
    (M'.family a = M.everybodyElse ↔ M.family a = M.everybodyElse)
  exited : total M'.exited fams' = total M.exited fams
  usage : ∀ f ∈ fams, f ∈ fams' → M'.usage f = M.usage f

theorem Kept.refl (M : Monitor) : Kept M fams M fams :=
  ⟨rfl, rfl, rfl, rfl, rfl, Nat.le_refl _, fun _ h _ => h, fun _ _ _ => Iff.rfl, rfl,
    fun _ _ _ => rfl⟩

theorem Kept.listed (h : Kept M fams M' fams') (hM : Listed M ps) : Listed M' ps where
  proper := hM.proper
  listed := by rw [h.memberTable, h.procInfo]; exact hM.listed
  only := by rw [h.memberTable, h.procInfo]; exact hM.only

/-! ## The parts of a request -/

theorem newFamily_kept (h : Inv M kids fams L) (ha : M.memberTable pid = some a)
    (hp : M.family a ∈ fams) {r : Registration} (hr : M.familyTable r.rootPid = none) :
    ∃ M' kids' fams' L', M.newFamily a r = some M' ∧ Inv M' kids' fams' L' ∧ Kept M fams M' fams' ∧
      fams ⊆ fams' ∧ ∀ f ∈ fams, M'.registration f = M.registration f := by
  obtain ⟨-, hmem, -⟩ := h.mem_of_table ha
  obtain ⟨M', hrun, hinv, hM'⟩ := newFamily_spec h hp hmem hr
  have hmem' : ∀ g, g ∈ insertAfter (M.family a) M.made fams ↔ g = M.made ∨ g ∈ fams := fun g => by
    rw [(perm_insertAfter hp).mem_iff, mem_cons]
  have hold : ∀ g ∈ M.everybodyElse :: fams, g ≠ M.made := fun g hg heq => Nat.lt_irrefl M.made (by
    have := h.tree.old g hg
    rwa [heq] at this)
  have hsub : fams ⊆ insertAfter (M.family a) M.made fams := fun g hg => (hmem' g).mpr (.inr hg)
  refine ⟨M', _, _, _, hrun, hinv,
    ⟨hM'.everybodyElse, hM'.tree, hM'.procInfo, hM'.stillAlive, hM'.memberTable,
    by rw [hM'.made]; exact Nat.le_succ _, fun g hg hlt =>
    ((hmem' g).mp hg).resolve_left (Nat.ne_of_lt hlt),
    fun pid b hb => ?_, ?_, fun g hg _ => newFamily_usage h hp hmem hinv hM' hg⟩, hsub,
      fun g hg => ?_⟩
  · have hb' : M'.memberTable pid = some b := by rw [hM'.memberTable]; exact hb
    rw [← hM'.everybodyElse, hinv.family_eq_everybodyElse_iff hb', hM'.everybodyElse,
      h.family_eq_everybodyElse_iff hb,
      update_of_ne (hold _ mem_cons_self), update_of_ne (h.tree.ne_everybodyElse hp).symm]
  · rw [hM'.exited, total_perm (perm_insertAfter hp), total_cons, update_self, zero_add]
    exact total_congr fun g hg => update_of_ne (hold g (mem_cons_of_mem _ hg)) ..
  · rw [hM'.registration, update_of_ne (hold g (mem_cons_of_mem _ hg))]

theorem Pruned.kept (h : Inv M kids fams L) (h' : Inv M' kids' fams' L')
    (hpruned : Pruned M fams L M' fams' L') :
    Kept M fams M' fams' where
  everybodyElse := hpruned.everybodyElse
  tree := hpruned.tree
  procInfo := hpruned.procInfo
  stillAlive := hpruned.stillAlive
  memberTable := hpruned.memberTable
  made := Nat.le_of_eq hpruned.made.symm
  old f hf _ := hpruned.sub hf
  family pid a ha := by
    have ha' : M'.memberTable pid = some a := by rw [hpruned.memberTable]; exact ha
    rw [← hpruned.everybodyElse, h'.family_eq_everybodyElse_iff ha', hpruned.everybodyElse,
      hpruned.others, h.family_eq_everybodyElse_iff ha]
  exited := hpruned.exited
  usage f _ hf := hpruned.usage f hf

theorem lookupFamily_false : M.lookupFamily pid false = M.familyTable pid := by
  simp [lookupFamily]

/-- **`unregister_subfamily`** returns; only the family with the pid goes. -/
theorem unregisterSubfamily_spec (h : Inv M kids fams L) :
    ∃ e M' kids' fams' L', M.unregisterSubfamily pid = some (e, M') ∧ Inv M' kids' fams' L' ∧
      Kept M fams M' fams' ∧
      (∀ f ∈ fams, M.lookupFamily pid false ≠ some f → f ∈ fams') ∧
      M'.registration = M.registration := by
  unfold unregisterSubfamily
  rw [lookupFamily_false]
  cases hf : M.familyTable pid with
  | none => exact ⟨_, M, kids, fams, L, rfl, h, Kept.refl M, fun _ hf _ => hf, rfl⟩
  | some f =>
    obtain ⟨hfm, -⟩ := (h.tree.table pid f).mp hf
    rcases h.tree.parent_eq hfm with ⟨-, hnone⟩ | ⟨p, hp, hfp, hsome⟩
    · exact ⟨.unregisterRoot, M, kids, fams, L, by simp [hnone], h, Kept.refl M,
        fun _ hf _ => hf, rfl⟩
    · obtain ⟨M', L', hrun, hinv, hpruned⟩ := unregister_pruned h hp hfp
      refine ⟨.success, M', _, _, L', ?_, hinv, hpruned.kept h hinv, fun g hg hgf => ?_,
        hpruned.registration⟩
      · simp [hsome, hrun]
      · have : g ≠ f := fun heq => hgf (by rw [heq])
        simp [hg, this]

def Monitor.registerAfter (M : Monitor) (rootPid watcherPid interval : ℤ) :
    Option (ProcFamilyError × Monitor) :=
  match M.memberTable rootPid with
  | none => some (.processNotFamily, M)
  | some a =>
    if M.family a = M.everybodyElse then some (.processNotFamily, M)
    else if M.lookupFamily rootPid false ≠ none then some (.alreadyRegistered, M)
    else (M.newFamily a ⟨rootPid, (M.procInfo a).birthday, watcherPid, interval⟩).map (.success, ·)

theorem registerAfter_spec (h : Inv M kids fams L) (rootPid watcherPid interval : ℤ) :
    ∃ e M' kids' fams' L', M.registerAfter rootPid watcherPid interval = some (e, M') ∧
      Inv M' kids' fams' L' ∧
      Kept M fams M' fams' ∧ fams ⊆ fams' ∧ ∀ f ∈ fams, M'.registration f = M.registration f := by
  have hstay : Kept M fams M fams ∧ fams ⊆ fams ∧ ∀ f ∈ fams, M.registration f = M.registration f :=
    ⟨Kept.refl M, Subset.refl _, fun _ _ => rfl⟩
  unfold registerAfter
  cases ha : M.memberTable rootPid with
  | none => exact ⟨_, M, kids, fams, L, rfl, h, hstay⟩
  | some a =>
    simp only
    by_cases hother : M.family a = M.everybodyElse
    · exact ⟨_, M, kids, fams, L, if_pos hother, h, hstay⟩
    · rw [if_neg hother, lookupFamily_false]
      by_cases hlookup : M.familyTable rootPid = none
      · have hfamily : M.family a ∈ fams := (mem_cons.mp (h.mem_of_table ha).1).resolve_left hother
        obtain ⟨M', kids', fams', L', hrun, hinv, hkept⟩ := newFamily_kept h ha hfamily
          (r := ⟨rootPid, (M.procInfo a).birthday, watcherPid, interval⟩) hlookup
        exact ⟨.success, M', kids', fams', L', by rw [if_neg (not_not.mpr hlookup), hrun]; rfl,
          hinv, hkept⟩
      · exact ⟨_, M, kids, fams, L, if_pos hlookup, h, hstay⟩

theorem registerSubfamily_eq {rootPid watcherPid interval : ℤ} (hroot : 0 < rootPid)
    (hwatcher : 0 ≤ watcherPid) (hinterval : -1 ≤ interval) :
    M.registerSubfamily rootPid watcherPid interval ps =
      (M.snapshot ps).bind fun M => M.registerAfter rootPid watcherPid interval := by
  rw [registerSubfamily, if_neg (by omega), if_neg (by omega), if_neg (by omega)]
  refine bind_congr fun M => ?_
  unfold registerAfter
  cases M.memberTable rootPid with
  | none => rfl
  | some a =>
    simp only [Option.map_eq_bind]
    rfl

/-- **One request** is a snapshot, if it takes one, and at most one family that comes or goes. -/
theorem step_spec (h : Inv M kids fams L) (hidle : Idle M)
    (hop : ∀ qs, op.taken = some qs → Proper qs) :
    ∃ M1 kids1 fams1 L1 M' kids' fams' L', step M op = some M' ∧ Inv M1 kids1 fams1 L1 ∧
      Inv M' kids' fams' L' ∧ Kept M1 fams1 M' fams' ∧
      (op.taken = none → M1 = M ∧ fams1 = fams) ∧ ∀ qs, op.taken = some qs →
      Snapped M fams L qs M1 fams1 := by
  cases op with
  | snapshot ps =>
    obtain ⟨M', kids', fams', L', hrun, hinv, hsnapped⟩ := snapshot_spec h hidle (hop ps rfl)
    exact ⟨M', kids', fams', L', M', kids', fams', L', hrun, hinv, hinv, Kept.refl M', nofun,
      fun qs hqs => by
      obtain rfl : ps = qs := Option.some.inj hqs
      exact hsnapped⟩
  | unregister pid =>
    obtain ⟨e, M', kids', fams', L', hrun, hinv, hkept, -⟩ := unregisterSubfamily_spec h
    exact ⟨M, kids, fams, L, M', kids', fams', L', by rw [step, hrun]; rfl, h, hinv, hkept,
      fun _ => ⟨rfl, rfl⟩, nofun⟩
  | register rootPid watcherPid interval ps =>
    by_cases hbad : rootPid ≤ 0 ∨ watcherPid < 0 ∨ interval < -1
    · have hrefused : step M (.register rootPid watcherPid interval ps) = some M := by
        rw [step, registerSubfamily]
        split
        · rfl
        · split
          · rfl
          · split
            · rfl
            · omega
      have hnone : (Op.register rootPid watcherPid interval ps).taken = none := if_pos hbad
      exact ⟨M, kids, fams, L, M, kids, fams, L, hrefused, h, h, Kept.refl M, fun _ => ⟨rfl, rfl⟩,
        fun qs hqs => by
        rw [hnone] at hqs
        cases hqs⟩
    · have hsome : (Op.register rootPid watcherPid interval ps).taken = some ps := if_neg hbad
      simp only [not_or, not_le, not_lt] at hbad
      obtain ⟨M1, kids1, fams1, L1, hrun1, hinv1, hsnapped⟩ := snapshot_spec h hidle (hop ps hsome)
      obtain ⟨e, M', kids', fams', L', hrun, hinv, hkept, -⟩ :=
        registerAfter_spec hinv1 rootPid watcherPid interval
      refine ⟨M1, kids1, fams1, L1, M', kids', fams', L', ?_, hinv1, hinv, hkept, fun hnone => ?_,
        fun qs hqs => ?_⟩
      · rw [step, registerSubfamily_eq hbad.1 hbad.2.1 hbad.2.2, hrun1, Option.bind_some, hrun]
        rfl
      · rw [hsome] at hnone
        cases hnone
      · rw [hsome] at hqs
        obtain rfl : ps = qs := Option.some.inj hqs
        exact hsnapped

/-! ## Runs -/

theorem Kept.idle (h : Kept M fams M' fams') (hidle : Idle M) :
    Idle M' := fun a => by rw [h.stillAlive, hidle a]

theorem step_listed (h : Inv M kids fams L) (hidle : Idle M) (hlisted : Listed M ps)
    (hop : ∀ qs, op.taken = some qs → Proper qs) :
    ∃ M' kids' fams' L', step M op = some M' ∧ Inv M' kids' fams' L' ∧ Idle M' ∧
      Listed M' (op.taken.getD ps) := by
  obtain ⟨M1, kids1, fams1, L1, M', kids', fams', L', hrun, -, hinv, hkept, hnone, hsome⟩ :=
    step_spec h hidle hop
  refine ⟨M', kids', fams', L', hrun, hinv, ?_⟩
  cases htaken : op.taken with
  | none =>
    obtain ⟨rfl, rfl⟩ := hnone htaken
    exact ⟨hkept.idle hidle, hkept.listed hlisted⟩
  | some qs =>
    have hsnapped := hsome qs htaken
    exact ⟨hkept.idle hsnapped.idle, hkept.listed ⟨hop qs htaken, hsnapped.listed, hsnapped.only⟩⟩

theorem run_listed (h : Inv M kids fams L) (hidle : Idle M) (hlisted : Listed M ps)
    (hops : ∀ op ∈ ops, ∀ qs, op.taken = some qs → Proper qs) :
    ∃ M' kids' fams' L', run ops M = some M' ∧ Inv M' kids' fams' L' ∧ Idle M' ∧
      Listed M' (lastSnapshot ps ops) := by
  induction ops generalizing M kids fams L ps with
  | nil => exact ⟨M, kids, fams, L, rfl, h, hidle, hlisted⟩
  | cons op ops ih =>
    obtain ⟨M1, kids1, fams1, L1, hrun1, hinv1, hidle1, hlisted1⟩ := step_listed h hidle hlisted
      (hops op mem_cons_self)
    obtain ⟨M', kids', fams', L', hrun, hrest⟩ := ih hinv1 hidle1 hlisted1 fun op' h' =>
      hops op' (mem_cons_of_mem _ h')
    exact ⟨M', kids', fams', L', by rw [run, hrun1, Option.bind_some, hrun], hrest⟩

/-- Before the first snapshot there is only the root. -/
theorem fresh_inv (pid birthday interval : ℤ) :
    Inv (fresh pid birthday interval) (fun _ => []) [1] fun _ => [] where
  tree :=
    { forest := show Forest _ [1] (1 :: ([] ++ [])) from .cons .nil .nil
      nodup := by simp [fresh]
      old := by simp [fresh]
      links := ⟨fun _ _ => rfl, fun _ _ => trivial, nofun, rfl⟩
      table := fun q f => by
        change update (fun _ => none) pid (some 1) q = some f ↔ _
        rw [update_apply, mem_singleton]
        split
        · exact ⟨fun h => ⟨(Option.some.inj h).symm, by
            rw [← Option.some.inj h]; exact Eq.symm ‹q = pid›⟩, fun h => by rw [h.1]⟩
        · exact iff_of_false nofun fun h => ‹¬ q = pid› (by rw [← h.2, h.1]; rfl)
      mappings := by simp [fresh]
      mappings_nodup := by simp [fresh]
      others := rfl
      unwatched := rfl }
  lists := fun f _ => ⟨rfl, trivial, trivial, nodup_nil, nofun, nofun⟩
  table := fun _ _ => iff_of_false nofun nofun

/-- **Families partition the processes.** In every run the requests return, the table has exactly
the processes of the last snapshot, each in the list of its family, and all links are right. -/
theorem partition_of_run (pid birthday interval : ℤ) (ps : List ProcInfo) (ops : List Op)
    (hps : Proper ps) (hops : ∀ op ∈ ops, ∀ qs, op.taken = some qs → Proper qs) :
    ∃ M kids fams L, (start pid birthday interval ps).bind (run ops) = some M ∧ Inv M kids fams L ∧
      ∀ q, M.memberTable q ≠ none ↔ q ∈ (lastSnapshot ps ops).map ProcInfo.pid := by
  obtain ⟨M0, kids0, fams0, L0, hrun0, hinv0, hsnapped⟩ :=
    snapshot_spec (fresh_inv pid birthday interval) (fun _ => rfl) hps
  obtain ⟨M, kids, fams, L, hrun, hinv, -, hlisted⟩ := run_listed hinv0 hsnapped.idle
    ⟨hps, hsnapped.listed, hsnapped.only⟩ hops
  refine ⟨M, kids, fams, L, by rw [start, hrun0, Option.bind_some, hrun], hinv,
    fun q => ⟨fun hq => ?_, fun hq => ?_⟩⟩
  · obtain ⟨a, ha⟩ := Option.ne_none_iff_exists'.mp hq
    exact mem_map.mpr ⟨M.procInfo a, hlisted.only q a ha, (hinv.mem_of_table ha).2.2⟩
  · obtain ⟨pi, hpi, rfl⟩ := mem_map.mp hq
    obtain ⟨a, ha, -⟩ := hlisted.listed pi hpi
    rw [ha]
    nofun

/-- A subfamily of the process 11, watched by the process 7, that goes with its watcher. -/
theorem partition_of_run_watched :
    ∃ M kids fams L, (start 10 5 60 [⟨10, 1, 5, 3, 4⟩, ⟨11, 10, 6, 1, 0⟩, ⟨7, 1, 1, 9, 9⟩]).bind
      (run [.register 11 7 30 [⟨10, 1, 5, 3, 4⟩, ⟨11, 10, 6, 2, 0⟩, ⟨7, 1, 1, 9, 9⟩,
      ⟨12, 11, 8, 0, 1⟩],
        .snapshot [⟨12, 11, 8, 0, 2⟩, ⟨10, 1, 5, 4, 4⟩, ⟨11, 12, 9, 0, 0⟩], .unregister 11]) =
        some M ∧
      Inv M kids fams L ∧ ∀ q, M.memberTable q ≠ none ↔ q ∈ [12, 10, 11] :=
  partition_of_run 10 5 60 _ _ ⟨by decide, by decide⟩ (by
    simp only [mem_cons, not_mem_nil, or_false, forall_eq_or_imp]
    refine ⟨?_, ?_, nofun⟩ <;> rintro qs ⟨⟩ <;> exact ⟨by decide, by decide⟩)

end Condor.Procd
