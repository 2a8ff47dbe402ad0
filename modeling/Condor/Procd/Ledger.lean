import Condor.Procd.Runs

/-!
# No CPU time is lost or counted twice

Beside a run there is a ledger of the processes that have ever been in a family of the tree, each
with the times at which it has last been seen. A process that is missing in a snapshot has ended; if
its pid comes again in a later snapshot, then that is another process.

* **`usage_of_run`**.
-/

namespace Condor.Procd

open List Option
open Function (update)

variable {M M' : Monitor} {kids kids' : Addr → List Addr} {fams fams' : List Addr}
  {L L' : Addr → List Addr} {f a : Addr} {ps qs : List ProcInfo} {pi : ProcInfo} {op : Op}
  {ops more : List Op} (pid birthday interval : ℤ)

/-- The processes that have ended in the tree, and those of the last snapshot. -/
structure Ledger where
  ended : List ProcInfo
  living : List ProcInfo

def Monitor.inTree (M : Monitor) (pi : ProcInfo) : Bool :=
  (M.memberTable pi.pid).any fun a => decide (M.family a ≠ M.everybodyElse)

/-- The processes of a snapshot, after which the monitor is in the state `M`. -/
def Ledger.observe (l : Ledger) (M : Monitor) (ps : List ProcInfo) : Ledger where
  ended := l.ended ++ l.living.filter fun p => !ps.any p.same
  living := ps.filter fun p => M.inTree p || l.living.any p.same

def Ledger.times (l : Ledger) : Times := total ProcInfo.times (l.ended ++ l.living)

def account : List Op → Monitor × Ledger → Option (Monitor × Ledger)
  | [], s => some s
  | op :: ops, s => (step s.1 op).bind fun M =>
    account ops (M, match op.taken with
      | none => s.2
      | some ps => s.2.observe M ps)

def accountFrom (ps : List ProcInfo) (ops : List Op) : Option (Monitor × Ledger) :=
  (start pid birthday interval ps).bind fun M => account ops (M, (⟨[], []⟩ : Ledger).observe M ps)

/-- The times of every process do not go back from one snapshot to the next. -/
def Grows : List ProcInfo → List Op → Prop
  | _, [] => True
  | ps, op :: ops =>
    match op.taken with
    | none => Grows ps ops
    | some qs => (∀ p ∈ ps, ∀ q ∈ qs, p.same q = true → p.times ≤ q.times) ∧ Grows qs ops

theorem account_append (s : Monitor × Ledger) :
    account (ops ++ more) s = (account ops s).bind (account more) := by
  induction ops generalizing s with
  | nil => rfl
  | cons op ops ih =>
    rw [cons_append, account, account, bind_assoc]
    exact bind_congr fun M _ => ih _

theorem grows_append : Grows ps (ops ++ more) ↔ Grows ps ops ∧
    Grows (lastSnapshot ps ops) more := by
  induction ops generalizing ps with
  | nil => simp [Grows, lastSnapshot]
  | cons op ops ih =>
    rw [cons_append, Grows, Grows, lastSnapshot]
    cases op.taken with
    | none => exact ih
    | some qs => simp [ih, and_assoc]

theorem ProcInfo.same_iff {p q : ProcInfo} :
    p.same q = true ↔ p.pid = q.pid ∧ p.birthday = q.birthday :=
  decide_eq_true_iff

/-! ## The members of the tree -/

theorem inTree_iff : M.inTree pi = true ↔ ∃ a, M.memberTable pi.pid = some a ∧
    M.family a ≠ M.everybodyElse := by
  unfold Monitor.inTree
  cases M.memberTable pi.pid <;> simp

theorem Inv.nodup_flatMap (h : Inv M kids fams L) : (fams.flatMap L).Nodup := by
  refine List.nodup_flatMap.mpr ⟨fun f hf => (h.lists f (List.mem_cons_of_mem _ hf)).nodup, ?_⟩
  refine h.tree.fams_nodup.imp_of_mem fun {f g} hf hg hne a ha ha' => hne ?_
  exact h.lists.eq_of_mem (List.mem_cons_of_mem _ hf) (List.mem_cons_of_mem _ hg) ha ha'

/-- **The members of the tree** are the processes of the last snapshot that are in the tree. -/
theorem members_perm (h : Inv M kids fams L) (hlisted : Listed M ps) :
    ((fams.flatMap L).map M.procInfo).Perm (ps.filter M.inTree) := by
  have hmember : ∀ a ∈ fams.flatMap L, M.memberTable (M.procInfo a).pid = some a := fun a ha => by
    obtain ⟨f, hf, ha⟩ := mem_flatMap.mp ha
    exact (h.table _ a).mpr ⟨f, mem_cons_of_mem _ hf, ha, rfl⟩
  have hnodup : ((fams.flatMap L).map M.procInfo).Nodup :=
    h.nodup_flatMap.map_on fun a ha b hb heq => by
    have := hmember a ha
    rw [heq, hmember b hb] at this
    exact (some.inj this).symm
  refine (perm_ext_iff_of_nodup hnodup (hlisted.proper.nodup.of_map.filter _)).mpr fun pi => ?_
  rw [List.mem_map, mem_filter, inTree_iff]
  constructor
  · rintro ⟨a, ha, rfl⟩
    refine ⟨hlisted.only _ a (hmember a ha), a, hmember a ha, ?_⟩
    obtain ⟨f, hf, ha⟩ := mem_flatMap.mp ha
    rw [h.family_eq (mem_cons_of_mem _ hf) ha]
    exact h.tree.ne_everybodyElse hf
  · rintro ⟨hpi, a, ha, hother⟩
    obtain ⟨hdom, hmem, -⟩ := h.mem_of_table ha
    refine ⟨a, mem_flatMap.mpr ⟨_, (mem_cons.mp hdom).resolve_left hother, hmem⟩, ?_⟩
    obtain ⟨b, hb, heq⟩ := hlisted.listed pi hpi
    rw [ha] at hb
    rw [some.inj hb, heq]

/-- The state and the ledger after a run with the last snapshot `ps`. -/
structure Accounted (M : Monitor) (fams : List Addr) (ps : List ProcInfo) (l : Ledger) : Prop where
  idle : Idle M
  listed : Listed M ps
  living : l.living = ps.filter M.inTree
  ended : total ProcInfo.times l.ended = total M.exited fams

variable {l : Ledger} {q : ℤ}

theorem Accounted.usage_tree (h : Inv M kids fams L) (hacc : Accounted M fams ps l) :
    M.usage M.tree = l.times := by
  have hliving : total ProcInfo.times l.living = total (fun f => M.timesOf (L f)) fams := by
    rw [hacc.living, ← total_perm (members_perm h hacc.listed), total_map, total_flatMap]
    rfl
  rw [h.usage_eq h.tree.forest h.tree.tree_mem, Ledger.times, total_append, hacc.ended,
    hliving, ← total_add]
  rfl

/-! ## Steps -/

theorem Kept.inTree_eq (hkept : Kept M fams M' fams') : M'.inTree = M.inTree := by
  funext pi
  rw [Bool.eq_iff_iff, inTree_iff, inTree_iff, hkept.memberTable, hkept.everybodyElse]
  exact exists_congr fun a => and_congr_right fun ha => not_congr (hkept.family _ a ha)

theorem Kept.accounted (hkept : Kept M fams M' fams') (hacc : Accounted M fams ps l) :
    Accounted M' fams' ps l where
  idle := hkept.idle hacc.idle
  listed := hkept.listed hacc.listed
  living := by rw [hkept.inTree_eq, hacc.living]
  ended := hacc.ended.trans hkept.exited.symm

theorem Snapped.accounted (h : Inv M kids fams L) (hsnapped : Snapped M fams L qs M' fams')
    (hqs : Proper qs) (hacc : Accounted M fams ps l) : Accounted M' fams' qs (l.observe M' qs) := by
  refine ⟨hsnapped.idle, ⟨hqs, hsnapped.listed, hsnapped.only⟩, ?_, ?_⟩
  · refine List.filter_congr fun pi hpi => ?_
    rw [Bool.or_eq_left_iff_imp, List.any_eq_true]
    -- a process that was in the tree still is
    rintro ⟨q, hq, hsame⟩
    rw [hacc.living, List.mem_filter, inTree_iff] at hq
    obtain ⟨hq, a, ha, hother⟩ := hq
    obtain ⟨hpid, hbirth⟩ := ProcInfo.same_iff.mp hsame
    obtain ⟨b, hb, hinfo⟩ := hacc.listed.listed q hq
    obtain rfl : a = b := Option.some.inj (ha.symm.trans hb)
    obtain ⟨ha', hfamily⟩ := hsnapped.stays pi hpi a ⟨by rw [hpid]; exact ha, by rw [hinfo, hbirth]⟩
    rw [inTree_iff, hsnapped.everybodyElse]
    exact ⟨a, ha', fun heq => hother (hfamily.mp heq)⟩
  · have hgone : total ProcInfo.times (l.living.filter fun p => !qs.any p.same) =
        total (fun f => M.timesOf ((L f).filter fun a => !M.isIn qs a)) fams := by
      rw [hacc.living, ← total_perm ((members_perm h hacc.listed).filter _), List.filter_map,
        total_map, List.filter_flatMap, total_flatMap]
      rfl
    change total _ (_ ++ _) = _
    rw [total_append, hacc.ended, hgone, hsnapped.exited, total_add]

/-- **One request**: a family that was there before and is there afterwards has not lost times. -/
theorem step_accounted (h : Inv M kids fams L) (hacc : Accounted M fams ps l)
    (hop : ∀ qs, op.taken = some qs → Proper qs) :
    ∃ M' kids' fams' L', step M op = some M' ∧ Inv M' kids' fams' L' ∧ M.made ≤ M'.made ∧
      Accounted M' fams' (op.taken.getD ps) (match op.taken with
        | none => l
        | some qs => l.observe M' qs) ∧
      ∀ f ∈ fams', f < M.made → f ∈ fams ∧
        ((∀ qs, op.taken = some qs → ∀ p ∈ ps, ∀ q ∈ qs, p.same q = true → p.times ≤ q.times) →
          M.usage f ≤ M'.usage f) := by
  obtain ⟨M1, kids1, fams1, L1, M', kids', fams', L', hrun, -, hinv, hkept, hnone, hsome⟩ :=
    step_spec h hacc.idle hop
  refine ⟨M', kids', fams', L', hrun, hinv, ?_⟩
  cases htaken : op.taken with
  | none =>
    obtain ⟨rfl, rfl⟩ := hnone htaken
    refine ⟨hkept.made, hkept.accounted hacc, fun f hf hlt => ⟨hkept.old f hf hlt, fun _ => ?_⟩⟩
    rw [hkept.usage f (hkept.old f hf hlt) hf]
  | some qs =>
    have hsnapped := hsome qs htaken
    have hobserve : l.observe M' qs = l.observe M1 qs := by
      unfold Ledger.observe
      rw [hkept.inTree_eq]
    simp only [hobserve]
    refine ⟨Nat.le_trans hsnapped.made hkept.made,
      hkept.accounted (hsnapped.accounted h (hop qs htaken) hacc), fun f hf hlt => ?_⟩
    have hf1 : f ∈ fams1 := hkept.old f hf (Nat.lt_of_lt_of_le hlt hsnapped.made)
    refine ⟨hsnapped.sub hf1, fun hgrows => ?_⟩
    rw [hkept.usage f hf1 hf]
    refine hsnapped.usage (fun pi hpi a hs => ?_) f hf1
    exact hgrows qs rfl _ (hacc.listed.only _ a hs.1) pi hpi
      (ProcInfo.same_iff.mpr ⟨(h.mem_of_table hs.1).2.2, hs.2⟩)

/-- **A run**: the ledger is right, and no family loses times as long as it is there. -/
theorem account_spec (h : Inv M kids fams L) (hacc : Accounted M fams ps l)
    (hops : ∀ op ∈ ops, ∀ qs, op.taken = some qs → Proper qs) :
    ∃ M' l' kids' fams' L', account ops (M, l) = some (M', l') ∧ Inv M' kids' fams' L' ∧
      Accounted M' fams' (lastSnapshot ps ops) l' ∧ M.made ≤ M'.made ∧
      (Grows ps ops → ∀ f ∈ fams', f < M.made → f ∈ fams ∧ M.usage f ≤ M'.usage f) := by
  induction ops generalizing M kids fams L ps l with
  | nil => exact ⟨M, l, kids, fams, L, rfl, h, hacc, Nat.le_refl _, fun _ f hf _ => ⟨hf, le_rfl⟩⟩
  | cons op ops ih =>
    obtain ⟨M1, kids1, fams1, L1, hrun1, hinv1, hmade1, hacc1, husage1⟩ := step_accounted h hacc
      (hops op mem_cons_self)
    obtain ⟨M', l', kids', fams', L', hrun, hinv, hacc', hmade, husage⟩ :=
      ih hinv1 hacc1 fun op' h' => hops op' (mem_cons_of_mem _ h')
    refine ⟨M', l', kids', fams', L', by rw [account, hrun1]; exact hrun, hinv, hacc',
      Nat.le_trans hmade1 hmade, fun hgrows f hf hlt => ?_⟩
    have hgrows' : Grows (op.taken.getD ps) ops ∧
        ∀ qs, op.taken = some qs → ∀ p ∈ ps, ∀ q ∈ qs, p.same q = true → p.times ≤ q.times := by
      rw [Grows] at hgrows
      cases htaken : op.taken with
      | none =>
        rw [htaken] at hgrows
        exact ⟨hgrows, nofun⟩
      | some qs =>
        rw [htaken] at hgrows
        exact ⟨hgrows.2, fun qs' hqs' => by rw [← some.inj hqs']; exact hgrows.1⟩
    obtain ⟨hf1, hle1⟩ := husage hgrows'.1 f hf (Nat.lt_of_lt_of_le hlt hmade1)
    obtain ⟨hf0, hle0⟩ := husage1 f hf1 hlt
    exact ⟨hf0, (hle0 hgrows'.2).trans hle1⟩

theorem accountFrom_spec (hps : Proper ps)
    (hops : ∀ op ∈ ops, ∀ qs, op.taken = some qs → Proper qs) :
    ∃ M l kids fams L, accountFrom pid birthday interval ps ops = some (M, l) ∧ Inv M kids fams L ∧
      Accounted M fams (lastSnapshot ps ops) l := by
  have hfresh := fresh_inv pid birthday interval
  obtain ⟨M0, kids0, fams0, L0, hrun0, hinv0, hsnapped⟩ := snapshot_spec hfresh (fun _ => rfl) hps
  have hacc0 : Accounted (fresh pid birthday interval) [1] [] ⟨[], []⟩ :=
    ⟨fun _ => rfl, ⟨⟨nodup_nil, nofun⟩, nofun, nofun⟩, rfl, rfl⟩
  obtain ⟨M, l, kids, fams, L, hrun, hinv, hacc, -⟩ :=
    account_spec hinv0 (hsnapped.accounted hfresh hps hacc0) hops
  exact ⟨M, l, kids, fams, L, by rw [accountFrom, start, hrun0, bind_some, hrun], hinv, hacc⟩

/-! ## What is reported -/

section

variable (h : Inv M kids fams L)
include h

theorem lookupFamily_iff : M.lookupFamily q true = some f ↔
      (q = 0 ∧ f = M.tree) ∨ (q ≠ 0 ∧ f ∈ fams ∧ (M.registration f).rootPid = q) := by
  unfold Monitor.lookupFamily
  by_cases hq : q = 0
  · simp [hq, eq_comm]
  · simp [hq, h.tree.table]

theorem lookupFamily_mem (hf : M.lookupFamily q true = some f) : f ∈ fams := by
  rcases (lookupFamily_iff h).mp hf with ⟨-, rfl⟩ | ⟨-, hf, -⟩
  · exact h.tree.tree_mem
  · exact hf

theorem getFamilyUsage_eq (hf : M.lookupFamily q true = some f) :
    M.getFamilyUsage q = some (M.usage f) := by
  rw [Monitor.getFamilyUsage, hf]
  exact (h.usage_spec (lookupFamily_mem h hf)).1

theorem Kept.getFamilyUsage_eq (h' : Inv M' kids' fams' L') (hkept : Kept M fams M' fams')
    (hf : M.lookupFamily q true = some f) (hf' : f ∈ fams')
    (hreg : M'.registration f = M.registration f) :
    M'.lookupFamily q true = some f ∧ M'.getFamilyUsage q = M.getFamilyUsage q := by
  have hlookup : M'.lookupFamily q true = some f := by
    rw [lookupFamily_iff h', hkept.tree, hreg]
    exact ((lookupFamily_iff h).mp hf).imp_right fun ⟨hq, _, hpid⟩ => ⟨hq, hf', hpid⟩
  refine ⟨hlookup, ?_⟩
  rw [Procd.getFamilyUsage_eq h hf, Procd.getFamilyUsage_eq h' hlookup,
    hkept.usage f (lookupFamily_mem h hf) hf']

end

/-- **No CPU time is lost or counted twice**, in every run in which the times of processes do not go
back: a family's times do not either, those of the root are of all processes so far, and requests
change no times of families that stay. -/
theorem usage_of_run (ps : List ProcInfo) (ops more : List Op) (hps : Proper ps)
    (hops : ∀ op ∈ ops ++ more, ∀ qs, op.taken = some qs → Proper qs)
    (hgrows : Grows ps (ops ++ more)) :
    ∃ M l M' l', accountFrom pid birthday interval ps ops = some (M, l) ∧
      accountFrom pid birthday interval ps (ops ++ more) = some (M', l') ∧
      (∀ q f, M.lookupFamily q true = some f → M'.lookupFamily q true = some f →
        ∃ u u', M.getFamilyUsage q = some u ∧ M'.getFamilyUsage q = some u' ∧ u ≤ u') ∧
      M'.getFamilyUsage 0 = some l'.times ∧
      (∀ q, ∃ e M'', M'.unregisterSubfamily q = some (e, M'') ∧
        ∀ r f, M'.lookupFamily r true = some f → M'.lookupFamily q false ≠ some f →
          M''.lookupFamily r true = some f ∧ M''.getFamilyUsage r = M'.getFamilyUsage r) ∧
      ∀ rootPid watcherPid maxInterval qs, 0 < rootPid → 0 ≤ watcherPid → -1 ≤ maxInterval →
      Proper qs →
        ∃ e M₁ M'', M'.snapshot qs = some M₁ ∧
          M'.registerSubfamily rootPid watcherPid maxInterval qs = some (e, M'') ∧
          ∀ r f, M₁.lookupFamily r true = some f →
            M''.lookupFamily r true = some f ∧ M''.getFamilyUsage r = M₁.getFamilyUsage r := by
  obtain ⟨M, l, kids, fams, L, hrun, hinv, hacc⟩ :=
    accountFrom_spec pid birthday interval hps fun op hop => hops op (mem_append_left more hop)
  obtain ⟨M', l', kids', fams', L', hrun', hinv', hacc', -, husage⟩ :=
    account_spec hinv hacc fun op hop => hops op (mem_append_right ops hop)
  refine ⟨M, l, M', l', hrun, ?_, fun q f hf hf' => ?_, ?_, fun q => ?_,
    fun rootPid watcherPid maxInterval qs hroot
    hwatcher hinterval hqs => ?_⟩
  · obtain ⟨M₀, hM0, hrun⟩ := bind_eq_some_iff.mp hrun
    rw [accountFrom, hM0, bind_some, account_append, hrun, bind_some, hrun']
  · have hold : f < M.made := hinv.tree.old f (mem_cons_of_mem _ (lookupFamily_mem hinv hf))
    exact ⟨_, _, getFamilyUsage_eq hinv hf, getFamilyUsage_eq hinv' hf',
      (husage (grows_append.mp hgrows).2 f (lookupFamily_mem hinv' hf') hold).2⟩
  · rw [getFamilyUsage_eq hinv' ((lookupFamily_iff hinv').mpr (.inl ⟨rfl, rfl⟩)),
      hacc'.usage_tree hinv']
  · obtain ⟨e, M'', kids'', fams'', L'', hrun'', hinv'', hkept, hstay, hreg⟩ :=
      unregisterSubfamily_spec hinv'
    refine ⟨e, M'', hrun'', fun r f hf hne => ?_⟩
    exact hkept.getFamilyUsage_eq hinv' hinv'' hf (hstay f (lookupFamily_mem hinv' hf) hne)
      (by rw [hreg])
  · obtain ⟨M₁, kids₁, fams₁, L₁, hrun₁, hinv₁, -⟩ := snapshot_spec hinv' hacc'.idle hqs
    obtain ⟨e, M'', kids'', fams'', L'', hrun'', hinv'', hkept, hsub, hreg⟩ :=
      registerAfter_spec hinv₁ rootPid watcherPid maxInterval
    refine ⟨e, M₁, M'', hrun₁, ?_, fun r f hf => ?_⟩
    · rw [registerSubfamily_eq hroot hwatcher hinterval, hrun₁, bind_some, hrun'']
    · have hf₁ := lookupFamily_mem hinv₁ hf
      exact hkept.getFamilyUsage_eq hinv₁ hinv'' hf (hsub hf₁) (hreg f hf₁)

/-- The process 11 and its family exit, and the times of both are with the root. -/
theorem usage_of_run_exited : ∃ M l, accountFrom 10 5 60 [⟨10, 1, 5, 3, 4⟩, ⟨11, 10, 6, 1, 0⟩]
        [.register 11 10 30 [⟨10, 1, 5, 3, 4⟩, ⟨11, 10, 6, 2, 0⟩, ⟨12, 11, 8, 0, 1⟩],
          .snapshot [⟨12, 11, 8, 0, 2⟩, ⟨10, 1, 5, 4, 4⟩]] = some (M, l) ∧
      M.getFamilyUsage 0 = some l.times := by
  obtain ⟨_, _, M, l, -, hrun, -, htimes, -⟩ :=
    usage_of_run 10 5 60 [⟨10, 1, 5, 3, 4⟩, ⟨11, 10, 6, 1, 0⟩]
      [.register 11 10 30 [⟨10, 1, 5, 3, 4⟩, ⟨11, 10, 6, 2, 0⟩, ⟨12, 11, 8, 0, 1⟩]]
      [.snapshot [⟨12, 11, 8, 0, 2⟩, ⟨10, 1, 5, 4, 4⟩]] ⟨by decide, by decide⟩
      (by
        simp only [cons_append, nil_append, mem_cons, not_mem_nil, or_false, forall_eq_or_imp,
          forall_eq]
        refine ⟨?_, ?_⟩ <;> rintro qs ⟨⟩ <;> exact ⟨by decide, by decide⟩)
      (by
        refine ⟨?_, ?_, trivial⟩
        · decide
        · decide)
  exact ⟨M, l, hrun, htimes⟩

end Condor.Procd
