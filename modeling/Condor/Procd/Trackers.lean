import Condor.Procd.Families
import Mathlib.Algebra.Order.Group.Nat
import Mathlib.Algebra.Order.Monoid.Prod

/-!
# Finding the families of new processes

A tracker puts a process into a family of the tree, or moves it to a family further down. No process
goes back up, and no family loses times. The tracker of parents goes on as long as it finds
something, and it comes to an end, since a process can only be moved down as often as there are
families.

* **`findProcesses_spec`**, **`findByParent_spec`**, **`addRest_spec`**.
-/

namespace Condor.Procd

open List Function Monitor

variable {M M' : Monitor} {kids : Addr → List Addr} {dom fams cs l : List Addr}
  {L L' : Addr → List Addr}
  {f g p a c : Addr} {n : ℕ} {t : Times}

/-- The times of the members and of the exited processes of one family. -/
def own (M : Monitor) (L : Addr → List Addr) (f : Addr) : Times := M.exited f + M.timesOf (L f)

def Monitor.usage (M : Monitor) (f : Addr) : Times := (M.familyUsage f).getD 0

/-! ## What is reported -/

theorem sumTimes_spec (hseg : Segment M.next l none) (hn : l.length ≤ n) :
    M.sumTimes n l.head? = some (M.timesOf l) := by
  induction l generalizing n with
  | nil => cases n <;> rfl
  | cons a l ih =>
    obtain _ | n := n
    · simp at hn
    have hnext : M.next a = l.head? := by rw [hseg.1, Option.or_none]
    rw [head?_cons, sumTimes, hnext, ih hseg.2 (by simpa using hn)]
    rfl

theorem aggregateUsage_spec (h : Lists M dom L) (hf : f ∈ dom) :
    M.aggregateUsage f = some (own M L f) := by
  have hlen : (L f).length ≤ M.made := length_le_of_old (h f hf).nodup (h f hf).old
  rw [aggregateUsage, (h f hf).head, sumTimes_spec (h f hf).forth hlen, Option.map_some,
    own, add_comm]

section

variable (h : Inv M kids fams L)
include h

theorem usageFrom_spec (hforest : Forest kids cs l) (hsub : l ⊆ fams)
    (hseg : Segment M.sibling cs none) (hn : l.length ≤ n) :
    M.usageFrom n cs.head? = some (total (own M L) l) := by
  induction hforest generalizing n with
  | nil => cases n <;> rfl
  | @cons c cs l1 l2 below beside ih1 ih2 =>
    obtain _ | n := n
    · simp at hn
    have hlen : l1.length + l2.length ≤ n := by simpa using hn
    have hc : c ∈ fams := hsub mem_cons_self
    have hbelow := ih1 (fun d hd => hsub (mem_cons_of_mem _ (mem_append_left _ hd)))
      (h.tree.links.sibling c hc) (by omega : l1.length ≤ n)
    have hbeside := ih2 (fun d hd => hsub (mem_cons_of_mem _ (mem_append_right _ hd))) hseg.2
      (by omega : l2.length ≤ n)
    have hnext : M.sibling c = cs.head? := by rw [hseg.1, Option.or_none]
    rw [head?_cons, usageFrom, aggregateUsage_spec h.lists (mem_cons_of_mem _ hc),
      h.tree.links.child c hc, hnext, hbelow, hbeside, total_cons, total_append, ← add_assoc]
    rfl

theorem familyUsage_spec (hforest : Forest kids [f] l) (hsub : l.Sublist fams) :
    M.familyUsage f = some (total (own M L) l) := by
  have hlen : l.length ≤ M.made := Nat.le_trans hsub.length_le h.tree.length_le
  cases hforest with
  | @cons _ _ l1 l2 below beside =>
    cases beside
    rw [append_nil] at hsub ⊢
    have hf : f ∈ fams := hsub.subset mem_cons_self
    have hbelow := usageFrom_spec h below (fun d hd => hsub.subset (mem_cons_of_mem _ hd))
      (h.tree.links.sibling f hf) (n := M.made) (by simp at hlen; omega)
    rw [familyUsage, aggregateUsage_spec h.lists (mem_cons_of_mem _ hf), h.tree.links.child f hf,
      hbelow]
    rfl

theorem Inv.usage_spec (hf : f ∈ fams) : M.familyUsage f = some (M.usage f) ∧
      ∃ l, Forest kids [f] l ∧ l.Sublist fams ∧ M.usage f = total (own M L) l := by
  obtain ⟨l, hforest, hsub⟩ := h.tree.forest.exists_below hf
  have hspec := familyUsage_spec h hforest hsub
  have husage : M.usage f = total (own M L) l := by rw [usage, hspec, Option.getD_some]
  exact ⟨by rw [hspec, husage], l, hforest, hsub, husage⟩

theorem Inv.usage_eq (hforest : Forest kids [f] l) (hf : f ∈ fams) :
    M.usage f = total (own M L) l := by
  obtain ⟨-, l', hforest', -, husage⟩ := h.usage_spec hf
  rw [husage, hforest.eq hforest']

/-! ## Members come and are moved -/

theorem Inv.usage_le (h' : Inv M' kids fams L')
    (hown : ∀ f ∈ fams, own M L f ≤ own M' L' f) (hf : f ∈ fams) : M.usage f ≤ M'.usage f := by
  obtain ⟨-, l, hforest, hsub, husage⟩ := h.usage_spec hf
  rw [husage, h'.usage_eq hforest hf]
  exact total_mono fun g hg => hown g (hsub.subset hg)

theorem Inv.usage_le_of_moveDown (h' : Inv M' kids fams L') (hf : f ∈ fams)
    (habove : Above kids f g) (hownf : own M L f = own M' L' f + t)
    (howng : own M' L' g = own M L g + t) (hother : ∀ b, b ≠ f → b ≠ g → own M' L' b = own M L b)
    (hc : c ∈ fams) : M.usage c ≤ M'.usage c := by
  obtain ⟨-, l, hforest, hsub, husage⟩ := h.usage_spec hc
  have hne : f ≠ g := fun heq => Nat.lt_irrefl _ (by
    have hlt := habove.idxOf_lt h.tree.forest h.tree.fams_nodup hf
    rwa [heq] at hlt)
  rw [husage, h'.usage_eq hforest hc]
  exact total_moveDown (h.tree.fams_nodup.sublist hsub) (habove.mem hforest) hne zero_le hownf
    howng hother

/-! ## Families go and come -/

/-- **A family goes**, and the times of the others stay. -/
theorem unregister_usage (hp : p ∈ fams) (hf : f ∈ kids p)
    (h' : Inv M' (fun c => splice kids f (kids c)) (fams.filter (· ≠ f))
      (update (update L p (L f ++ L p)) f []))
    (hM' : Unregistered M f p M') (hc : c ∈ fams) (hcf : c ≠ f) : M'.usage c = M.usage c := by
  obtain ⟨-, l, hforest, hsub, husage⟩ := h.usage_spec hc
  have hnodup := h.tree.fams_nodup
  have hpf : p ≠ f := (h.tree.forest.ne_of_mem_kids hnodup hp hf).symm
  have hforest' := forest_splice hforest (hnodup.sublist hsub) f
  rw [splice_of_notMem fun h'' => hcf (mem_singleton.mp h'').symm] at hforest'
  rw [husage, h'.usage_eq hforest' (by simp [hc, hcf])]
  refine total_splice h.tree.forest hnodup hp hf hforest hsub hcf ?_ fun b hbf hbp => ?_
  · unfold own timesOf
    rw [hM'.exited, hM'.procInfo, update_self, update_of_ne hpf, update_self, total_append,
      add_comm (total _ (L f)), add_add_add_comm]
  · unfold own timesOf
    rw [hM'.exited, hM'.procInfo, update_of_ne hbp, update_of_ne hbf, update_of_ne hbp]

/-- **A family comes**, and the times of the others stay. -/
theorem newFamily_usage (hp : p ∈ fams) (ha : a ∈ L p) {r : Registration}
    (h' : Inv M' (update (update kids M.made []) p (M.made :: kids p)) (insertAfter p M.made fams)
      (update (update L p ((L p).erase a)) M.made [a]))
    (hM' : Registered M r M') (hc : c ∈ fams) : M'.usage c = M.usage c := by
  obtain ⟨-, l, hforest, hsub, husage⟩ := h.usage_spec hc
  have hl := h.tree.fams_nodup.sublist hsub
  have hnew : ∀ b ∈ fams, b ≠ M.made := fun b hb h'' => Nat.lt_irrefl M.made (by
    have hold := h.tree.old b (mem_cons_of_mem _ hb)
    rwa [h''] at hold)
  have hout : M.made ∉ l := fun h'' => hnew _ (hsub.subset h'') rfl
  have hpnew : p ≠ M.made := hnew p hp
  have hkids : update (update kids M.made []) p (M.made :: kids p) M.made = [] := by
    rw [update_of_ne hpnew.symm, update_self]
  have hforest' := forest_insert hforest hl hout hkids (update_self ..) fun d hd hdp => by
    rw [update_of_ne hdp, update_of_ne (hnew d (hsub.subset hd))]
  rw [husage, h'.usage_eq hforest' ((perm_insertAfter hp).mem_iff.mpr (mem_cons_of_mem _ hc))]
  refine total_insert hl hout ?_ fun b hbf hbp => ?_
  · unfold own timesOf
    rw [hM'.exited, hM'.procInfo, update_of_ne hpnew, update_of_ne hpnew,
      total_perm (perm_cons_erase ha)]
    simp [add_comm, add_left_comm]
  · unfold own timesOf
    rw [hM'.exited, hM'.procInfo, update_of_ne hbf, update_of_ne hbf, update_of_ne hbp]

end

/-! ## Trackers -/

section

open Option Nat

variable {M'' : Monitor} {pid : ℤ} {pi : ProcInfo} {ps qs : List ProcInfo}

/-- Processes of `ps` are new, and others are in families further down. -/
structure Grown (kids : Addr → List Addr) (fams : List Addr) (ps : List ProcInfo) (M M' : Monitor) :
    Prop
    extends SameTree M M' where
  exited : M'.exited = M.exited
  made : M.made ≤ M'.made
  idle : (∀ a, M.stillAlive a = false) → ∀ a, M'.stillAlive a = false
  kept : ∀ pid a, M.memberTable pid = some a → M'.memberTable pid = some a ∧
    M'.procInfo a = M.procInfo a
  down : ∀ pid a, M.memberTable pid = some a →
    M'.family a = M.family a ∨ (M.family a ∈ fams ∧ Above kids (M.family a) (M'.family a))
  new : ∀ pid a, M'.memberTable pid = some a → M.memberTable pid = some a ∨ M'.procInfo a ∈ ps
  usage : ∀ f ∈ fams, M.usage f ≤ M'.usage f

theorem Grown.refl (M : Monitor) : Grown kids fams ps M M where
  toSameTree := SameTree.refl M
  exited := rfl
  made := le_refl _
  idle h := h
  kept _ _ h := ⟨h, rfl⟩
  down _ _ _ := .inl rfl
  new _ _ h := .inl h
  usage _ _ := le_rfl

theorem Grown.trans (h : Grown kids fams ps M M') (h' : Grown kids fams ps M' M'') :
    Grown kids fams ps M M'' where
  toSameTree := h.toSameTree.trans h'.toSameTree
  exited := h'.exited.trans h.exited
  made := le_trans h.made h'.made
  idle hidle := h'.idle (h.idle hidle)
  kept pid a ha := by
    obtain ⟨ha', hinfo⟩ := h.kept pid a ha
    obtain ⟨ha'', hinfo'⟩ := h'.kept pid a ha'
    exact ⟨ha'', hinfo'.trans hinfo⟩
  down pid a ha := by
    rcases h.down pid a ha with heq | ⟨hmem, habove⟩ <;>
      rcases h'.down pid a (h.kept pid a ha).1 with heq' | ⟨hmem', habove'⟩
    · exact .inl (heq'.trans heq)
    · rw [heq] at hmem' habove'
      exact .inr ⟨hmem', habove'⟩
    · rw [heq']
      exact .inr ⟨hmem, habove⟩
    · exact .inr ⟨hmem, Relation.TransGen.trans habove habove'⟩
  new pid a ha := by
    rcases h'.new pid a ha with ha' | hmem
    · rcases h.new pid a ha' with ha'' | hmem
      · exact .inl ha''
      · exact .inr (by rw [(h'.kept pid a ha').2]; exact hmem)
    · exact .inr hmem
  usage f hf := (h.usage f hf).trans (h'.usage f hf)

/-! ## One process -/

theorem Inv.mem_of_table (h : Inv M kids fams L) (ha : M.memberTable pid = some a) :
    M.family a ∈ M.everybodyElse :: fams ∧ a ∈ L (M.family a) ∧ (M.procInfo a).pid = pid := by
  obtain ⟨f, hf, ha, hpid⟩ := (h.table pid a).mp ha
  rw [(h.lists f hf).family a ha]
  exact ⟨hf, ha, hpid⟩

theorem Inv.family_eq (h : Inv M kids fams L) (hf : f ∈ M.everybodyElse :: fams) (ha : a ∈ L f) :
    M.family a = f :=
  (h.lists f hf).family a ha

theorem addMember_grown (h : Inv M kids fams L) (hf : f ∈ M.everybodyElse :: fams)
    (hpid : M.memberTable pi.pid = none) (hpi : pi ∈ ps) :
    ∃ M', M.addMember f pi = some M' ∧ Inv M' kids fams (update L f (M.made :: L f)) ∧
      Grown kids fams ps M M' ∧ M'.memberTable pi.pid = some M.made := by
  obtain ⟨M', hrun, hlists, htable, hadd⟩ := addMember_spec h.lists h.table hf hpid
  have hinv : Inv M' kids fams (update L f (M.made :: L f)) := by
    refine ⟨h.tree.congr hadd.toSameTree (by rw [hadd.made]; exact le_succ _), ?_, ?_⟩ <;>
      rw [hadd.everybodyElse] <;> assumption
  have hold : ∀ g ∈ M.everybodyElse :: fams, ∀ b ∈ L g, b ≠ M.made := fun g hg b hb h' =>
    lt_irrefl M.made (by
      have := (h.lists g hg).old b hb
      rwa [h'] at this)
  have hkept : ∀ pid b, M.memberTable pid = some b → M'.memberTable pid = some b ∧
      M'.procInfo b = M.procInfo b := by
    intro pid b hb
    obtain ⟨hg, hbg, -⟩ := h.mem_of_table hb
    have hne : pid ≠ pi.pid := fun h' => by rw [h', hpid] at hb; cases hb
    rw [hadd.memberTable, hadd.procInfo, update_of_ne hne, update_of_ne (hold _ hg b hbg)]
    exact ⟨hb, rfl⟩
  refine ⟨M', hrun, hinv, ⟨hadd.toSameTree, hadd.exited, by rw [hadd.made]; exact le_succ _, ?_,
    hkept, ?_, ?_, ?_⟩, by rw [hadd.memberTable, update_self]⟩
  · intro hidle b
    rw [hadd.stillAlive]
    by_cases hb : b = M.made
    · rw [hb, update_self]
    · rw [update_of_ne hb, hidle]
  · intro pid b hb
    obtain ⟨hg, hbg, -⟩ := h.mem_of_table hb
    refine .inl (hinv.family_eq (by rw [hadd.everybodyElse]; exact hg) ?_)
    by_cases hgf : M.family b = f
    · rw [hgf, update_self, ← hgf]
      exact mem_cons_of_mem _ hbg
    · rw [update_of_ne hgf]
      exact hbg
  · intro pid b hb
    rw [hadd.memberTable] at hb
    by_cases hpid' : pid = pi.pid
    · rw [hpid', update_self] at hb
      rw [← some.inj hb, hadd.procInfo, update_self]
      exact .inr hpi
    · rw [update_of_ne hpid'] at hb
      exact .inl hb
  · refine fun c hc => h.usage_le hinv (fun g hg => ?_) hc
    have hg' := mem_cons_of_mem M.everybodyElse hg
    have htimes : M'.timesOf (L g) = M.timesOf (L g) := total_congr fun b hb => by
      rw [hadd.procInfo, update_of_ne (hold g hg' b hb)]
    unfold own
    rw [hadd.exited]
    by_cases hgf : g = f
    · rw [hgf] at htimes ⊢
      rw [update_self, timesOf_cons, htimes]
      exact add_le_add_right (le_add_of_nonneg_left zero_le) _
    · rw [update_of_ne hgf, htimes]

theorem moveToSubfamily_grown (h : Inv M kids fams L) (ha : M.memberTable pid = some a)
    (hg : M.family a ∈ fams) (habove : Above kids (M.family a) f) :
    ∃ L', Inv (M.moveToSubfamily a f) kids fams L' ∧ Grown kids fams ps M (M.moveToSubfamily a f) ∧
      (M.moveToSubfamily a f).family a = f := by
  set g := M.family a with hga
  have hf : f ∈ fams := habove.mem h.tree.forest hg
  have hlt := habove.idxOf_lt h.tree.forest h.tree.fams_nodup hg
  have hne : g ≠ f := fun h' => lt_irrefl _ (by rwa [h'] at hlt)
  obtain ⟨-, hag, -⟩ := h.mem_of_table ha
  obtain ⟨hlists, hsame⟩ :=
    moveToSubfamily_lists h.lists (mem_cons_of_mem _ hg) (mem_cons_of_mem _ hf) hag hne
  set M' := M.moveToSubfamily a f
  set L' := update (update L g ((L g).erase a)) f (a :: L f) with hL'
  have hLf : L' f = a :: L f := update_self ..
  have hLg : L' g = (L g).erase a := by rw [hL', update_of_ne hne, update_self]
  have hLb : ∀ b, b ≠ g → b ≠ f → L' b = L b := fun b hbg hbf => by
    rw [hL', update_of_ne hbf, update_of_ne hbg]
  have hmem : ∀ b c, b ≠ a → (b ∈ L' c ↔ b ∈ L c) := by
    intro b c hba
    by_cases hcf : c = f
    · subst hcf
      rw [hLf, mem_cons, or_iff_right hba]
    · by_cases hcg : c = g
      · rw [hcg, hLg, mem_erase_of_ne hba]
      · rw [hLb c hcg hcf]
  have hmember : ∀ b, Member (M.everybodyElse :: fams) L' b ↔
      Member (M.everybodyElse :: fams) L b := by
    intro b
    by_cases hba : b = a
    · subst hba
      exact ⟨fun _ => ⟨g, mem_cons_of_mem _ hg, hag⟩,
        fun _ => ⟨f, mem_cons_of_mem _ hf, by rw [hLf]; exact mem_cons_self⟩⟩
    · exact exists_congr fun c => and_congr_right fun _ => hmem b c hba
  have hinv : Inv M' kids fams L' := by
    refine ⟨h.tree.congr hsame.toSameTree (le_of_eq hsame.made.symm), ?_, ?_⟩
    · rw [hsame.everybodyElse]
      exact hlists
    · rw [hsame.everybodyElse]
      exact h.table.congr hsame.memberTable (fun b _ => by rw [hsame.procInfo]) hmember
  have hfamily : M'.family a = f :=
    hinv.family_eq (mem_cons_of_mem _ hf) (by rw [hLf]; exact mem_cons_self)
  refine ⟨L', hinv, ⟨hsame.toSameTree, hsame.exited, le_of_eq hsame.made.symm, ?_, ?_, ?_, ?_, ?_⟩,
    hfamily⟩
  · intro hidle b
    rw [hsame.stillAlive, hidle]
  · intro pid b hb
    rw [hsame.memberTable, hsame.procInfo]
    exact ⟨hb, rfl⟩
  · intro pid b hb
    by_cases hba : b = a
    · rw [hba, hfamily]
      exact .inr ⟨hg, habove⟩
    · obtain ⟨hc, hbc, -⟩ := h.mem_of_table hb
      exact .inl (hinv.family_eq (by rw [hsame.everybodyElse]; exact hc) ((hmem b _ hba).mpr hbc))
  · intro pid b hb
    rw [hsame.memberTable] at hb
    exact .inl hb
  · refine fun c hc => h.usage_le_of_moveDown hinv (t := (M.procInfo a).times) hg habove ?_ ?_
      (fun b hbg hbf => ?_) hc
    · unfold own timesOf
      rw [hsame.exited, hsame.procInfo, hLg, total_perm (perm_cons_erase hag), total_cons,
        add_assoc, add_comm (total _ _)]
    · unfold own timesOf
      rw [hsame.exited, hsame.procInfo, hLf, total_cons, add_assoc, add_comm (total _ _)]
    · unfold own timesOf
      rw [hsame.exited, hsame.procInfo, hLb b hbg hbf]

/-! ## How far down a process is -/

/-- The place of the family of a process in the order of the tree, which goes downwards. -/
def rank (M : Monitor) (fams : List Addr) (pid : ℤ) : ℕ :=
  match M.memberTable pid with
  | none => 0
  | some a => fams.idxOf (M.family a) + 1

def effort (M : Monitor) (fams : List Addr) (ps : List ProcInfo) : ℕ :=
  (ps.map fun pi => rank M fams pi.pid).sum

theorem rank_le (M : Monitor) (fams : List Addr) (pid : ℤ) : rank M fams pid ≤ fams.length + 1 := by
  unfold rank
  split
  · exact zero_le _
  · exact succ_le_succ idxOf_le_length

theorem effort_le (M : Monitor) (fams : List Addr) (ps : List ProcInfo) :
    effort M fams ps ≤ ps.length * (fams.length + 1) := by
  have hle : ∀ n ∈ ps.map fun pi => rank M fams pi.pid, n ≤ fams.length + 1 := by
    intro n hn
    obtain ⟨pi, -, rfl⟩ := mem_map.mp hn
    exact rank_le M fams pi.pid
  simpa [effort] using sum_le_card_nsmul _ _ hle

section

variable (h : Inv M kids fams L)
include h

section

variable (hgrown : Grown kids fams ps M M')
include hgrown

theorem Grown.rank_le (pid : ℤ) : rank M fams pid ≤ rank M' fams pid := by
  unfold rank
  cases ha : M.memberTable pid with
  | none => exact zero_le _
  | some a =>
    rw [(hgrown.kept pid a ha).1]
    refine succ_le_succ ?_
    rcases hgrown.down pid a ha with heq | ⟨hmem, habove⟩
    · rw [heq]
    · exact le_of_lt (habove.idxOf_lt h.tree.forest h.tree.fams_nodup hmem)

theorem Grown.effort_le (qs : List ProcInfo) :
    effort M fams qs ≤ effort M' fams qs := sum_le_sum fun pi _ => hgrown.rank_le h pi.pid

theorem Grown.effort_lt (hpi : pi ∈ qs)
    (hlt : rank M fams pi.pid < rank M' fams pi.pid) : effort M fams qs < effort M' fams qs :=
  sum_lt_sum _ _ (fun pi _ => hgrown.rank_le h pi.pid) ⟨pi, hpi, hlt⟩

end

/-- **`add_member_to_family`**: if it has found something, then the process is further down. -/
theorem addMemberToFamily_spec (hf : f ∈ fams) (hpi : pi ∈ ps) :
    ∃ b M' L', M.addMemberToFamily f pi = some (b, M') ∧ Inv M' kids fams L' ∧
      Grown kids fams ps M M' ∧ (b = true → rank M fams pi.pid < rank M' fams pi.pid) := by
  unfold addMemberToFamily
  cases ha : M.memberTable pi.pid with
  | none =>
    obtain ⟨M', hrun, hinv, hgrown, htable⟩ := addMember_grown h (mem_cons_of_mem _ hf) ha hpi
    refine ⟨true, M', _, by simp [hrun], hinv, hgrown, fun _ => ?_⟩
    simp only [rank, ha, htable]
    exact succ_pos _
  | some a =>
    simp only
    by_cases hfa : f = M.family a
    · exact ⟨false, M, L, by rw [if_pos hfa], h, Grown.refl M, nofun⟩
    · have hnode : M.familyTable (M.registration f).rootPid = some f :=
        (h.tree.table _ f).mpr ⟨hf, rfl⟩
      have hfuel : fams.idxOf f < M.made + 1 :=
        lt_succ_of_lt (lt_of_lt_of_le (idxOf_lt_length_iff.mpr hf) h.tree.length_le)
      obtain ⟨b, hb, habove⟩ := isAbove_spec (f := M.family a) h.tree hf hfuel
      simp only [if_neg hfa, hnode, hb, bind_eq_bind, bind_some]
      cases b with
      | false => exact ⟨false, M, L, rfl, h, Grown.refl M, nofun⟩
      | true =>
        obtain ⟨hmem, habove⟩ := habove rfl
        obtain ⟨L', hinv, hgrown, hfamily⟩ := moveToSubfamily_grown h ha hmem habove
        refine ⟨true, M.moveToSubfamily a f, L', rfl, hinv, hgrown, fun _ => ?_⟩
        simp only [rank, ha, (hgrown.kept _ a ha).1, hfamily]
        exact succ_lt_succ (habove.idxOf_lt h.tree.forest h.tree.fams_nodup hmem)

/-! ## The trackers -/

theorem checkPid_spec (hpi : pi ∈ ps) :
    ∃ b M' L', M.checkPid pi = some (b, M') ∧ Inv M' kids fams L' ∧ Grown kids fams ps M M' := by
  unfold checkPid
  cases hm : M.pidMappings.find? fun m => decide (m.1 = (pi.pid, pi.birthday)) with
  | none => exact ⟨false, M, L, rfl, h, Grown.refl M⟩
  | some m =>
    obtain ⟨b, M', L', hrun, hinv, hgrown, -⟩ := addMemberToFamily_spec h
      (h.tree.mappings m (mem_of_find?_eq_some hm)) hpi
    exact ⟨true, M', L', by simp [hrun], hinv, hgrown⟩

theorem checkParent_spec (hpi : pi ∈ ps) :
    ∃ b M' L', M.checkParent pi = some (b, M') ∧ Inv M' kids fams L' ∧ Grown kids fams ps M M' ∧
      (b = true → rank M fams pi.pid < rank M' fams pi.pid) := by
  unfold checkParent
  cases hp : M.memberTable pi.ppid with
  | none => exact ⟨false, M, L, rfl, h, Grown.refl M, nofun⟩
  | some p =>
    simp only
    split
    · exact ⟨false, M, L, rfl, h, Grown.refl M, nofun⟩
    · rename_i hcond
      -- the family of the parent has a root pid, so that it is not everybody else
      have hfamily : M.family p ∈ fams := by
        refine (mem_cons.mp (h.mem_of_table hp).1).resolve_left fun heq => hcond (.inl ?_)
        rw [heq]
        exact h.tree.others
      exact addMemberToFamily_spec h hfamily hpi

end

/-- **`find_processes`** moves processes further down, if its check does. -/
theorem findProcesses_spec {check : Monitor → ProcInfo → Option (Bool × Monitor)} (strict : Prop)
    (hcheck : ∀ M L pi, Inv M kids fams L → pi ∈ ps → ∃ b M' L', check M pi = some (b, M') ∧
      Inv M' kids fams L' ∧
      Grown kids fams ps M M' ∧ (strict → b = true → rank M fams pi.pid < rank M' fams pi.pid))
    (hqs : qs ⊆ ps) (h : Inv M kids fams L) :
    ∃ b M' L', findProcesses check qs M = some (b, M') ∧ Inv M' kids fams L' ∧
      Grown kids fams ps M M' ∧ (strict → b = true → effort M fams ps < effort M' fams ps) := by
  induction qs generalizing M L with
  | nil => exact ⟨false, M, L, rfl, h, Grown.refl M, fun _ => nofun⟩
  | cons pi qs ih =>
    have hpi : pi ∈ ps := hqs mem_cons_self
    obtain ⟨b1, M1, L1, hrun1, hinv1, hgrown1, hlt1⟩ := hcheck M L pi h hpi
    obtain ⟨b2, M2, L2, hrun2, hinv2, hgrown2, hlt2⟩ :=
      ih (fun q hq => hqs (mem_cons_of_mem _ hq)) hinv1
    refine ⟨b1 || b2, M2, L2, ?_, hinv2, hgrown1.trans hgrown2, fun hstrict hb => ?_⟩
    · rw [findProcesses, hrun1]
      simp [hrun2]
    · have hle1 := hgrown1.effort_le h ps
      have hle2 := hgrown2.effort_le hinv1 ps
      rcases Bool.or_eq_true_iff.mp hb with hb | hb
      · exact lt_of_lt_of_le (hgrown1.effort_lt h hpi (hlt1 hstrict hb)) hle2
      · exact lt_of_le_of_lt hle1 (hlt2 hstrict hb)

/-- **The tracker of parents** comes to an end. -/
theorem findByParent_spec (h : Inv M kids fams L) {n : ℕ}
    (hn : ps.length * (fams.length + 1) - effort M fams ps < n) :
    ∃ M' L', findByParent ps n M = some M' ∧ Inv M' kids fams L' ∧ Grown kids fams ps M M' := by
  induction n generalizing M L with
  | zero => omega
  | succ n ih =>
    obtain ⟨b, M1, L1, hrun1, hinv1, hgrown1, hlt1⟩ := findProcesses_spec True
      (fun M L pi hM hpi => by simpa using checkParent_spec hM hpi) (Subset.refl ps) h
    cases b with
    | false =>
      exact ⟨M1, L1, by simp [findByParent, hrun1], hinv1, hgrown1⟩
    | true =>
      have hlt := hlt1 trivial rfl
      have hle := effort_le M1 fams ps
      obtain ⟨M2, L2, hrun2, hinv2, hgrown2⟩ := ih hinv1 (by omega)
      exact ⟨M2, L2, by simp [findByParent, hrun1, hrun2], hinv2, hgrown1.trans hgrown2⟩

/-- **Everybody else**: every process of the list is in the table. -/
theorem addRest_spec (hqs : qs ⊆ ps) (h : Inv M kids fams L) :
    ∃ M' L', addRest qs M = some M' ∧ Inv M' kids fams L' ∧ Grown kids fams ps M M' ∧
      ∀ pi ∈ qs, M'.memberTable pi.pid ≠ none := by
  induction qs generalizing M L with
  | nil => exact ⟨M, L, rfl, h, Grown.refl M, nofun⟩
  | cons pi qs ih =>
    have hqs' : qs ⊆ ps := fun q hq => hqs (mem_cons_of_mem _ hq)
    cases ha : M.memberTable pi.pid with
    | some a =>
      obtain ⟨M', L', hrun, hinv, hgrown, hall⟩ := ih hqs' h
      refine ⟨M', L', by rw [addRest, ha]; exact hrun, hinv, hgrown, fun q hq => ?_⟩
      rcases mem_cons.mp hq with rfl | hq
      · rw [(hgrown.kept _ a ha).1]
        nofun
      · exact hall q hq
    | none =>
      obtain ⟨M1, hrun1, hinv1, hgrown1, htable1⟩ :=
        addMember_grown h mem_cons_self ha (hqs mem_cons_self)
      obtain ⟨M', L', hrun, hinv, hgrown, hall⟩ := ih hqs' hinv1
      refine ⟨M', L', ?_, hinv, hgrown1.trans hgrown, fun q hq => ?_⟩
      · rw [addRest, ha]
        simp [hrun1, hrun]
      · rcases mem_cons.mp hq with rfl | hq
        · rw [(hgrown.kept _ _ htable1).1]
          nofun
        · exact hall q hq

end

end Condor.Procd
