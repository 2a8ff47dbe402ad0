import Condor.Lib.Segment
import Condor.Lib.Forest
import Condor.Procd.Model

/-!
# The members of the families

The members of a family are linked in both directions, and each one has the address of its family.
The table leads from the pid of a process to its member. Operations on members keep these lists and
the table together, and do not touch the tree.
-/

namespace Condor.Procd

open List Function Monitor
variable {M M' M'' : Monitor} {dom : List Addr} {L : Addr → List Addr} {f g a b : Addr}
  {l l1 l2 : List Addr}

/-- The list of members of a family. -/
structure MembersOf (M : Monitor) (f : Addr) (l : List Addr) : Prop where
  head : M.memberList f = l.head?
  forth : Segment M.next l none
  back : Segment M.prev l.reverse none
  nodup : l.Nodup
  family : ∀ a ∈ l, M.family a = f
  old : ∀ a ∈ l, a < M.made

def Lists (M : Monitor) (dom : List Addr) (L : Addr → List Addr) : Prop :=
  ∀ f ∈ dom, MembersOf M f (L f)

def Table (M : Monitor) (dom : List Addr) (L : Addr → List Addr) : Prop :=
  ∀ pid a, M.memberTable pid = some a ↔ ∃ f ∈ dom, a ∈ L f ∧ (M.procInfo a).pid = pid

/-- The families and their tree are the same, up to the members and their times. -/
structure SameTree (M M' : Monitor) : Prop where
  registration : M'.registration = M.registration
  parent : M'.parent = M.parent
  child : M'.child = M.child
  sibling : M'.sibling = M.sibling
  everybodyElse : M'.everybodyElse = M.everybodyElse
  tree : M'.tree = M.tree
  familyTable : M'.familyTable = M.familyTable
  pidMappings : M'.pidMappings = M.pidMappings

theorem SameTree.refl (M : Monitor) : SameTree M M := ⟨rfl, rfl, rfl, rfl, rfl, rfl, rfl, rfl⟩

theorem SameTree.trans (h : SameTree M M') (h' : SameTree M' M'') : SameTree M M'' :=
  ⟨h'.1.trans h.1, h'.2.trans h.2, h'.3.trans h.3, h'.4.trans h.4, h'.5.trans h.5, h'.6.trans h.6,
    h'.7.trans h.7, h'.8.trans h.8⟩

structure SameMembers (M M' : Monitor) : Prop extends SameTree M M' where
  procInfo : M'.procInfo = M.procInfo
  stillAlive : M'.stillAlive = M.stillAlive
  exited : M'.exited = M.exited
  made : M'.made = M.made
  memberTable : M'.memberTable = M.memberTable

theorem SameMembers.trans (h : SameMembers M M') (h' : SameMembers M' M'') : SameMembers M M'' :=
  ⟨h.toSameTree.trans h'.toSameTree, h'.2.trans h.2, h'.3.trans h.3, h'.4.trans h.4, h'.5.trans h.5,
    h'.6.trans h.6⟩

theorem MembersOf.next_eq (h : MembersOf M f (l1 ++ a :: l2)) : M.next a = l2.head? := by
  simpa using (segment_append.mp h.forth).2.1

theorem MembersOf.prev_eq (h : MembersOf M f (l1 ++ a :: l2)) : M.prev a = l1.getLast? := by
  have hback := h.back
  rw [reverse_append, reverse_cons, append_assoc] at hback
  simpa using (segment_append.mp hback).2.1

/-- **Frame rule.** A list depends on the links of its own members only. -/
theorem MembersOf.congr (h : MembersOf M f l) (hhead : M'.memberList f = M.memberList f)
    (hnext : ∀ b ∈ l, M'.next b = M.next b) (hprev : ∀ b ∈ l, M'.prev b = M.prev b)
    (hfamily : ∀ b ∈ l, M'.family b = M.family b) (hmade : M.made ≤ M'.made) :
    MembersOf M' f l where
  head := hhead.trans h.head
  forth := h.forth.congr hnext
  back := h.back.congr fun b hb => hprev b (mem_reverse.mp hb)
  nodup := h.nodup
  family b hb := (hfamily b hb).trans (h.family b hb)
  old b hb := Nat.lt_of_lt_of_le (h.old b hb) hmade

theorem Lists.congr (h : Lists M dom L) (hlist : M'.memberList = M.memberList)
    (hnext : M'.next = M.next) (hprev : M'.prev = M.prev) (hfamily : M'.family = M.family)
    (hmade : M'.made = M.made) : Lists M' dom L := fun f hf =>
  (h f hf).congr (by rw [hlist]) (by simp [hnext]) (by simp [hprev]) (by simp [hfamily]) hmade.ge

theorem Lists.eq_of_mem (h : Lists M dom L) (hf : f ∈ dom) (hg : g ∈ dom) (ha : a ∈ L f)
    (ha' : a ∈ L g) : f = g :=
  ((h f hf).family a ha).symm.trans ((h g hg).family a ha')

theorem lists_update (hother : ∀ g ∈ dom, g ≠ f → MembersOf M g (L g)) (hf : MembersOf M f l) :
    Lists M dom (update L f l) := by
  intro g hg
  by_cases hgf : g = f
  · subst hgf
    rw [update_self]
    exact hf
  · rw [update_of_ne hgf]
    exact hother g hg hgf

/-! ## Links -/

theorem pushFront_same (M : Monitor) (f a : Addr) : SameMembers M (M.pushFront f a) := by
  unfold pushFront
  dsimp only
  cases M.memberList f <;> exact ⟨⟨rfl, rfl, rfl, rfl, rfl, rfl, rfl, rfl⟩, rfl, rfl, rfl, rfl, rfl⟩

@[simp] theorem family_pushFront : (M.pushFront f a).family = M.family := by
  unfold pushFront
  dsimp only
  cases M.memberList f <;> rfl

@[simp] theorem next_pushFront : (M.pushFront f a).next = update M.next a (M.memberList f) := by
  unfold pushFront
  dsimp only
  cases M.memberList f <;> rfl

@[simp] theorem memberList_pushFront :
    (M.pushFront f a).memberList = update M.memberList f (some a) := by
  unfold pushFront
  dsimp only
  cases M.memberList f <;> rfl

theorem prev_pushFront_of_ne {b : Addr} (hba : b ≠ a) (hb : M.memberList f ≠ some b) :
    (M.pushFront f a).prev b = M.prev b := by
  unfold pushFront
  dsimp only
  cases hml : M.memberList f with
  | none => exact update_of_ne hba ..
  | some q =>
    have hbq : b ≠ q := fun h => hb (by rw [hml, h])
    change update (update M.prev a none) q (some a) b = M.prev b
    rw [update_of_ne hbq, update_of_ne hba]

theorem prev_pushFront_self (h : M.memberList f ≠ some a) : (M.pushFront f a).prev a = none := by
  unfold pushFront
  dsimp only
  cases hml : M.memberList f with
  | none => exact update_self ..
  | some q =>
    have haq : a ≠ q := fun h' => h (by rw [hml, h'])
    change update (update M.prev a none) q (some a) a = none
    rw [update_of_ne haq, update_self]

theorem prev_pushFront_head (h : M.memberList f = some b) : (M.pushFront f a).prev b = some a := by
  unfold pushFront
  dsimp only
  rw [h]
  exact update_self ..

theorem pushFront_lists (h : Lists M dom L) (hf : f ∈ dom) (ha : ∀ g ∈ dom, a ∉ L g)
    (hfamily : M.family a = f) (hold : a < M.made) :
    Lists (M.pushFront f a) dom (update L f (a :: L f)) := by
  have hsame := pushFront_same M f a
  have hne : ∀ g ∈ dom, ∀ b ∈ L g, b ≠ a := fun g hg b hb h' => ha g hg (by rw [← h']; exact hb)
  have hheadmem : ∀ b, M.memberList f = some b → b ∈ L f := fun b hb => by
    rw [(h f hf).head] at hb
    exact mem_of_head? hb
  have hfirst : M.memberList f ≠ some a := fun h' => ha f hf (hheadmem a h')
  refine lists_update (fun g hg hgf => ?_) ⟨?_, ?_, ?_, ?_, ?_, ?_⟩
  · refine (h g hg).congr ?_ ?_ ?_ (by simp) (Nat.le_of_eq hsame.made.symm)
    · rw [memberList_pushFront, update_of_ne hgf]
    · intro b hb
      rw [next_pushFront, update_of_ne (hne g hg b hb)]
    · intro b hb
      exact prev_pushFront_of_ne (hne g hg b hb) fun h' =>
        hgf (h.eq_of_mem hg hf hb (hheadmem b h'))
  · rw [memberList_pushFront, update_self, head?_cons]
  · rw [next_pushFront, (h f hf).head]
    exact ⟨by simp, (h f hf).forth.congr fun b hb => update_of_ne (hne f hf b hb) ..⟩
  · rw [reverse_cons, segment_append]
    refine ⟨?_, by rw [prev_pushFront_self hfirst]; rfl, trivial⟩
    cases hL : L f with
    | nil => trivial
    | cons q l =>
      have hlist := h f hf
      rw [hL] at hlist
      have hback := hlist.back
      rw [reverse_cons] at hback ⊢
      refine segment_relink hback (fun b hb => ?_) (prev_pushFront_head hlist.head)
      have hbl : b ∈ l := mem_reverse.mp hb
      refine prev_pushFront_of_ne (hne f hf b (by rw [hL]; exact mem_cons_of_mem _ hbl)) ?_
      rw [hlist.head]
      exact fun h' => (nodup_cons.mp hlist.nodup).1 (by rw [Option.some.inj h']; exact hbl)
  · exact nodup_cons.mpr ⟨ha f hf, (h f hf).nodup⟩
  · intro b hb
    rw [family_pushFront]
    rcases mem_cons.mp hb with rfl | hb
    · exact hfamily
    · exact (h f hf).family b hb
  · intro b hb
    rw [hsame.made]
    rcases mem_cons.mp hb with rfl | hb
    · exact hold
    · exact (h f hf).old b hb

theorem unlink_same (M : Monitor) (f : Addr) (prev next : Option Addr) :
    SameMembers M (M.unlink f prev next) := by
  cases prev <;> cases next <;> exact ⟨⟨rfl, rfl, rfl, rfl, rfl, rfl, rfl, rfl⟩, rfl, rfl,
    rfl, rfl, rfl⟩

@[simp] theorem family_unlink (prev next : Option Addr) :
    (M.unlink f prev next).family = M.family := by
  cases prev <;> cases next <;> rfl

theorem memberList_unlink (prev next : Option Addr) :
    (M.unlink f prev next).memberList = if prev = none then update M.memberList f next
      else M.memberList := by
  cases prev <;> cases next <;> rfl

theorem next_unlink (prev next : Option Addr) :
    (M.unlink f prev next).next b = if prev = some b then next else M.next b := by
  unfold unlink
  cases prev with
  | none => cases next <;> rfl
  | some p =>
    cases next <;> simp [update_apply, eq_comm]

theorem prev_unlink (prev next : Option Addr) :
    (M.unlink f prev next).prev b = if next = some b then prev else M.prev b := by
  unfold unlink
  cases next with
  | none => cases prev <;> rfl
  | some q =>
    cases prev <;> simp [update_apply, eq_comm]

theorem unlink_lists (h : Lists M dom L) (hf : f ∈ dom) (hL : L f = l1 ++ a :: l2) :
    Lists (M.unlink f l1.getLast? l2.head?) dom (update L f (l1 ++ l2)) := by
  have hsame := unlink_same M f l1.getLast? l2.head?
  have hlist := h f hf
  rw [hL] at hlist
  have hnodup : (l1 ++ l2).Nodup := hlist.nodup.sublist (by simp)
  have hmem1 : ∀ b, l1.getLast? = some b → b ∈ L f := fun b hb => by
    rw [hL]
    exact mem_append_left _ (mem_of_getLast? hb)
  have hmem2 : ∀ b, l2.head? = some b → b ∈ L f := fun b hb => by
    rw [hL]
    exact mem_append_right _ (mem_cons_of_mem _ (mem_of_head? hb))
  have hsub : ∀ b ∈ l1 ++ l2, b ∈ l1 ++ a :: l2 := fun b hb => by
    rcases mem_append.mp hb with hb | hb
    · exact mem_append_left _ hb
    · exact mem_append_right _ (mem_cons_of_mem _ hb)
  refine lists_update (fun g hg hgf => ?_) ⟨?_, ?_, ?_, hnodup, ?_, ?_⟩
  · refine (h g hg).congr ?_ ?_ ?_ (by simp) (Nat.le_of_eq hsame.made.symm)
    · rw [memberList_unlink]
      split
      · exact update_of_ne hgf ..
      · rfl
    · intro b hb
      rw [next_unlink, if_neg fun h' => hgf (h.eq_of_mem hg hf hb (hmem1 b h'))]
    · intro b hb
      rw [prev_unlink, if_neg fun h' => hgf (h.eq_of_mem hg hf hb (hmem2 b h'))]
  · rw [memberList_unlink]
    cases l1 with
    | nil => simp
    | cons c l1 => simpa using hlist.head
  · refine segment_unlink hlist.forth (fun b hb => ?_) (fun b _ hb => ?_) hnodup
    · rw [next_unlink, if_pos hb, hlist.next_eq]
    · rw [next_unlink, if_neg hb]
  · have hback := hlist.back
    rw [reverse_append, reverse_cons, append_assoc] at hback
    rw [reverse_append]
    refine segment_unlink hback (fun b hb => ?_) (fun b _ hb => ?_) ?_
    · rw [prev_unlink, if_pos (by simpa using hb), hlist.prev_eq]
    · rw [prev_unlink, if_neg (by simpa using hb)]
    · rw [← reverse_append]
      exact nodup_reverse.mpr hnodup
  · intro b hb
    rw [family_unlink]
    exact hlist.family b (hsub b hb)
  · intro b hb
    rw [hsame.made]
    exact hlist.old b (hsub b hb)

theorem lists_family (h : Lists M dom L) (ha : ∀ g ∈ dom, a ∉ L g) :
    Lists { M with family := update M.family a f } dom L := fun g hg =>
  (h g hg).congr rfl (fun _ _ => rfl) (fun _ _ => rfl)
    (fun b hb => update_of_ne (fun h' => ha g hg (by rw [← h']; exact hb)) ..) (Nat.le_refl _)

/-- `move_to_subfamily`: the member goes from one list to another. -/
theorem moveToSubfamily_lists (h : Lists M dom L) (hf : f ∈ dom) (hg : g ∈ dom) (ha : a ∈ L f)
    (hfg : f ≠ g) :
    Lists (M.moveToSubfamily a g) dom (update (update L f ((L f).erase a)) g (a :: L g)) ∧
      SameMembers M (M.moveToSubfamily a g) := by
  obtain ⟨l1, l2, hL⟩ := append_of_mem ha
  have hlist := h f hf
  have hfamily : M.family a = f := hlist.family a ha
  rw [hL] at hlist
  have hnotMem : a ∉ l1 := fun h' =>
    (nodup_append.mp hlist.nodup).2.2 a h' a mem_cons_self rfl
  have herase : (L f).erase a = l1 ++ l2 := by
    rw [hL, erase_append_right _ hnotMem, erase_cons_head]
  unfold moveToSubfamily
  rw [hfamily, hlist.prev_eq, hlist.next_eq, herase]
  have h1 := unlink_lists h hf hL
  have hsame1 := unlink_same M f l1.getLast? l2.head?
  have hout : ∀ g' ∈ dom, a ∉ update L f (l1 ++ l2) g' := by
    intro g' hg' hmem
    by_cases hgf : g' = f
    · subst hgf
      rw [update_self] at hmem
      have := hlist.nodup
      rw [nodup_middle] at this
      exact (nodup_cons.mp this).1 hmem
    · rw [update_of_ne hgf] at hmem
      exact hgf (h.eq_of_mem hg' hf hmem ha)
  have hold : a < (M.unlink f l1.getLast? l2.head?).made := by
    rw [hsame1.made]
    exact hlist.old a (mem_append_right _ mem_cons_self)
  have h2 := pushFront_lists (lists_family h1 hout) hg hout (update_self ..) hold
  rw [update_of_ne hfg.symm] at h2
  refine ⟨h2, ?_⟩
  have hsame2 : SameMembers (M.unlink f l1.getLast? l2.head?) { M.unlink f l1.getLast? l2.head? with
      family := update (M.unlink f l1.getLast? l2.head?).family a g } :=
    ⟨⟨rfl, rfl, rfl, rfl, rfl, rfl, rfl, rfl⟩, rfl, rfl, rfl, rfl, rfl⟩
  exact (hsame1.trans hsame2).trans (pushFront_same _ g a)

/-! ## The table -/

variable {L' : Addr → List Addr} {dom' : List Addr}

def Member (dom : List Addr) (L : Addr → List Addr) (a : Addr) : Prop := ∃ f ∈ dom, a ∈ L f

theorem table_iff : Table M dom L ↔
    ∀ pid a, M.memberTable pid = some a ↔ Member dom L a ∧ (M.procInfo a).pid = pid := by
  simp only [Table, Member]
  grind

theorem Table.congr (h : Table M dom L) (htable : M'.memberTable = M.memberTable)
    (hpid : ∀ a, Member dom L a → (M'.procInfo a).pid = (M.procInfo a).pid)
    (hmem : ∀ a, Member dom' L' a ↔ Member dom L a) : Table M' dom' L' := by
  rw [table_iff] at h ⊢
  intro pid a
  rw [htable, h pid a, hmem a]
  exact and_congr_right fun ha => by rw [hpid a ha]

theorem Table.eq_of_pid (h : Table M dom L) (ha : Member dom L a) (hb : Member dom L b)
    (hpid : (M.procInfo a).pid = (M.procInfo b).pid) : a = b := by
  rw [table_iff] at h
  have h1 := (h _ a).mpr ⟨ha, rfl⟩
  have h2 := (h _ b).mpr ⟨hb, rfl⟩
  rw [hpid, h2] at h1
  exact (Option.some.inj h1).symm

theorem member_update_cons (hf : f ∈ dom) {l : List Addr} (hl : ∀ b, b ∈ l ↔ b = a ∨ b ∈ L f) :
    Member dom (update L f l) b ↔ b = a ∨ Member dom L b := by
  constructor
  · rintro ⟨g, hg, hb⟩
    by_cases hgf : g = f
    · subst hgf
      rw [update_self] at hb
      exact ((hl b).mp hb).imp_right fun h => ⟨g, hg, h⟩
    · rw [update_of_ne hgf] at hb
      exact .inr ⟨g, hg, hb⟩
  · rintro (h | ⟨g, hg, hb⟩)
    · exact ⟨f, hf, by rw [update_self]; exact (hl b).mpr (.inl h)⟩
    · by_cases hgf : g = f
      · subst hgf
        exact ⟨g, hg, by rw [update_self]; exact (hl b).mpr (.inr hb)⟩
      · exact ⟨g, hg, by rw [update_of_ne hgf]; exact hb⟩

structure Added (M : Monitor) (pi : ProcInfo) (M' : Monitor) : Prop extends SameTree M M' where
  procInfo : M'.procInfo = update M.procInfo M.made pi
  stillAlive : M'.stillAlive = update M.stillAlive M.made false
  exited : M'.exited = M.exited
  made : M'.made = M.made + 1
  memberTable : M'.memberTable = update M.memberTable pi.pid (some M.made)

/-- `add_member`: a new member becomes the first of a list. -/
theorem addMember_spec (h : Lists M dom L) (ht : Table M dom L) (hf : f ∈ dom) {pi : ProcInfo}
    (hpid : M.memberTable pi.pid = none) :
    ∃ M', M.addMember f pi = some M' ∧ Lists M' dom (update L f (M.made :: L f)) ∧
      Table M' dom (update L f (M.made :: L f)) ∧ Added M pi M' := by
  set M0 : Monitor := { M with
    made := M.made + 1
    family := update M.family M.made f
    procInfo := update M.procInfo M.made pi
    stillAlive := update M.stillAlive M.made false } with hM0
  have hnew : ∀ g ∈ dom, M.made ∉ L g := fun g hg hmem => Nat.lt_irrefl _ ((h g hg).old _ hmem)
  have h0 : Lists M0 dom L := fun g hg => (h g hg).congr rfl (fun _ _ => rfl) (fun _ _ => rfl)
    (fun b hb => update_of_ne (fun h' => hnew g hg (by rw [← h']; exact hb)) ..) (Nat.le_succ _)
  have h1 := pushFront_lists h0 hf hnew (update_self ..) (Nat.lt_succ_self _)
  have hsame := pushFront_same M0 f M.made
  refine ⟨{ M0.pushFront f M.made with
    memberTable := update (M0.pushFront f M.made).memberTable pi.pid (some M.made) }, ?_,
      ?_, ?_, ?_⟩
  · unfold addMember
    dsimp only
    rw [hsame.memberTable]
    rw [show M0.memberTable pi.pid = none from hpid]
  · exact h1.congr rfl rfl rfl rfl rfl
  · rw [table_iff] at ht ⊢
    intro pid b
    rw [member_update_cons (a := M.made) hf (by simp)]
    change update (M0.pushFront f M.made).memberTable pi.pid (some M.made) pid = some b ↔
      _ ∧ ((M0.pushFront f M.made).procInfo b).pid = pid
    rw [hsame.memberTable, hsame.procInfo]
    have hinfo : ∀ c, c ≠ M.made → M0.procInfo c = M.procInfo c := fun c hc => update_of_ne hc ..
    have hself : M0.procInfo M.made = pi := update_self ..
    have hmem : ∀ c, Member dom L c → c ≠ M.made := fun c ⟨g, hg, hc⟩ h' =>
      hnew g hg (by rw [← h']; exact hc)
    by_cases hp : pid = pi.pid
    · subst hp
      rw [update_self]
      constructor
      · rintro ⟨⟩
        exact ⟨.inl rfl, by rw [hself]⟩
      · rintro ⟨rfl | hb, heq⟩
        · rfl
        · rw [hinfo b (hmem b hb)] at heq
          rw [(ht _ b).mpr ⟨hb, heq⟩] at hpid
          cases hpid
    · rw [update_of_ne hp]
      rw [ht pid b]
      constructor
      · rintro ⟨hb, heq⟩
        exact ⟨.inr hb, by rw [hinfo b (hmem b hb)]; exact heq⟩
      · rintro ⟨rfl | hb, heq⟩
        · rw [hself] at heq
          exact absurd heq.symm hp
        · rw [hinfo b (hmem b hb)] at heq
          exact ⟨hb, heq⟩
  · have hsame0 : SameTree M M0 := ⟨rfl, rfl, rfl, rfl, rfl, rfl, rfl, rfl⟩
    have htree := hsame0.trans hsame.toSameTree
    exact ⟨⟨htree.1, htree.2, htree.3, htree.4, htree.5, htree.6, htree.7, htree.8⟩, hsame.procInfo,
      hsame.stillAlive, hsame.exited, hsame.made, by rw [hsame.memberTable]⟩

/-! ## Processes that have exited -/

def Monitor.timesOf (M : Monitor) (l : List Addr) : Times := total (fun a => (M.procInfo a).times) l

theorem timesOf_cons : M.timesOf (a :: l) = (M.procInfo a).times + M.timesOf l := total_cons

/-- What `remove_exited_processes` does, but for the lists and the table. -/
structure Cleared (M : Monitor) (f : Addr) (l : List Addr) (M' : Monitor) :
    Prop extends SameTree M M' where
  procInfo : M'.procInfo = M.procInfo
  made : M'.made = M.made
  stillAlive : ∀ a, M'.stillAlive a = (M.stillAlive a && decide (a ∉ l))
  exited : M'.exited =
    update M.exited f (M.exited f + M.timesOf (l.filter fun a => !M.stillAlive a))

theorem removeMember_spec (h : Lists M dom L) (ht : Table M dom L) (hf : f ∈ dom)
    (hL : L f = l1 ++ a :: l2) :
    Lists ({ M with memberTable := update M.memberTable (M.procInfo a).pid none }.unlink f
      l1.getLast? l2.head?)
        dom (update L f (l1 ++ l2)) ∧
      Table ({ M with memberTable := update M.memberTable (M.procInfo a).pid none }.unlink f
        l1.getLast? l2.head?)
        dom (update L f (l1 ++ l2)) := by
  set M1 : Monitor := { M with memberTable := update M.memberTable (M.procInfo a).pid none }
  have h1 : Lists M1 dom L := h.congr rfl rfl rfl rfl rfl
  have hsame := unlink_same M1 f l1.getLast? l2.head?
  refine ⟨unlink_lists h1 hf hL, ?_⟩
  have ha : Member dom L a := ⟨f, hf, by rw [hL]; exact mem_append_right _ mem_cons_self⟩
  have hnodup := (h f hf).nodup
  rw [hL, nodup_middle] at hnodup
  have hmem : ∀ b, Member dom (update L f (l1 ++ l2)) b ↔ b ≠ a ∧ Member dom L b := by
    intro b
    constructor
    · rintro ⟨g, hg, hb⟩
      by_cases hgf : g = f
      · subst hgf
        rw [update_self] at hb
        refine ⟨fun h' => (nodup_cons.mp hnodup).1 (by rw [← h']; exact hb), g, hg, ?_⟩
        rw [hL]
        simpa using Or.elim (mem_append.mp hb) .inl fun h => .inr (.inr h)
      · rw [update_of_ne hgf] at hb
        exact ⟨fun h' => hgf (h.eq_of_mem hg hf hb (by rw [h', hL]; simp)), g, hg, hb⟩
    · rintro ⟨hba, g, hg, hb⟩
      by_cases hgf : g = f
      · subst hgf
        rw [hL] at hb
        refine ⟨g, hg, ?_⟩
        simpa [hba] using hb
      · exact ⟨g, hg, by rw [update_of_ne hgf]; exact hb⟩
  have ht' := ht
  rw [table_iff] at ht ⊢
  intro pid b
  rw [hsame.memberTable, hsame.procInfo, hmem b]
  change update M.memberTable (M.procInfo a).pid none pid = some b ↔ _ ∧ (M.procInfo b).pid = pid
  by_cases hp : pid = (M.procInfo a).pid
  · subst hp
    rw [update_self]
    exact iff_of_false nofun fun ⟨⟨hba, hb⟩, hpid⟩ => hba (ht'.eq_of_pid hb ha hpid)
  · rw [update_of_ne hp, ht pid b]
    exact ⟨fun ⟨hb, hpid⟩ => ⟨⟨fun h' => hp (by rw [← hpid, h']), hb⟩, hpid⟩, fun ⟨⟨_, hb⟩, hpid⟩ =>
      ⟨hb, hpid⟩⟩

/-- The loop of `remove_exited_processes`, between the members `l1` and `l2`. -/
theorem removeExitedFrom_spec (h : Lists M dom L) (ht : Table M dom L) (hf : f ∈ dom) {n : ℕ}
    (hL : L f = l1 ++ l2) (hn : l2.length ≤ n) :
    ∃ M', removeExitedFrom f n l1.getLast? l2.head? M = some M' ∧
      Lists M' dom (update L f (l1 ++ l2.filter M.stillAlive)) ∧
      Table M' dom (update L f (l1 ++ l2.filter M.stillAlive)) ∧ Cleared M f l2 M' := by
  induction l2 generalizing n l1 L M with
  | nil =>
    have hself : update L f (l1 ++ filter M.stillAlive []) = L := by
      rw [filter_nil, ← hL, update_eq_self]
    refine ⟨M, by cases n <;> rfl, by rw [hself]; exact h, by rw [hself]; exact ht,
      SameTree.refl M, rfl, rfl, by simp, ?_⟩
    simp [timesOf]
  | cons a l2 ih =>
    obtain _ | n := n
    · simp at hn
    have hn' : l2.length ≤ n := by simpa using hn
    have hlist := h f hf
    rw [hL] at hlist
    have hnext := hlist.next_eq
    have hnodup := hlist.nodup
    rw [nodup_middle, nodup_cons] at hnodup
    have ha2 : a ∉ l2 := fun h' => hnodup.1 (mem_append_right _ h')
    rw [head?_cons, removeExitedFrom]
    cases halive : M.stillAlive a with
    | true =>
      -- the member stays, and its mark is taken away
      set M1 : Monitor := { M with stillAlive := update M.stillAlive a false } with hM1
      have h1 : Lists M1 dom L := h.congr rfl rfl rfl rfl rfl
      have ht1 : Table M1 dom L := ht
      have hL1 : L f = (l1 ++ [a]) ++ l2 := by rw [hL]; simp
      have halive1 : ∀ b ∈ l2, M1.stillAlive b = M.stillAlive b := fun b hb =>
        update_of_ne (fun h' => ha2 (by rw [← h']; exact hb)) ..
      obtain ⟨M', hrun, hl', ht', hc⟩ := ih h1 ht1 hL1 hn'
      have hfilter : l2.filter M1.stillAlive = l2.filter M.stillAlive := filter_congr halive1
      have hlist' : l1 ++ [a] ++ l2.filter M1.stillAlive = l1 ++ (a :: l2).filter M.stillAlive := by
        rw [hfilter, filter_cons_of_pos halive]
        simp
      rw [hlist'] at hl' ht'
      rw [getLast?_concat] at hrun
      have hsame1 : SameTree M M1 := ⟨rfl, rfl, rfl, rfl, rfl, rfl, rfl, rfl⟩
      refine ⟨M', ?_, hl', ht', hsame1.trans hc.toSameTree, hc.procInfo, hc.made, fun b => ?_, ?_⟩
      · rw [hnext]
        exact hrun
      · rw [hc.stillAlive]
        by_cases hb : b = a
        · subst hb
          simp [hM1]
        · simp [hM1, hb]
      · rw [hc.exited, filter_cons_of_neg (by simp [halive])]
        have hdead : l2.filter (fun b => !M1.stillAlive b) = l2.filter fun b => !M.stillAlive b :=
          filter_congr fun b hb => by rw [halive1 b hb]
        rw [hdead]
        rfl
    | false =>
      have hmember : M.memberTable (M.procInfo a).pid = some a :=
        (ht _ a).mpr ⟨f, hf, by rw [hL]; exact mem_append_right _ mem_cons_self, rfl⟩
      set M1 : Monitor := { M with
        exited := update M.exited f (M.exited f + (M.procInfo a).times) } with hM1
      have h1 : Lists M1 dom L := h.congr rfl rfl rfl rfl rfl
      obtain ⟨h2, ht2⟩ := removeMember_spec h1 ht hf hL
      set M2 : Monitor := { M1 with memberTable := update M1.memberTable (M1.procInfo a).pid none }
      have hsame := unlink_same M2 f l1.getLast? l2.head?
      obtain ⟨M', hrun, hl', ht', hc⟩ := ih h2 ht2 (update_self ..) hn'
      rw [hsame.stillAlive, update_idem] at hl' ht'
      rw [filter_cons_of_neg (by simp [halive])]
      have hsame2 : SameTree M M2 := ⟨rfl, rfl, rfl, rfl, rfl, rfl, rfl, rfl⟩
      refine ⟨M', ?_, hl', ht', (hsame2.trans hsame.toSameTree).trans hc.toSameTree,
        hc.procInfo.trans hsame.procInfo, hc.made.trans hsame.made, fun b => ?_, ?_⟩
      · rw [hnext]
        simp only [Bool.false_eq_true]
        rw [show M1.memberTable (M1.procInfo a).pid = _ from hmember]
        exact hrun
      · rw [hc.stillAlive, hsame.stillAlive]
        change (M.stillAlive b && _) = _
        by_cases hb : b = a
        · subst hb
          simp [halive]
        · simp [hb]
      · rw [hc.exited, hsame.exited, filter_cons_of_pos (by simp [halive])]
        have hexited : M2.exited f = M.exited f + (M.procInfo a).times := update_self ..
        rw [update_idem, hexited]
        unfold timesOf
        rw [hsame.procInfo, hsame.stillAlive, total_cons, add_assoc]

theorem length_le_of_old {n : ℕ} (hnodup : l.Nodup) (hold : ∀ a ∈ l, a < n) : l.length ≤ n := by
  have hsub : l ⊆ range n := fun a ha => mem_range.mpr (hold a ha)
  simpa using (subperm_of_subset hnodup hsub).length_le

/-- **`remove_exited_processes`**: the members that are not alive go, and their times are kept. -/
theorem removeExited_spec (h : Lists M dom L) (ht : Table M dom L) (hf : f ∈ dom) :
    ∃ M', M.removeExited f = some M' ∧ Lists M' dom (update L f ((L f).filter M.stillAlive)) ∧
      Table M' dom (update L f ((L f).filter M.stillAlive)) ∧ Cleared M f (L f) M' := by
  have hlen : (L f).length ≤ M.made := length_le_of_old (h f hf).nodup (h f hf).old
  have hspec := removeExitedFrom_spec h ht hf (nil_append (L f)).symm hlen
  rw [removeExited, (h f hf).head]
  exact hspec

end Condor.Procd
