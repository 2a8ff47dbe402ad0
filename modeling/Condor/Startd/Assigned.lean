import Condor.Startd.DevIds

/-!
# The devices of the slots

The lists of the slots agree with the table of the machine: for each slot the table has the devices
that the slot has listed, and no device has an owner that is not there. Binding and unbinding
devices for one slot changes what the table has for that slot only. Reading the configuration again
makes the lists anew from the owners among the primary slots, and so it empties the lists of the
backfill slots.

* **`assigned_perm_of_run`**.
-/

namespace Condor.Startd

open List Option Function NonFungibleRes MachAttributes

/-! ## Owners -/

namespace NonFungibleRes

variable (e : NonFungibleRes) (b : Bool) (o : FullSlotId)

@[simp] theorem id_setOwner : (e.setOwner b o).id = e.id := by
  cases b <;> rfl

@[simp] theorem ownerOf_setOwner : (e.setOwner b o).ownerOf b = o := by
  cases b <;> rfl

theorem ownerOf_setOwner_of_ne {b b' : Bool} (h : b' ≠ b) :
    (e.setOwner b o).ownerOf b' = e.ownerOf b' := by
  cases b <;> cases b' <;> first | rfl | exact absurd rfl h

/-- The slot has the device, or its partitionable slot has it. -/
def owns (slotId subId : ℕ) : Bool :=
  decide ((e.ownerOf b).id = slotId ∧ (subId = 0 ∨ (e.ownerOf b).dynId = subId))

/-- The device is given back to the partitionable slot, if the owner has it. -/
def freed : NonFungibleRes := if e.ownerOf b = o then e.setOwner b ⟨o.id, 0⟩ else e

@[simp] theorem id_freed : (e.freed b o).id = e.id := by
  unfold freed
  split <;> simp

end NonFungibleRes

variable {T Q : Type} {e : NonFungibleRes} {o : FullSlotId} {i d : ℕ} {b : Bool}
  {M M' M'' : MachAttributes T} {tag : T} {es : List NonFungibleRes} {id : Text}

/-- The devices that the table has for a slot. -/
def MachAttributes.assigned (M : MachAttributes T) (tag : T) (backfill : Bool) (slotId subId : ℕ) :
    List Text :=
  chosen (fun e => e.owns backfill slotId subId) NonFungibleRes.id (M.ids tag)

/-- The table has changed for one slot only. -/
structure Local (b : Bool) (i d : ℕ) (M M' : MachAttributes T) : Prop where
  tags : M'.tags = M.tags
  absent : ∀ tag, tag ∉ M.tags → M'.ids tag = M.ids tag
  same : ∀ tag b' i' d', i' ≠ 0 → (b' = b → i' = i → d' ≠ d) →
    M'.assigned tag b' i' d' = M.assigned tag b' i' d'

theorem Local.refl (M : MachAttributes T) :
    Local b i d M M := ⟨rfl, fun _ _ => rfl, fun _ _ _ _ _ _ => rfl⟩

theorem Local.trans (h : Local b i d M M') (h' : Local b i d M' M'') : Local b i d M M'' where
  tags := h'.tags.trans h.tags
  absent tag htag := (h'.absent tag (by rwa [h.tags])).trans (h.absent tag htag)
  same tag b' i' d' hi' hne := (h'.same tag b' i' d' hi' hne).trans (h.same tag b' i' d' hi' hne)

theorem NonFungibleRes.owns_iff (hd : 0 < d) : e.owns b i d = true ↔ e.ownerOf b = ⟨i, d⟩ := by
  have hd' : d ≠ 0 := by omega
  cases b <;> simp [owns, hd', FullSlotId.ext_iff]

theorem mem_assigned_iff (hd : 0 < d) :
    id ∈ M.assigned tag b i d ↔ ∃ e ∈ M.ids tag, e.id = id ∧ e.ownerOf b = ⟨i, d⟩ := by
  simp only [assigned, chosen, List.mem_map, List.mem_filter, owns_iff hd]
  grind

theorem assigned_eq_nil_iff (hd : 0 < d) :
    M.assigned tag b i d = [] ↔ ∀ e ∈ M.ids tag, e.ownerOf b ≠ ⟨i, d⟩ := by
  rw [assigned, chosen_eq_nil_iff]
  refine forall₂_congr fun e _ => ?_
  rw [ne_eq, ← owns_iff hd, Bool.not_eq_true]

/-- The table has changed for one slot only, and it is as before once all devices of the slot are
freed. -/
structure Released (b : Bool) (i d : ℕ) (M M' : MachAttributes T) :
    Prop extends Local b i d M M' where
  freed : ∀ tag, (M'.ids tag).map (·.freed b ⟨i, d⟩) = (M.ids tag).map (·.freed b ⟨i, d⟩)

theorem Released.refl (M : MachAttributes T) : Released b i d M M := ⟨Local.refl M, fun _ => rfl⟩

theorem Released.trans (h : Released b i d M M') (h' : Released b i d M' M'') :
    Released b i d M M'' :=
  ⟨h.toLocal.trans h'.toLocal, fun tag => (h'.freed tag).trans (h.freed tag)⟩

/-- The table has no devices for tags that are not there. -/
def MachAttributes.NoStray (M : MachAttributes T) : Prop := ∀ tag, tag ∉ M.tags → M.ids tag = []

theorem Local.noStray (h : Local b i d M M') (hM : M.NoStray) : M'.NoStray := by
  intro tag htag
  rw [h.tags] at htag
  rw [h.absent tag htag, hM tag htag]

section Devices

variable [DecidableEq T]

theorem ids_setIds_self : (M.setIds tag es).ids tag = es := update_self ..

theorem ids_setIds_of_ne {tag' : T} (h : tag' ≠ tag) :
    (M.setIds tag es).ids tag' = M.ids tag' := update_of_ne h ..

/-- One device has changed between the slot and its partitionable slot, or has been taken at
start-up: no other slot sees the difference. -/
theorem local_setIds (htag : tag ∈ M.tags) (hes : Replaced (M.ids tag) e (e.setOwner b o) es)
    (howns : ∀ i' d', i' ≠ 0 → (i' = i → d' ≠ d) → (e.setOwner b o).owns b i' d' = e.owns b i' d') :
    Local b i d M (M.setIds tag es) where
  tags := rfl
  absent tag' htag' := ids_setIds_of_ne fun h => htag' (by rwa [h])
  same tag' b' i' d' hi' hne := by
    unfold assigned
    by_cases ht : tag' = tag
    · subst ht
      rw [ids_setIds_self]
      refine hes.chosen_eq ?_ (by simp)
      by_cases hb : b' = b
      · subst hb
        exact howns i' d' hi' (hne rfl)
      · unfold NonFungibleRes.owns
        rw [NonFungibleRes.ownerOf_setOwner_of_ne _ _ hb]
    · rw [ids_setIds_of_ne ht]

theorem assigned_setIds_of_ne {tag' : T} (h : tag' ≠ tag) :
    (M.setIds tag es).assigned tag' b i d = M.assigned tag' b i d := by
  rw [assigned, ids_setIds_of_ne h, assigned]

theorem assigned_setIds :
    (M.setIds tag es).assigned tag b i d = chosen (fun e => e.owns b i d) NonFungibleRes.id es := by
  rw [assigned, ids_setIds_self]

/-! ## One device -/

/-- `AllocateDevId` gives the slot a device that was not its own, and changes nothing for other
slots. -/
theorem allocateDevId_spec {devIdMatches : T → ℕ → Q → Bool} {request : Option Q}
    (h : M.allocateDevId devIdMatches tag request i d b = some (id, M')) :
    Local b i d M M' ∧ (M'.assigned tag b i d).Perm (id :: M.assigned tag b i d) ∧
      ∀ tag', tag' ≠ tag → M'.assigned tag' b i d = M.assigned tag' b i d := by
  unfold allocateDevId at h
  split at h
  · cases h
  · next hguard =>
    obtain ⟨-, htag⟩ := not_or.mp hguard
    rw [not_not] at htag
    obtain ⟨k, hk, h⟩ := bind_eq_some_iff.mp h
    obtain ⟨e, he, h⟩ := bind_eq_some_iff.mp h
    cases h
    have hfree : e.ownerOf b = ⟨if 0 < d then i else 0, 0⟩ := by
      have hok := find?_some hk
      unfold allocatable at hok
      rw [he] at hok
      simp only [Bool.and_eq_true, decide_eq_true_eq] at hok
      exact hok.1.2
    have hes : Replaced (M.ids tag) e (e.setOwner b ⟨i, d⟩)
        ((M.ids tag).set k (e.setOwner b ⟨i, d⟩)) :=
      replaced_set he
    refine ⟨local_setIds htag hes fun i' d' hi' hne => ?_, ?_,
      fun tag' htag' => assigned_setIds_of_ne htag'⟩
    · unfold NonFungibleRes.owns
      rw [NonFungibleRes.ownerOf_setOwner, hfree]
      rw [decide_eq_decide]
      dsimp only
      split <;> omega
    · rw [assigned_setIds]
      refine (hes.chosen_new ?_ ?_).trans (by simp [assigned])
      · unfold NonFungibleRes.owns
        rw [hfree, decide_eq_false_iff_not]
        dsimp only
        split <;> omega
      · simp [NonFungibleRes.owns]

/-- The loop releases a device with the id of the owner, if there is one. -/
theorem releaseFirst_spec {l : List NonFungibleRes}
    (hid : ∃ e ∈ l, e.id = id ∧ e.ownerOf b = o) (hother : ∀ e ∈ l, e.ownerOf (!b) ≠ o) :
    ∃ e es, releaseFirst id o l = some es ∧ e.id = id ∧ e.ownerOf b = o ∧
      Replaced l e (e.setOwner b ⟨o.id, 0⟩) es := by
  induction l with
  | nil => simp at hid
  | cons e es ih =>
    by_cases he : e.id = id ∧ e.ownerOf b = o
    · refine ⟨e, e.setOwner b ⟨o.id, 0⟩ :: es, ?_, he.1, he.2, [], es, rfl, rfl⟩
      have hne := hother e mem_cons_self
      cases b with
      | false => exact if_pos he
      | true => exact (if_neg fun h => hne h.2).trans (if_pos he)
    · obtain ⟨e', he', h⟩ := hid
      have hmem : e' ∈ es := (mem_cons.mp he').resolve_left fun h' => he (by rwa [← h'])
      obtain ⟨e1, es1, hrel, hid1, ho1, hrep⟩ := ih ⟨e', hmem, h⟩ fun e he =>
        hother e (mem_cons_of_mem _ he)
      refine ⟨e1, e :: es1, ?_, hid1, ho1, hrep.cons e⟩
      have hne := hother e mem_cons_self
      unfold releaseFirst
      rw [hrel]
      cases b with
      | false => exact (if_neg he).trans (if_neg fun h => hne h.2)
      | true => exact (if_neg fun h => hne h.2).trans (if_neg he)

/-- `ReleaseDynamicDevId` releases a device that the slot has. -/
theorem releaseDynamicDevId_spec (hd : 0 < d) (hM : M.NoStray)
    (hid : id ∈ M.assigned tag b i d) (hother : M.assigned tag (!b) i d = []) :
    Released b i d M (M.releaseDynamicDevId tag id ⟨i, d⟩) ∧
      (M.assigned tag b i d).Perm (id :: (M.releaseDynamicDevId tag id ⟨i, d⟩).assigned tag b i d) ∧
      ∀ tag', tag' ≠ tag →
        (M.releaseDynamicDevId tag id ⟨i, d⟩).assigned tag' b i d = M.assigned tag' b i d := by
  obtain ⟨e, es, hrel, rfl, ho, hrep⟩ := releaseFirst_spec ((mem_assigned_iff hd).mp hid)
    ((assigned_eq_nil_iff hd).mp hother)
  have htag : tag ∈ M.tags := by
    by_contra htag
    rw [assigned, hM tag htag] at hid
    cases hid
  have heq : M.releaseDynamicDevId tag e.id ⟨i, d⟩ = M.setIds tag es := by
    rw [releaseDynamicDevId, if_pos htag, hrel]
  rw [heq]
  have howns : e.owns b i d = true := (NonFungibleRes.owns_iff hd).mpr ho
  have howns' : (e.setOwner b ⟨i, 0⟩).owns b i d = false := by
    simp only [NonFungibleRes.owns, NonFungibleRes.ownerOf_setOwner, decide_eq_false_iff_not]
    omega
  refine ⟨⟨local_setIds htag hrep fun i' d' hi' hne => ?_, fun tag' => ?_⟩, ?_,
    fun tag' => assigned_setIds_of_ne⟩
  · unfold NonFungibleRes.owns
    rw [NonFungibleRes.ownerOf_setOwner, ho, decide_eq_decide]
    dsimp only
    omega
  · by_cases htag' : tag' = tag
    · subst htag'
      rw [ids_setIds_self]
      refine hrep.map_eq ?_
      have hne : (e.setOwner b ⟨i, 0⟩).ownerOf b ≠ ⟨i, d⟩ := by
        rw [NonFungibleRes.ownerOf_setOwner]
        intro h
        exact absurd (FullSlotId.mk.inj h).2 (by omega)
      rw [NonFungibleRes.freed, if_neg hne, NonFungibleRes.freed, if_pos ho]
    · rw [ids_setIds_of_ne htag']
  · rw [assigned_setIds]
    exact hrep.chosen_old howns howns'

theorem releaseAll_spec (hi : i ≠ 0) (hd : 0 < d) (hM : M.NoStray)
    (hother : M.assigned tag (!b) i d = []) {ids rest : List Text}
    (hids : (M.assigned tag b i d).Perm (ids ++ rest)) :
    Released b i d M (Slot.releaseAll ⟨i, d⟩ tag M ids) ∧
      ((Slot.releaseAll ⟨i, d⟩ tag M ids).assigned tag b i d).Perm rest ∧
      ∀ tag', tag' ≠ tag →
        (Slot.releaseAll ⟨i, d⟩ tag M ids).assigned tag' b i d = M.assigned tag' b i d := by
  induction ids generalizing rest with
  | nil => exact ⟨Released.refl M, hids, fun _ _ => rfl⟩
  | cons id ids ih =>
    obtain ⟨hrel, hperm, hsame⟩ := @ih (id :: rest) (hids.trans perm_middle.symm)
    have hother' : (Slot.releaseAll ⟨i, d⟩ tag M ids).assigned tag (!b) i d = [] := by
      rw [hrel.same tag (!b) i d hi fun h => by simp at h, hother]
    obtain ⟨hrel', hperm', hsame'⟩ := releaseDynamicDevId_spec hd (hrel.noStray hM)
      (hperm.symm.subset mem_cons_self) hother'
    exact ⟨hrel.trans hrel', Perm.cons_inv (hperm'.symm.trans hperm),
      fun tag' htag' => (hsame' tag' htag').trans (hsame tag' htag')⟩

end Devices

/-! ## One slot -/

namespace Slot

variable {devIdMatches : T → ℕ → Q → Bool} {s s' : Slot T Q}

/-- **The lists of the slot** have the devices that the table has for it. -/
def Holds (s : Slot T Q) (M : MachAttributes T) : Prop :=
  ∀ tag, ((s.devIds tag).getD []).Perm (M.assigned tag s.backfill s.slotId s.subId)

/-- There are lists only for tags of which the slot has a quantity. -/
def Covered (s : Slot T Q) : Prop := ∀ tag, s.devIds tag ≠ none → tag ∈ s.slotres.map Prod.fst

/-- The slots differ in their lists only. -/
structure Like (s s' : Slot T Q) : Prop where
  slotId : s'.slotId = s.slotId
  subId : s'.subId = s.subId
  backfill : s'.backfill = s.backfill
  slotres : s'.slotres = s.slotres

theorem Like.trans {s'' : Slot T Q} (h : Like s s') (h' : Like s' s'') : Like s s'' :=
  ⟨h'.slotId.trans h.slotId, h'.subId.trans h.subId, h'.backfill.trans h.backfill,
    h'.slotres.trans h.slotres⟩

variable [DecidableEq T]

theorem bindMany_spec (devIdMatches : T → ℕ → Q → Bool) (tag : T) (n : ℕ) (M : MachAttributes T) :
    Local s.backfill s.slotId s.subId M (s.bindMany devIdMatches tag n M).1 ∧
      ((s.bindMany devIdMatches tag n M).1.assigned tag s.backfill s.slotId s.subId).Perm
        (M.assigned tag s.backfill s.slotId s.subId ++ (s.bindMany devIdMatches tag n M).2) ∧
      ∀ tag', tag' ≠ tag → (s.bindMany devIdMatches tag n M).1.assigned tag' s.backfill
      s.slotId s.subId = M.assigned tag' s.backfill s.slotId s.subId := by
  induction n generalizing M with
  | zero => exact ⟨Local.refl M, by simp [bindMany], fun _ _ => rfl⟩
  | succ n ih =>
    unfold bindMany
    cases halloc : M.allocateDevId devIdMatches tag (s.constraint tag) s.slotId s.subId
      s.backfill with
    | none => exact ih M
    | some p =>
      obtain ⟨id, M'⟩ := p
      obtain ⟨hlocal, hperm, hsame⟩ := allocateDevId_spec halloc
      obtain ⟨hlocal', hperm', hsame'⟩ := ih M'
      refine ⟨hlocal.trans hlocal', hperm'.trans ?_,
        fun tag' h => (hsame' tag' h).trans (hsame tag' h)⟩
      exact (hperm.append_right _).trans perm_middle.symm

theorem addIds_like (tag : T) (ids : List Text) : Like s (s.addIds tag ids) := by
  unfold addIds
  split <;> exact ⟨rfl, rfl, rfl, rfl⟩

theorem getD_addIds_self (ids : List Text) :
    ((s.addIds tag ids).devIds tag).getD [] = (s.devIds tag).getD [] ++ ids := by
  unfold addIds
  split
  · next h => rw [h, append_nil]
  · simp

theorem devIds_addIds_of_ne {tag tag' : T} (ids : List Text) (h : tag' ≠ tag) :
    (s.addIds tag ids).devIds tag' = s.devIds tag' := by
  unfold addIds
  split
  · rfl
  · exact update_of_ne h ..

theorem holds_addIds {ids : List Text} {tag : T} (hs : s.Holds M)
    (hperm : (M'.assigned tag s.backfill s.slotId s.subId).Perm
      (M.assigned tag s.backfill s.slotId s.subId ++ ids))
    (hsame : ∀ tag', tag' ≠ tag → M'.assigned tag' s.backfill s.slotId s.subId =
      M.assigned tag' s.backfill s.slotId s.subId) : (s.addIds tag ids).Holds M' := by
  intro tag'
  rw [(s.addIds_like tag ids).backfill, (s.addIds_like tag ids).slotId,
    (s.addIds_like tag ids).subId]
  by_cases h : tag' = tag
  · subst h
    rw [getD_addIds_self]
    exact ((hs tag').append_right ids).trans hperm.symm
  · rw [devIds_addIds_of_ne ids h, hsame tag' h]
    exact hs tag'

/-- What binding does: only the slot has changed, and its lists agree with the table. -/
structure Bound (s : Slot T Q) (rest : List (T × ℤ)) (M M' : MachAttributes T) (s' : Slot T Q) :
    Prop where
  like : Like s s'
  local' : Local s.backfill s.slotId s.subId M M'
  holds : s'.Holds M'
  covered : ∀ tag, s'.devIds tag ≠ none → s.devIds tag ≠ none ∨ tag ∈ rest.map Prod.fst

theorem bindTags_spec (devIdMatches : T → ℕ → Q → Bool) (rest : List (T × ℤ)) (hs : s.Holds M) :
    Bound s rest M (s.bindTags devIdMatches rest M).2.1 (s.bindTags devIdMatches rest M).2.2 := by
  induction rest generalizing s M with
  | nil => exact ⟨⟨rfl, rfl, rfl, rfl⟩, Local.refl M, hs, fun _ h => .inl h⟩
  | cons r rest ih =>
    obtain ⟨tag, assigned⟩ := r
    have hskip : Bound s ((tag, assigned) :: rest) M (s.bindTags devIdMatches rest M).2.1
        (s.bindTags devIdMatches rest M).2.2 :=
      have h := ih hs
      ⟨h.like, h.local', h.holds, fun tag' h' => (h.covered tag' h').imp_right (mem_cons_of_mem _)⟩
    unfold bindTags
    split
    · exact hskip
    · split
      · obtain ⟨hlocal, hperm, hsame⟩ := s.bindMany_spec devIdMatches tag assigned.toNat M
        set M1 := (s.bindMany devIdMatches tag assigned.toNat M).1
        set ids := (s.bindMany devIdMatches tag assigned.toNat M).2
        have hlike := s.addIds_like tag ids
        have hholds : (s.addIds tag ids).Holds M1 := holds_addIds hs hperm hsame
        have hcov : ∀ tag', (s.addIds tag ids).devIds tag' ≠ none →
            s.devIds tag' ≠ none ∨ tag' ∈ ((tag, assigned) :: rest).map Prod.fst := by
          intro tag' h
          by_cases heq : tag' = tag
          · exact .inr (by simp [heq])
          · rw [devIds_addIds_of_ne ids heq] at h
            exact .inl h
        dsimp only
        split
        · exact ⟨hlike, hlocal, hholds, hcov⟩
        · have h := ih hholds
          refine ⟨hlike.trans h.like, hlocal.trans ?_, h.holds, fun tag' h' => ?_⟩
          · have hl := h.local'
            rwa [hlike.backfill, hlike.slotId, hlike.subId] at hl
          · exact (h.covered tag' h').elim (hcov tag') fun h => .inr (mem_cons_of_mem _ h)
      · exact hskip

/-- What unbinding does: only the slot has changed, its lists agree with the table, and those that
have been gone through are empty. -/
structure Unbound (s : Slot T Q) (rest : List (T × ℤ)) (M M' : MachAttributes T) (s' : Slot T Q) :
    Prop where
  like : Like s s'
  released : Released s.backfill s.slotId s.subId M M'
  holds : s'.Holds M'
  empty : ∀ tag, (s.devIds tag ≠ none → (s.devIds tag).getD [] = [] ∨ tag ∈ rest.map Prod.fst) →
    (s'.devIds tag).getD [] = []

theorem unbindTags_spec (rest : List (T × ℤ)) (hi : s.slotId ≠ 0) (hd : 0 < s.subId)
    (hM : M.NoStray) (hs : s.Holds M)
    (hother : ∀ tag, M.assigned tag (!s.backfill) s.slotId s.subId = []) :
    Unbound s rest M (s.unbindTags rest M).1 (s.unbindTags rest M).2 := by
  induction rest generalizing s M with
  | nil =>
    refine ⟨⟨rfl, rfl, rfl, rfl⟩, Released.refl M, hs, fun tag h => ?_⟩
    change (s.devIds tag).getD [] = []
    cases hdev : s.devIds tag with
    | none => rfl
    | some ids => simpa [hdev] using h (by simp [hdev])
  | cons r rest ih =>
    obtain ⟨tag, assigned⟩ := r
    unfold unbindTags
    split
    · next hnone =>
      have h := ih hi hd hM hs hother
      refine ⟨h.like, h.released, h.holds, fun tag' h' => h.empty tag' fun hne => ?_⟩
      refine (h' hne).imp_right fun hmem => ?_
      rcases mem_cons.mp hmem with rfl | hmem
      · exact absurd hnone hne
      · exact hmem
    · next ids hids =>
      have hperm : (M.assigned tag s.backfill s.slotId s.subId).Perm (ids ++ []) := by
        have := hs tag
        rw [hids] at this
        simpa using this.symm
      obtain ⟨hrel, hrest, hsame⟩ := releaseAll_spec hi hd hM (hother tag) hperm
      set M1 := releaseAll ⟨s.slotId, s.subId⟩ tag M ids
      set s1 : Slot T Q := { s with devIds := update s.devIds tag (some []) } with hs1
      have hs₁_ne : ∀ tag', tag' ≠ tag → s1.devIds tag' = s.devIds tag' := fun tag' h =>
        update_of_ne h ..
      have hs₁_self : s1.devIds tag = some [] := update_self ..
      have hholds : s1.Holds M1 := by
        intro tag'
        by_cases h : tag' = tag
        · subst h
          rw [hs₁_self]
          exact hrest.symm
        · rw [hs₁_ne tag' h, hsame tag' h]
          exact hs tag'
      have hother1 : ∀ tag', M1.assigned tag' (!s1.backfill) s1.slotId s1.subId = [] := by
        intro tag'
        rw [hrel.same tag' _ _ _ hi fun h => absurd h (by simp [hs1])]
        exact hother tag'
      have h := ih (s := s1) hi hd (hrel.noStray hM) hholds hother1
      refine ⟨⟨h.like.slotId, h.like.subId, h.like.backfill, h.like.slotres⟩,
        hrel.trans h.released, h.holds, fun tag' h' => h.empty tag' fun hne => ?_⟩
      by_cases heq : tag' = tag
      · subst heq
        rw [hs₁_self]
        exact .inl rfl
      · rw [hs₁_ne tag' heq] at hne ⊢
        refine (h' hne).imp_right fun hmem => ?_
        rcases mem_cons.mp hmem with rfl | hmem
        · exact absurd rfl heq
        · exact hmem

/-- `unbind_DevIds` of a dynamic slot: its devices are free in its partitionable slot, and nothing
else has changed. -/
theorem unbindDevIds_spec (hi : s.slotId ≠ 0) (hd : 0 < s.subId) (hM : M.NoStray) (hs : s.Holds M)
    (hcov : s.Covered) (hother : ∀ tag, M.assigned tag (!s.backfill) s.slotId s.subId = []) :
    Local s.backfill s.slotId s.subId M (s.unbindDevIds M).1 ∧
      (∀ tag, (s.unbindDevIds M).1.assigned tag s.backfill s.slotId s.subId = []) ∧
      ∀ tag, (s.unbindDevIds M).1.ids tag =
      (M.ids tag).map (·.freed s.backfill ⟨s.slotId, s.subId⟩) := by
  rw [unbindDevIds, if_neg (by omega)]
  have h := unbindTags_spec s.slotres hi hd hM hs hother
  have hempty : ∀ tag, (s.unbindTags s.slotres M).1.assigned tag s.backfill s.slotId s.subId =
      [] := by
    intro tag
    have hperm := h.holds tag
    rw [h.empty tag fun hne => .inr (hcov tag hne), h.like.backfill, h.like.slotId,
      h.like.subId] at hperm
    exact hperm.symm.eq_nil
  refine ⟨h.released.toLocal, hempty, fun tag => ?_⟩
  rw [← h.released.freed tag]
  have hsame : ∀ e ∈ (s.unbindTags s.slotres M).1.ids tag, e.freed s.backfill ⟨s.slotId, s.subId⟩ =
      e :=
    fun e he => if_neg ((assigned_eq_nil_iff hd).mp (hempty tag) e he)
  rw [List.map_congr_left hsame, List.map_id']

end Slot

/-! ## All slots -/

variable {devIdMatches : T → ℕ → Q → Bool} {st st' : Machine T Q} {s : Slot T Q}

/-- The lists of the slots agree with the table of the machine, which has no devices for anybody
else. -/
structure Agrees (st : Machine T Q) : Prop where
  noStray : st.mach.NoStray
  positive : ∀ s ∈ st.slots, s.slotId ≠ 0
  unique : ∀ s ∈ st.slots, ∀ s' ∈ st.slots, s.slotId = s'.slotId → s.subId = s'.subId → s = s'
  kind : ∀ s ∈ st.slots, ∀ s' ∈ st.slots, s.slotId = s'.slotId → s.backfill = s'.backfill
  covered : ∀ s ∈ st.slots, s.Covered
  holds : ∀ s ∈ st.slots, s.Holds st.mach
  nobody : ∀ tag b i d, i ≠ 0 → (∀ s ∈ st.slots, s.backfill = b → s.slotId = i → s.subId ≠ d) →
    st.mach.assigned tag b i d = []

/-- A new slot, without lists and with an id of its own. -/
structure New (st : Machine T Q) (s : Slot T Q) : Prop where
  positive : s.slotId ≠ 0
  devIds : ∀ tag, s.devIds tag = none
  free : ∀ s' ∈ st.slots, s'.slotId = s.slotId → s'.subId ≠ s.subId
  kind : ∀ s' ∈ st.slots, s'.slotId = s.slotId → s'.backfill = s.backfill

/-- No device has an owner. -/
def MachAttributes.Fresh (M : MachAttributes T) : Prop :=
  M.NoStray ∧ ∀ tag, ∀ e ∈ M.ids tag, e.owner = ⟨0, 0⟩ ∧ e.bkowner = ⟨0, 0⟩

theorem agrees_of_fresh (hM : M.Fresh) : Agrees (⟨M, []⟩ : Machine T Q) := by
  refine ⟨hM.1, nofun, nofun, nofun, nofun, nofun, fun tag b i d hi _ => ?_⟩
  refine chosen_eq_nil_iff.mpr fun e he => decide_eq_false fun h => hi ?_
  obtain ⟨ho, hbk⟩ := hM.2 tag e he
  rw [← h.1]
  cases b <;> simp [ownerOf, ho, hbk]

theorem slot?_eq_some (h : st.slot? i d = some s) : s ∈ st.slots ∧ s.slotId = i ∧ s.subId = d :=
  ⟨mem_of_find?_eq_some h, by simpa using find?_some h⟩

theorem slot?_eq_none (h : st.slot? i d = none) (hs : s ∈ st.slots) : s.slotId = i → s.subId ≠ d :=
  fun hi hd => by simpa [hi, hd] using find?_eq_none.mp h s hs

variable [DecidableEq T]

theorem Agrees.bind (h : Agrees st) (hs : New st s) {r : Bool} {M' : MachAttributes T}
    {s' : Slot T Q} (hbind : s.bindDevIds devIdMatches st.mach = (r, M', s')) :
    Agrees ⟨M', s' :: st.slots⟩ ∧ Slot.Like s s' := by
  have hholds : s.Holds st.mach := by
    intro tag
    rw [hs.devIds tag, h.nobody tag _ _ _ hs.positive fun s' hs' _ hi => hs.free s' hs' hi]
    exact Perm.refl _
  have hb : Slot.Bound s s.slotres st.mach M' s' := by
    have hspec := Slot.bindTags_spec devIdMatches s.slotres hholds
    rw [Slot.bindDevIds] at hbind
    rwa [hbind] at hspec
  have hlike := hb.like
  have hne : ∀ s1 ∈ st.slots, s1.slotId = s'.slotId → s1.subId ≠ s'.subId := fun s1 hs1 hi => by
    rw [hlike.slotId] at hi
    rw [hlike.subId]
    exact hs.free s1 hs1 hi
  have hkind : ∀ s1 ∈ st.slots, s1.slotId = s'.slotId → s1.backfill = s'.backfill :=
    fun s1 hs1 hi => by
    rw [hlike.slotId] at hi
    rw [hlike.backfill]
    exact hs.kind s1 hs1 hi
  refine ⟨⟨hb.local'.noStray h.noStray, ?_, ?_, ?_, ?_, ?_, ?_⟩, hlike⟩
  · rintro s1 (_ | ⟨_, hs1⟩)
    · rw [hlike.slotId]
      exact hs.positive
    · exact h.positive s1 hs1
  · rintro s1 (_ | ⟨_, hs1⟩) s2 (_ | ⟨_, hs2⟩) hi hd
    · rfl
    · exact absurd hd.symm (hne s2 hs2 hi.symm)
    · exact absurd hd (hne s1 hs1 hi)
    · exact h.unique s1 hs1 s2 hs2 hi hd
  · rintro s1 (_ | ⟨_, hs1⟩) s2 (_ | ⟨_, hs2⟩) hi
    · rfl
    · exact (hkind s2 hs2 hi.symm).symm
    · exact hkind s1 hs1 hi
    · exact h.kind s1 hs1 s2 hs2 hi
  · rintro s1 (_ | ⟨_, hs1⟩)
    · intro tag htag
      rw [hlike.slotres]
      exact (hb.covered tag htag).resolve_left (by simp [hs.devIds tag])
    · exact h.covered s1 hs1
  · rintro s1 (_ | ⟨_, hs1⟩)
    · exact hb.holds
    · intro tag
      rw [hb.local'.same tag _ _ _ (h.positive s1 hs1) fun _ hi => hs.free s1 hs1 hi]
      exact h.holds s1 hs1 tag
  · intro tag b i d hi hno
    rw [hb.local'.same tag b i d hi ?_]
    · exact h.nobody tag b i d hi fun s1 hs1 => hno s1 (mem_cons_of_mem _ hs1)
    · rintro rfl rfl
      have := hno s' mem_cons_self hlike.backfill hlike.slotId
      rw [hlike.subId] at this
      exact this.symm

theorem Agrees.remove (h : Agrees st) (hs : s ∈ st.slots) (hd : 0 < s.subId) :
    Agrees ⟨(s.unbindDevIds st.mach).1,
      st.slots.filter fun s' => decide (¬(s'.slotId = s.slotId ∧ s'.subId = s.subId))⟩ ∧
    ∀ tag, (s.unbindDevIds st.mach).1.ids tag =
      (st.mach.ids tag).map (·.freed s.backfill ⟨s.slotId, s.subId⟩) := by
  have hi := h.positive s hs
  have hother : ∀ tag, st.mach.assigned tag (!s.backfill) s.slotId s.subId = [] := fun tag =>
    h.nobody tag _ _ _ hi fun s' hs' hb hi' => absurd (h.kind s' hs' s hs hi') (by simp [hb])
  obtain ⟨hlocal, hempty, hfreed⟩ :=
    Slot.unbindDevIds_spec hi hd h.noStray (h.holds s hs) (h.covered s hs) hother
  refine ⟨⟨hlocal.noStray h.noStray, ?_, ?_, ?_, ?_, ?_, ?_⟩, hfreed⟩
  · exact fun s1 hs1 => h.positive s1 (mem_of_mem_filter hs1)
  · exact fun s1 hs1 s2 hs2 => h.unique s1 (mem_of_mem_filter hs1) s2 (mem_of_mem_filter hs2)
  · exact fun s1 hs1 s2 hs2 => h.kind s1 (mem_of_mem_filter hs1) s2 (mem_of_mem_filter hs2)
  · exact fun s1 hs1 => h.covered s1 (mem_of_mem_filter hs1)
  · intro s1 hs1 tag
    obtain ⟨hs1, hne⟩ := mem_filter.mp hs1
    have hne' := of_decide_eq_true hne
    rw [hlocal.same tag _ _ _ (h.positive s1 hs1) fun _ hi hd => hne' ⟨hi, hd⟩]
    exact h.holds s1 hs1 tag
  · intro tag b i d hi' hno
    by_cases hkey : b = s.backfill ∧ i = s.slotId ∧ d = s.subId
    · obtain ⟨rfl, rfl, rfl⟩ := hkey
      exact hempty tag
    · rw [hlocal.same tag b i d hi' fun hb hi hd => hkey ⟨hb, hi, hd⟩]
      refine h.nobody tag b i d hi' fun s1 hs1 hb1 hi1 hd1 => ?_
      refine hno s1 (mem_filter.mpr ⟨hs1, decide_eq_true fun h' => ?_⟩) hb1 hi1 hd1
      rw [h.unique s1 hs1 s hs h'.1 h'.2] at hb1 hi1 hd1
      exact hkey ⟨hb1.symm, hi1.symm, hd1.symm⟩

theorem refreshDevIds_eq (hM : M.NoStray) :
    (M.refreshDevIds tag i d).1 = M.assigned tag false i d := by
  unfold refreshDevIds
  split
  · rfl
  · next h => rw [assigned, hM tag h]; rfl

/-- No backfill slot has devices. -/
def Machine.NoBackfill (st : Machine T Q) : Prop :=
  ∀ s ∈ st.slots, s.backfill = true → ∀ tag, (s.devIds tag).getD [] = []

/-- The lists of a slot after the configuration has been read again: those of a primary slot are as
before, up to their order, and those of a backfill slot are empty. -/
theorem Agrees.reconfigDevIds (h : Agrees st) (hs : s ∈ st.slots) {offline : T → List Text}
    (tag : T) :
    (((s.reconfigDevIds { st.mach with offline := offline }).devIds tag).getD []).Perm
      (if s.backfill then [] else (s.devIds tag).getD []) := by
  have hrefresh : (refreshDevIds { st.mach with offline := offline } tag s.slotId s.subId).1 =
      st.mach.assigned tag false s.slotId s.subId :=
    refreshDevIds_eq h.noStray
  have hassigned : (st.mach.assigned tag false s.slotId s.subId).Perm
      (if s.backfill then [] else (s.devIds tag).getD []) := by
    cases hb : s.backfill with
    | true =>
      rw [h.nobody tag false _ _ (h.positive s hs) fun s' hs' hb' hi => ?_]
      · rfl
      · rw [h.kind s' hs' s hs hi, hb] at hb'
        cases hb'
    | false =>
      have := (h.holds s hs tag).symm
      rwa [hb] at this
  unfold Slot.reconfigDevIds
  dsimp only
  cases hdev : s.devIds tag with
  | none =>
    simp
  | some ids =>
    rw [if_pos (h.covered s hs tag (by simp [hdev])), map_some, hrefresh, ← hdev]
    exact hassigned

/-- Reading the configuration again keeps the lists in agreement exactly if no backfill slot has
devices. -/
theorem Agrees.reconfig_iff (h : Agrees st) (param : T → List Text) :
    (∀ st', st.step devIdMatches (.reconfig param) = some st' → Agrees st') ↔ st.NoBackfill := by
  set M := st.mach.reconfigOfflineDevIds param
  have hlists : ∀ s ∈ st.slots, ∀ tag, (((s.reconfigDevIds M).devIds tag).getD []).Perm
      (if s.backfill then [] else (s.devIds tag).getD []) := fun s hs tag => h.reconfigDevIds hs tag
  constructor
  · intro h' s hs hb tag
    have hholds := (h' _ rfl).holds _ (List.mem_map_of_mem hs) tag
    have hempty := hlists s hs tag
    rw [hb] at hempty
    have hassigned : (st.mach.assigned tag s.backfill s.slotId s.subId).Perm [] :=
      hholds.symm.trans hempty
    exact ((h.holds s hs tag).trans hassigned).eq_nil
  · rintro hno st' ⟨⟩
    refine ⟨h.noStray, ?_, ?_, ?_, ?_, ?_, ?_⟩
    all_goals simp only [List.forall_mem_map]
    · exact h.positive
    · intro s1 hs1 s2 hs2 hi hd
      rw [h.unique s1 hs1 s2 hs2 hi hd]
    · exact h.kind
    · intro s hs tag htag
      have htag' : s.devIds tag ≠ none := by
        intro hnone
        simp [Slot.reconfigDevIds, hnone] at htag
      have := h.covered s hs tag htag'
      simpa [Slot.reconfigDevIds] using this
    · intro s hs tag
      refine (hlists s hs tag).trans ?_
      have hholds := h.holds s hs tag
      cases hb : s.backfill with
      | false => exact hholds
      | true =>
        rw [hno s hs hb tag] at hholds
        exact hholds
    · exact h.nobody

/-! ## Runs -/

/-- The slots at start-up have ids of their own, and no devices. -/
structure StartSlots (slots : List (Slot T Q)) : Prop where
  distinct : (slots.map Slot.slotId).Nodup
  positive : ∀ s ∈ slots, s.slotId ≠ 0
  static : ∀ s ∈ slots, s.subId = 0
  devIds : ∀ s ∈ slots, ∀ tag, s.devIds tag = none

theorem agrees_bindAll {slots : List (Slot T Q)} (h : Agrees st) (hslots : StartSlots slots)
    (hnew : ∀ s ∈ slots, ∀ s' ∈ st.slots, s'.slotId ≠ s.slotId)
    (hrun : bindAll devIdMatches slots st = some st') :
    Agrees st' := by
  induction slots generalizing st with
  | nil => cases hrun; exact h
  | cons s slots ih =>
    have hs : New st s :=
      ⟨hslots.positive s mem_cons_self, hslots.devIds s mem_cons_self,
        fun s' hs' hi => absurd hi (hnew s mem_cons_self s' hs'),
        fun s' hs' hi => absurd hi (hnew s mem_cons_self s' hs')⟩
    unfold bindAll at hrun
    split at hrun
    · cases hrun
    · next M' s' hbind =>
      obtain ⟨hagrees, hlike⟩ := h.bind hs hbind
      obtain ⟨hhead, htail⟩ := nodup_cons.mp hslots.distinct
      have hslots' : StartSlots slots :=
        ⟨htail, fun s1 hs1 => hslots.positive s1 (mem_cons_of_mem _ hs1),
          fun s1 hs1 => hslots.static s1 (mem_cons_of_mem _ hs1),
          fun s1 hs1 => hslots.devIds s1 (mem_cons_of_mem _ hs1)⟩
      refine ih hagrees hslots' ?_ hrun
      rintro s1 hs1 s2 (_ | ⟨_, hs2⟩)
      · rw [hlike.slotId]
        exact fun h => hhead (by rw [h]; exact mem_map_of_mem hs1)
      · exact hnew s1 (mem_cons_of_mem _ hs1) s2 hs2

theorem Agrees.addSlot (h : Agrees st) (hs : New st s) (hd : 0 < s.subId) :
    Agrees (st.addSlot devIdMatches s) := by
  unfold Machine.addSlot
  split
  · next hbind => exact (h.bind hs hbind).1
  · next M' s' hbind =>
    obtain ⟨hagrees, hlike⟩ := h.bind hs hbind
    have hremoved := (hagrees.remove mem_cons_self (by rw [hlike.subId]; exact hd)).1
    have hrest : (s' :: st.slots).filter
        (fun s1 => decide (¬(s1.slotId = s'.slotId ∧ s1.subId = s'.subId))) = st.slots := by
      rw [filter_cons_of_neg (by simp), filter_eq_self]
      intro s1 hs1
      rw [hlike.slotId, hlike.subId]
      exact decide_eq_true fun h' => hs.free s1 hs1 h'.1 h'.2
    rwa [hrest] at hremoved

/-- The configuration is read again only while no backfill slot has devices. -/
def Calm (st : Machine T Q) : Op T Q → Prop
  | .reconfig _ => st.NoBackfill
  | _ => True

/-- One step, of a kind, keeps the lists in agreement. -/
theorem Agrees.step (h : Agrees st) {op : Op T Q} (hop : Calm st op)
    (hstep : st.step devIdMatches op = some st') :
    Agrees st' := by
  cases op with
  | create slotId subId slotres constraint =>
    obtain ⟨parent, hparent, hstep⟩ := bind_eq_some_iff.mp hstep
    obtain ⟨hmem, hi, -⟩ := slot?_eq_some hparent
    split at hstep
    · next hfree =>
      cases hstep
      refine h.addSlot ⟨?_, fun _ => rfl, fun s hs hi' => slot?_eq_none hfree.2 hs hi',
        fun s hs hi' => ?_⟩ hfree.1
      · rw [← hi]
        exact h.positive parent hmem
      · exact h.kind s hs parent hmem (hi'.trans hi.symm)
    · cases hstep
  | delete slotId subId =>
    obtain ⟨s, hs, hstep⟩ := bind_eq_some_iff.mp hstep
    obtain ⟨hmem, rfl, rfl⟩ := slot?_eq_some hs
    split at hstep
    · next hd =>
      cases hstep
      exact (h.remove hmem hd).1
    · cases hstep
  | reconfig param => exact (h.reconfig_iff param).mpr hop st' hstep

def Steps (devIdMatches : T → ℕ → Q → Bool) : Machine T Q → Machine T Q → Prop :=
  Relation.ReflTransGen fun st st' => ∃ op, Calm st op ∧ st.step devIdMatches op = some st'

theorem agrees_of_steps (h : Agrees st) (hrun : Steps devIdMatches st st') : Agrees st' := by
  induction hrun with
  | refl => exact h
  | tail _ hstep ih =>
    obtain ⟨op, hop, hstep⟩ := hstep
    exact ih.step hop hstep

theorem Steps.step (hrun : Steps devIdMatches st st') {st'' : Machine T Q} (op : Op T Q)
    (hop : Calm st' op) (hstep : st'.step devIdMatches op = some st'') :
    Steps devIdMatches st st'' :=
  .tail hrun ⟨op, hop, hstep⟩

/-- **In a run in which the configuration is read again only while no backfill slot has devices, the
lists of the slots are those of the table, and a deleted dynamic slot gives its devices back.** -/
theorem assigned_perm_of_run {slots : List (Slot T Q)} (hM : M.Fresh) (hslots : StartSlots slots)
    (hstart : startUp devIdMatches M slots = some st) (hrun : Steps devIdMatches st st') :
    (∀ s ∈ st'.slots, ∀ tag, ((s.devIds tag).getD []).Perm
      (st'.mach.assigned tag s.backfill s.slotId s.subId)) ∧
    ∀ s ∈ st'.slots, ∀ st'', st'.step devIdMatches (.delete s.slotId s.subId) = some st'' →
      ∀ tag, st''.mach.ids tag =
      (st'.mach.ids tag).map (·.freed s.backfill ⟨s.slotId, s.subId⟩) := by
  have h : Agrees st' :=
    agrees_of_steps (agrees_bindAll (agrees_of_fresh hM) hslots nofun hstart) hrun
  refine ⟨h.holds, fun s hs st'' hstep tag => ?_⟩
  obtain ⟨s', hs', hstep⟩ := bind_eq_some_iff.mp hstep
  obtain ⟨hmem, hi, hd⟩ := slot?_eq_some hs'
  cases h.unique s' hmem s hs hi hd
  split at hstep
  · next hd =>
    cases hstep
    exact (h.remove hs hd).2 tag
  · cases hstep

def someDevices (ids : List Text) : MachAttributes Unit where
  tags := [()]
  ids _ := ids.map fun id => ⟨id, ⟨0, 0⟩, ⟨0, 0⟩⟩
  offline _ := []

def oneSlot (backfill : Bool) (assigned : ℤ) : Slot Unit Unit :=
  ⟨1, 0, backfill, [((), assigned)], fun _ => none, fun _ => none⟩

theorem fresh_someDevices (ids : List Text) : (someDevices ids).Fresh := by
  refine ⟨fun tag h => absurd (mem_singleton.mpr rfl) h, fun _ e he => ?_⟩
  obtain ⟨id, -, rfl⟩ := List.mem_map.mp he
  exact ⟨rfl, rfl⟩

theorem noBackfill_of_all {st : Machine Unit Unit}
    (h : st.slots.all (fun s => !s.backfill) = true) : st.NoBackfill := by
  intro s hs hb
  simpa [hb] using all_eq_true.mp h s hs

def anyDevice (_ : Unit) (_ : ℕ) (_ : Unit) : Bool := true

/-- A slot with two devices. -/
def started : Option (Machine Unit Unit) :=
  startUp anyDevice (someDevices ["GPU-0".toList, "GPU-1".toList]) [oneSlot false 2]

/-- A dynamic slot gets one of the devices, which is taken offline; then the slot is deleted, and
another one gets the other device. -/
theorem assigned_perm_of_run_twoDevices : ∃ st st₁ st₂ st₃ st₄, started = some st ∧
    st.step anyDevice (.create 1 1 [((), 1)] fun _ => none) = some st₁ ∧
    st₁.step anyDevice (.reconfig fun _ => ["GPU-0".toList]) = some st₂ ∧
    st₂.step anyDevice (.delete 1 1) = some st₃ ∧
    st₃.step anyDevice (.create 1 2 [((), 1)] fun _ => none) = some st₄ ∧
    st₄.slots.map (fun s => (s.devIds ()).getD []) =
      [["GPU-1".toList], ["GPU-0".toList, "GPU-1".toList]] ∧
    (∀ s ∈ st₄.slots, ∀ tag, ((s.devIds tag).getD []).Perm
      (st₄.mach.assigned tag s.backfill s.slotId s.subId)) ∧
    ∀ tag, st₃.mach.ids tag = (st₂.mach.ids tag).map (·.freed false ⟨1, 1⟩) := by
  have hslots : StartSlots [oneSlot false 2] := by constructor <;> simp [oneSlot]
  have hstart : started = some (started.get rfl) := rfl
  have hrun₁ : Steps anyDevice (started.get rfl) _ :=
    .step .refl (.create 1 1 [((), 1)] fun _ => none) trivial rfl
  have hrun₂ := hrun₁.step (.reconfig fun _ => ["GPU-0".toList]) (noBackfill_of_all rfl) rfl
  have hrun₄ := (hrun₂.step (.delete 1 1) trivial rfl).step
    (.create 1 2 [((), 1)] fun _ => none) trivial rfl
  exact ⟨_, _, _, _, _, hstart, rfl, rfl, rfl, rfl, rfl,
    (assigned_perm_of_run (fresh_someDevices _) hslots hstart hrun₄).1,
    (assigned_perm_of_run (fresh_someDevices _) hslots hstart hrun₂).2 _ mem_cons_self _ rfl⟩

/-- After the configuration has been read again, a dynamic backfill slot that is deleted does not
give its devices back. -/
theorem assigned_of_backfill_lost :
    ∃ st, startUp anyDevice (someDevices ["GPU-0".toList]) [oneSlot true 1] = some st ∧
      (∃ st', st.step anyDevice (.reconfig fun _ => []) = some st' ∧
        st'.slots.map (fun s => (s.devIds ()).getD []) = [[]] ∧
        st'.mach.assigned () true 1 0 = ["GPU-0".toList]) ∧
      ∃ st₁ st₂ st₃, st.step anyDevice (.create 1 1 [((), 1)] fun _ => none) = some st₁ ∧
        st₁.step anyDevice (.reconfig fun _ => []) = some st₂ ∧
        st₂.step anyDevice (.delete 1 1) = some st₃ ∧
        (st₃.mach.ids ()).map (·.bkowner) = [⟨1, 1⟩] :=
  ⟨_, rfl, ⟨_, rfl, rfl, rfl⟩, _, _, _, rfl, rfl, rfl, rfl⟩

end Condor.Startd
