import Condor.DataReuse.Accounting
import Condor.Lib.AtMostOne

/-!
# Reading back the log

A process reads the events that it has written itself like those of the others. Where an operation
changes the state of its process only through the log (`Echoed`), every process that reads the log
reaches the state of a fresh one that reads it from its start, whatever it had read before.

* **`updateState_eq_replay`**.
-/

namespace Condor.DataReuse

open List Function

/-! ## The order of the files -/

/-- The same state up to the order of the files. -/
structure Same (d d' : Directory) : Prop where
  reservedSpace : d'.reservedSpace = d.reservedSpace
  storedSpace : d'.storedSpace = d.storedSpace
  allocatedSpace : d'.allocatedSpace = d.allocatedSpace
  spaceReservations : d'.spaceReservations = d.spaceReservations
  contents : d'.contents.Perm d.contents
  spaceUtilization : d'.spaceUtilization = d.spaceUtilization
  position : d'.position = d.position

def Distinct (d : Directory) : Prop :=
  ∀ checksum checksumType tag, AtMostOne (fun e => e.is checksum checksumType tag) d.contents

variable {C : Config} {w : World} {d d' d1 : Directory} {log : List Event}

theorem Same.refl (d : Directory) : Same d d := ⟨rfl, rfl, rfl, rfl, .refl _, rfl, rfl⟩

theorem Same.trans {d'' : Directory} (h : Same d d') (h' : Same d' d'') : Same d d'' where
  reservedSpace := h'.reservedSpace.trans h.reservedSpace
  storedSpace := h'.storedSpace.trans h.storedSpace
  allocatedSpace := h'.allocatedSpace.trans h.allocatedSpace
  spaceReservations := h'.spaceReservations.trans h.spaceReservations
  contents := h'.contents.trans h.contents
  spaceUtilization := h'.spaceUtilization.trans h.spaceUtilization
  position := h'.position.trans h.position

theorem Same.symm (h : Same d d') : Same d' d where
  reservedSpace := h.reservedSpace.symm
  storedSpace := h.storedSpace.symm
  allocatedSpace := h.allocatedSpace.symm
  spaceReservations := h.spaceReservations.symm
  contents := h.contents.symm
  spaceUtilization := h.spaceUtilization.symm
  position := h.position.symm

theorem Same.eq (h : Same d d') : d' = { d with contents := d'.contents } := by
  obtain ⟨h1, h2, h3, h4, -, h6, h7⟩ := h
  cases d'
  cases h1; cases h2; cases h3; cases h4; cases h6; cases h7
  rfl

theorem Same.any {p : FileEntry → Bool} (h : Same d d') : d'.contents.any p = d.contents.any p :=
  h.contents.any_eq

theorem is_touch (b : Bool) (clock : ℕ) (e : FileEntry) (checksum checksumType tag : Text) :
    (if b then { e with lastUse := max e.lastUse clock } else e).is checksum checksumType tag =
      e.is checksum checksumType tag := by
  split <;> rfl

theorem distinct_handleEvent {e : Event} (hd : Distinct d) (hrun : handleEvent d e = .ok d1) :
    Distinct d1 := by
  cases e with
  | reserveSpace expiry reserved uuid tag =>
    simp only [handleEvent] at hrun
    (repeat' split at hrun) <;> cases hrun <;> exact hd
  | releaseSpace uuid =>
    simp only [handleEvent] at hrun
    split at hrun <;> cases hrun
    exact hd
  | fileComplete clock size checksum checksumType uuid =>
    simp only [handleEvent, handleComplete] at hrun
    (repeat' split at hrun) <;> cases hrun
    · exact hd
    · rename_i hnew
      intro checksum' checksumType' tag'
      refine pairwise_append.mpr ⟨hd _ _ _, pairwise_singleton _ _, fun a ha b hb => ?_⟩
      cases mem_singleton.mp hb
      intro his
      have hno : ¬ a.is checksum checksumType _ = true := fun h =>
        hnew (any_eq_true.mpr ⟨a, ha, h⟩)
      by_contra hb
      simp only [FileEntry.is, Bool.not_eq_false, Bool.and_eq_true, beq_iff_eq] at his hb hno
      refine hno ⟨⟨?_, ?_⟩, ?_⟩
      · rw [his.1.1, hb.1.1]
      · rw [his.1.2, hb.1.2]
      · rw [his.2, hb.2]
  | fileUsed clock checksum checksumType tag =>
    simp only [handleEvent] at hrun
    split at hrun
    · cases hrun
    · cases hrun
      intro checksum' checksumType' tag'
      rw [(hd checksum checksumType tag).replaceF fun e =>
        { e with lastUse := max e.lastUse clock }]
      refine pairwise_map.mpr ((hd checksum' checksumType' tag').imp fun {a b} h => ?_)
      dsimp only
      rw [is_touch, is_touch]
      exact h
  | fileRemoved size checksum checksumType tag =>
    simp only [handleEvent] at hrun
    split at hrun
    · cases hrun
      exact fun _ _ _ => (hd _ _ _).sublist eraseP_sublist
    · cases hrun

/-- **The same event leads to the same state.** -/
theorem Same.handleEvent {e : Event} (h : Same d d') (hd : Distinct d)
    (hrun : handleEvent d e = .ok d1) : ∃ d1', handleEvent d' e = .ok d1' ∧ Same d1 d1' := by
  have hperm := h.contents
  rw [h.eq]
  cases e with
  | reserveSpace expiry reserved uuid tag =>
    simp only [DataReuse.handleEvent] at hrun ⊢
    (repeat' split at hrun) <;> cases hrun
    · exact ⟨_, rfl, rfl, rfl, rfl, rfl, hperm, rfl, rfl⟩
    · rename_i htag
      rw [if_neg htag]
      exact ⟨_, rfl, rfl, rfl, rfl, rfl, hperm, rfl, rfl⟩
  | releaseSpace uuid =>
    simp only [DataReuse.handleEvent] at hrun ⊢
    split at hrun <;> cases hrun
    exact ⟨_, rfl, rfl, rfl, rfl, rfl, hperm, rfl, rfl⟩
  | fileComplete clock size checksum checksumType uuid =>
    simp only [DataReuse.handleEvent, handleComplete] at hrun ⊢
    split at hrun
    · cases hrun
    · split at hrun
      · cases hrun
      · split at hrun
        · cases hrun
        · rename_i h1 h2
          rw [if_neg h1, if_neg h2]
          rw [hperm.any_eq]
          split at hrun
          · rename_i hany
            cases hrun
            rw [if_pos hany]
            exact ⟨_, rfl, rfl, rfl, rfl, rfl, hperm, rfl, rfl⟩
          · rename_i hany
            cases hrun
            rw [if_neg hany]
            exact ⟨_, rfl, rfl, rfl, rfl, rfl, hperm.append_right _, rfl, rfl⟩
  | fileUsed clock checksum checksumType tag =>
    have hone := hd checksum checksumType tag
    simp only [DataReuse.handleEvent] at hrun ⊢
    rw [← hone.find?_perm hperm.symm]
    split at hrun
    · cases hrun
    · cases hrun
      refine ⟨_, rfl, rfl, rfl, rfl, rfl, ?_, rfl, rfl⟩
      rw [hone.replaceF fun e => { e with lastUse := max e.lastUse clock },
        (hone.perm hperm.symm).replaceF fun e => { e with lastUse := max e.lastUse clock }]
      exact hperm.map _
  | fileRemoved size checksum checksumType tag =>
    have hone := hd checksum checksumType tag
    simp only [DataReuse.handleEvent] at hrun ⊢
    rw [hperm.any_eq]
    split at hrun
    · rename_i hany
      cases hrun
      rw [if_pos hany]
      refine ⟨_, rfl, rfl, rfl, rfl, rfl, ?_, rfl, rfl⟩
      rw [hone.eraseP, (hone.perm hperm.symm).eraseP]
      exact hperm.filter _
    · cases hrun

/-- **Reading the same events leads to the same state.** -/
theorem Same.readEvents {es : List Event} (h : Same d d') (hd : Distinct d)
    (hrun : readEvents C d es = (.ok (), d1)) :
    Distinct d1 ∧ ∃ d1', readEvents C d' es = (.ok (), d1') ∧ Same d1 d1' := by
  induction es generalizing d d' with
  | nil =>
    cases hrun
    exact ⟨hd, d', rfl, h⟩
  | cons e es ih =>
    simp only [DataReuse.readEvents] at hrun ⊢
    split at hrun
    · cases hrun
    · split at hrun
      · cases hrun
      · rename_i d2 he
        have hmoved : Same { d with position := d.position + 1 }
            { d' with position := d'.position + 1 } :=
          { h with position := congrArg (· + 1) h.position }
        obtain ⟨d2', he', h2⟩ := hmoved.handleEvent hd he
        rw [he']
        exact ih h2 (distinct_handleEvent (d := { d with position := d.position + 1 }) hd he) hrun

theorem readEvents_append {es es' : List Event} (h : readEvents C d es = (.ok (), d')) :
    readEvents C d (es ++ es') = readEvents C d' es' := by
  induction es generalizing d with
  | nil => cases h; rfl
  | cons e es ih =>
    simp only [cons_append, readEvents] at h ⊢
    split at h
    · cases h
    · split at h
      · cases h
      · exact ih h

/-! ## Following the log -/

variable {allocated : UInt64} {D : Directory} {now : ℕ}

/-- The process is in the state that a fresh one has after as many events. -/
structure Follows (C : Config) (allocated : UInt64) (d : Directory) (log : List Event) : Prop where
  position : d.position ≤ log.length
  replay : ∃ D, readEvents C (.new allocated) (log.take d.position) = (.ok (), D) ∧ Same D d

theorem Follows.append (h : Follows C allocated d log) (es : List Event) :
    Follows C allocated d (log ++ es) := by
  refine ⟨?_, ?_⟩
  · rw [length_append]
    exact h.position.trans (Nat.le_add_right _ _)
  · rw [take_append_of_le_length h.position]
    exact h.replay

theorem position_readEvents {es : List Event} (h : readEvents C d es = (.ok (), d')) :
    d'.position = d.position + es.length := by
  induction es generalizing d with
  | nil => cases h; rfl
  | cons e es ih =>
    simp only [readEvents] at h
    split at h
    · cases h
    · split at h
      · cases h
      · rename_i d1 he
        rw [ih h, position_handleEvent he, length_cons]
        dsimp only
        omega

theorem follows_of_same (hD : readEvents C (.new allocated) log = (.ok (), D)) (h : Same D d) :
    Follows C allocated d log := by
  have hpos : d.position = log.length := by
    rw [h.position, position_readEvents hD]
    exact Nat.zero_add _
  refine ⟨hpos.le, D, ?_, h⟩
  rw [hpos, take_length]
  exact hD

theorem Follows.same_found (hC : C.format = .xml) (h : Follows C allocated d log)
    (hD : readEvents C (.new allocated) log = (.ok (), D)) :
    readEvents C d (log.drop d.position) = (.ok (), found C d log) ∧ Same D (found C d log) := by
  obtain ⟨D0, hD0, hsame⟩ := h.replay
  have hrest : readEvents C D0 (log.drop d.position) = (.ok (), D) := by
    rw [← readEvents_append hD0, take_append_drop]
    exact hD
  have hnew : Distinct (.new allocated) := fun _ _ _ => Pairwise.nil
  have hdist : Distinct D0 := ((Same.refl _).readEvents hnew hD0).1
  obtain ⟨-, d1, hrun, h1⟩ := hsame.readEvents hdist hrest
  have hfound : found C d log = d1 := by rw [found, visible_of_xml hC, hrun]
  rw [hfound]
  exact ⟨hrun, h1⟩

def Alive (now : ℕ) (d : Directory) : Prop :=
  ∀ uuid r, d.spaceReservations.lookup uuid = some r → now ≤ r.expiryTime

theorem Alive.unexpired_eq (h : Alive now d) :
    unexpired now d.spaceReservations = d.spaceReservations := by
  refine AList.ext_iff.mpr (filter_eq_self.mpr fun e he => ?_)
  have hlook : d.spaceReservations.lookup e.1 = some e.2 :=
    (mem_dlookup_iff d.spaceReservations.nodupKeys).mpr he
  simpa using h e.1 e.2 hlook

theorem Follows.updates (hC : C.format = .xml) (h : Follows C allocated d log)
    (hD : readEvents C (.new allocated) log = (.ok (), D)) (halive : Alive now (found C d log)) :
    ∃ d', updateState C now log d = (.ok (), d') ∧ Same D d' ∧ Same (found C d log) d' := by
  obtain ⟨hrun, hsame⟩ := h.same_found hC hD
  unfold updateState
  split
  · rename_i hnil
    subst hnil
    have hfound : found C d [] = d := by simp [found, readEvents]
    rw [hfound] at hsame ⊢
    exact ⟨d, rfl, hsame, .refl d⟩
  · rw [visible_of_xml hC, hrun]
    have hsorted : Same (found C d log) { found C d log with
        spaceReservations := unexpired now (found C d log).spaceReservations
        contents := C.sort (found C d log).contents } :=
      ⟨rfl, rfl, rfl, halive.unexpired_eq, C.sort_perm _, rfl, rfl⟩
    exact ⟨_, rfl, hsame.trans hsorted, hsorted⟩

/-! ## Events that are accepted -/

def Directory.expiration (d : Directory) (uuid : Text) : Option ℕ :=
  (d.spaceReservations.lookup uuid).map SpaceReservationInfo.expiryTime

theorem accepts_reserveSpace {expiry : ℕ} {reserved : UInt64} {uuid tag : Text}
    (h : d.spaceReservations.lookup uuid = none) :
    ∃ d', handleEvent d (.reserveSpace expiry reserved uuid tag) = .ok d' ∧
      d'.expiration = update d.expiration uuid (some expiry) := by
  simp only [handleEvent, h]
  refine ⟨_, rfl, ?_⟩
  funext u
  by_cases hu : u = uuid
  · subst hu
    simp [Directory.expiration]
  · simp [Directory.expiration, AList.lookup_insert_ne hu, update_of_ne hu]

theorem accepts_fileComplete {r : SpaceReservationInfo} {clock : ℕ} {size : UInt64}
    {checksum checksumType uuid : Text} (h : d.spaceReservations.lookup uuid = some r)
    (hsize : ¬ r.reserved < size) (hclock : fromTimeT clock ≤ r.expiryTime) :
    ∃ d', handleEvent d (.fileComplete clock size checksum checksumType uuid) = .ok d' ∧
      d'.expiration = d.expiration := by
  have hexp : ∀ u, ((d.spaceReservations.insert uuid
      { r with reserved := r.reserved - size }).lookup u).map SpaceReservationInfo.expiryTime =
        d.expiration u := by
    intro u
    by_cases hu : u = uuid
    · subst hu
      simp [Directory.expiration, h]
    · simp [Directory.expiration, AList.lookup_insert_ne hu]
  simp only [handleEvent, h, handleComplete, if_neg hsize, if_neg (Nat.not_lt.mpr hclock)]
  split <;> exact ⟨_, rfl, funext hexp⟩

theorem accepts_fileUsed {clock : ℕ} {checksum checksumType tag : Text}
    (h : (d.contents.any fun e => e.is checksum checksumType tag) = true) :
    ∃ d', handleEvent d (.fileUsed clock checksum checksumType tag) = .ok d' ∧
      d'.expiration = d.expiration := by
  have hsome : (d.contents.find? fun e => e.is checksum checksumType tag).isSome := by
    simpa using h
  obtain ⟨entry, hentry⟩ := Option.isSome_iff_exists.mp hsome
  simp only [handleEvent, hentry]
  exact ⟨_, rfl, rfl⟩

/-! ## The operations -/

/-- **The condition on a step**: no lease has expired, none is renewed or released, a new one has
its own identifier and expires at a whole second, no file is evicted, and a file is complete before
its lease expires. -/
def Echoed (C : Config) (w : World) (d : Directory) (log : List Event) : Op → Prop
  | .reserveSpace size _ _ uuid =>
    Alive w.now (found C d log) ∧ (found C d log).spaceReservations.lookup uuid = none ∧
      10 ^ 9 ∣ w.later ∧
      (¬ (found C d log).allocatedSpace < (found C d log).reservedSpace + size ∨
        (found C d log).contents = [])
  | .clearSpace size => d.reservedSpace + size ≤ d.allocatedSpace ∨ d.contents = []
  | .renew _ tag uuid => Alive w.now (found C d log) ∧
      ∀ r, (found C d log).spaceReservations.lookup uuid = some r → r.tag ≠ tag
  | .releaseSpace uuid => Alive w.now (found C d log) ∧
      (found C d log).spaceReservations.lookup uuid = none
  | .cacheFile _ _ _ _ _ uuid => Alive w.now (found C d log) ∧
      ∀ r, (found C d log).spaceReservations.lookup uuid = some r →
        fromTimeT (toTimeT w.later) ≤ r.expiryTime
  | .retrieveFile _ _ _ _ | .updateState => Alive w.now (found C d log)

/-- The expirations so far: `ReserveSpace` and `Renew` set one, and `ReleaseSpace` ends a lease. -/
def setExpiration (m : Text → Option ℕ) (w : World) : Op → Answer → Text → Option ℕ
  | .reserveSpace _ time _ uuid, .ok () | .renew time _ uuid, .ok () =>
    update m uuid (some (w.later + time.toNat * 10 ^ 9))
  | .releaseSpace uuid, .ok () => update m uuid none
  | _, _ => m

/-- A fresh process accepts the log, which has only grown, and finds the expirations that were set;
the process of the operation follows the log. -/
structure Replayed (C : Config) (allocated : UInt64) (log : List Event)
    (m : Answer → Text → Option ℕ) (r : Answer × Directory × List Event) : Prop where
  grown : ∃ es, r.2.2 = log ++ es
  follows : Follows C allocated r.2.1 r.2.2
  replay : ∃ D, readEvents C (.new allocated) r.2.2 = (.ok (), D) ∧ D.expiration = m r.1

variable {m : Answer → Text → Option ℕ}

section

variable (hD : readEvents C (.new allocated) log = (.ok (), D))
include hD

theorem Replayed.same {a : Answer} (hm : D.expiration = m a) (h : Follows C allocated d log) :
    Replayed C allocated log m (a, d, log) :=
  ⟨⟨[], (append_nil log).symm⟩, h, D, hD, hm⟩

theorem Replayed.writeEvent {e e' : Event} {err : Error} (hm : D.expiration = m (.error [err]))
    (h : Follows C allocated d log) (hread : readBack C.format e = some e')
    (haccept : ∃ D1, handleEvent { D with position := D.position + 1 } e' = .ok D1 ∧
      D1.expiration = m (.ok ())) :
    Replayed C allocated log m (writeEvent w e err d log) := by
  obtain ⟨D1, hrun, hm1⟩ := haccept
  unfold DataReuse.writeEvent
  split
  · refine ⟨⟨[e], rfl⟩, h.append [e], D1, ?_, hm1⟩
    rw [readEvents_append hD]
    simp [readEvents, hread, hrun]
  · exact .same hD hm h

theorem Replayed.afterUpdate {next : Directory → Answer × Directory × List Event}
    (hC : C.format = .xml) (h : Follows C allocated d log)
    (halive : Alive w.now (found C d log))
    (hnext : ∀ d', Same D d' → Same (found C d log) d' → Follows C allocated d' log →
      Replayed C allocated log m (next d')) :
    Replayed C allocated log m (afterUpdate C w d log next) := by
  obtain ⟨d', hrun, hsame, hfound⟩ := h.updates hC hD halive
  unfold DataReuse.afterUpdate
  rw [hrun]
  exact hnext d' hsame hfound (follows_of_same hD hsame)

end

theorem fromTimeT_toTimeT {t : ℕ} (h : 10 ^ 9 ∣ t) : fromTimeT (toTimeT t) = t :=
  Nat.div_mul_cancel h

variable {e : Text → Option ℕ}

/-- **A step that is echoed** leaves a log that every process accepts. -/
theorem replayed_perform {op : Op} (hC : C.format = .xml)
    (hD : readEvents C (.new allocated) log = (.ok (), D)) (he : D.expiration = e)
    (h : Follows C allocated d log) (hop : Echoed C w d log op) :
    Replayed C allocated log (setExpiration e w op) (perform C w d log op) := by
  cases op with
  | reserveSpace size time tag uuid =>
    obtain ⟨halive, hfresh, hsecond, hroom⟩ := hop
    refine .afterUpdate hD hC h halive fun d' hsame hfound hfollows => ?_
    have hnone : D.spaceReservations.lookup uuid = none := by
      rw [← hsame.spaceReservations, hfound.spaceReservations, hfresh]
    dsimp only
    split
    · rename_i hfull
      have hempty : d'.contents = [] := by
        rw [hfound.allocatedSpace, hfound.reservedSpace] at hfull
        have hperm := hfound.contents
        rw [hroom.resolve_left (not_not_intro hfull)] at hperm
        exact hperm.eq_nil
      rw [clearSpace_full hfull hempty]
      exact .same hD he hfollows
    · refine .writeEvent hD he hfollows (by rw [hC]; rfl) ?_
      have hsec : 10 ^ 9 ∣ w.later + time.toNat * 10 ^ 9 :=
        Nat.dvd_add hsecond (Nat.dvd_mul_left _ _)
      rw [fromTimeT_toTimeT hsec, ← he]
      exact accepts_reserveSpace hnone
  | clearSpace size =>
    have hidle : (clearSpace w size d log).2 = (d, log) := clearSpace_idle hop
    simp only [perform]
    rw [← Prod.mk.eta (p := clearSpace w size d log), hidle]
    exact .same hD he h
  | renew lifetime tag uuid =>
    obtain ⟨halive, htag⟩ := hop
    refine .afterUpdate hD hC h halive fun d' hsame hfound hfollows => ?_
    split
    · exact .same hD he hfollows
    · rename_i r hr
      rw [hfound.spaceReservations] at hr
      rw [if_pos (htag r hr)]
      exact .same hD he hfollows
  | releaseSpace uuid =>
    obtain ⟨halive, hnone⟩ := hop
    refine .afterUpdate hD hC h halive fun d' hsame hfound hfollows => ?_
    rw [← hfound.spaceReservations] at hnone
    simp only [hnone]
    exact .same hD he hfollows
  | cacheFile source copied renamed checksum checksumType uuid =>
    obtain ⟨halive, hclock⟩ := hop
    simp only [perform, cacheFile]
    split
    · exact .same hD he h
    · split
      · exact .same hD he h
      · rename_i file
        refine .afterUpdate hD hC h halive fun d' hsame hfound hfollows => ?_
        split
        · exact .same hD he hfollows
        · rename_i r hr
          split
          · exact .same hD he hfollows
          · rename_i hsize
            have hr' := hr
            rw [hfound.spaceReservations] at hr'
            rw [hsame.spaceReservations] at hr
            have haccept : ∃ D1, handleEvent { D with position := D.position + 1 }
                (.fileComplete (toTimeT w.later) file.size checksum checksumType uuid) = .ok D1 ∧
                D1.expiration = e := by
              rw [← he]
              exact accepts_fileComplete hr hsize
                (hclock r hr')
            (repeat' split) <;> first
              | exact .same hD he hfollows
              | exact .writeEvent hD he hfollows (by rw [hC]; rfl) haccept
  | retrieveFile copied checksum checksumType tag =>
    simp only [perform, retrieveFile]
    split
    · exact .same hD he h
    · refine .afterUpdate hD hC h hop fun d' hsame hfound hfollows => ?_
      split
      · exact .same hD he hfollows
      · rename_i hany
        rw [Bool.not_eq_true, Bool.not_eq_false', hsame.any] at hany
        have haccept : ∃ D1, handleEvent { D with position := D.position + 1 }
            (.fileUsed (toTimeT w.later) checksum checksumType tag) = .ok D1 ∧
            D1.expiration = e := by
          rw [← he]
          exact accepts_fileUsed hany
        (repeat' split) <;> first
          | exact .same hD he hfollows
          | exact .writeEvent hD he hfollows (by rw [hC]; rfl) haccept
  | updateState => exact .afterUpdate hD hC h hop fun d' _ _ hfollows => .same hD he hfollows

/-! ## The system -/

def EchoedRun (C : Config) : System → List Step → Prop
  | _, [] => True
  | s, t :: ts =>
    Echoed C t.world (s.process t.process) s.log t.op ∧ EchoedRun C (s.step C t).2 ts

def expirations (C : Config) (s : System) (e : Text → Option ℕ) : List Step → Text → Option ℕ
  | [] => e
  | t :: ts => expirations C (s.step C t).2 (setExpiration e t.world t.op (s.step C t).1) ts

/-- Every process follows the log, and a fresh one accepts it. -/
structure Replayable (C : Config) (allocated : UInt64) (s : System) (e : Text → Option ℕ) :
    Prop where
  follows : ∀ p, Follows C allocated (s.process p) s.log
  replay : ∃ D, readEvents C (.new allocated) s.log = (.ok (), D) ∧ D.expiration = e

theorem replayable_new : Replayable C allocated (.new allocated) fun _ => none where
  follows := fun _ => ⟨le_rfl, .new allocated, rfl, .refl _⟩
  replay := ⟨.new allocated, rfl, rfl⟩

section

variable {s : System} (hC : C.format = .xml) (h : Replayable C allocated s e)
include hC h

theorem replayable_step {t : Step} (ht : Echoed C t.world (s.process t.process) s.log t.op) :
    Replayable C allocated (s.step C t).2 (setExpiration e t.world t.op (s.step C t).1) := by
  obtain ⟨D, hD, he⟩ := h.replay
  obtain ⟨⟨es, hgrown⟩, hfollows, hreplay⟩ := replayed_perform hC hD he (h.follows t.process) ht
  refine ⟨fun p => ?_, hreplay⟩
  by_cases hp : p = t.process
  · subst hp
    simpa [System.step] using hfollows
  · have hother := (h.follows p).append es
    rw [← hgrown] at hother
    simpa [System.step, update_of_ne hp] using hother

theorem replayable_run {ts : List Step} (hts : EchoedRun C s ts) :
    Replayable C allocated (s.run C ts) (expirations C s e ts) := by
  induction ts generalizing s e with
  | nil => exact h
  | cons t ts ih => exact ih (replayable_step hC h hts.1) hts.2

end

/-- **The log can be read back**: after a run of echoed steps, `UpdateState` in any process reaches
the state of a fresh one, with the expirations that were set last. -/
theorem updateState_eq_replay (C : Config) (hC : C.format = .xml) (allocated : UInt64)
    (ts : List Step) (hts : EchoedRun C (.new allocated) ts) (p now : ℕ)
    (hnow : ∀ uuid t, expirations C (.new allocated) (fun _ => none) ts uuid = some t → now ≤ t) :
    ∃ d D, updateState C now ((System.new allocated).run C ts).log
        (((System.new allocated).run C ts).process p) = (.ok (), d) ∧
      updateState C now ((System.new allocated).run C ts).log (.new allocated) = (.ok (), D) ∧
      Same D d ∧ d.expiration = expirations C (.new allocated) (fun _ => none) ts := by
  obtain ⟨hfollows, D, hD, he⟩ := replayable_run hC replayable_new hts
  have halive : ∀ d', Same D d' → Alive now d' := by
    intro d' hsame uuid r hr
    refine hnow uuid r.expiryTime ?_
    rw [← he, Directory.expiration, ← hsame.spaceReservations, hr]
    rfl
  have hfresh : Follows C allocated (.new allocated) ((System.new allocated).run C ts).log :=
    ⟨Nat.zero_le _, .new allocated, rfl, .refl _⟩
  obtain ⟨d, hrun, hd, -⟩ := (hfollows p).updates hC hD (halive _ ((hfollows p).same_found hC hD).2)
  obtain ⟨D', hrun', hD', -⟩ := hfresh.updates hC hD (halive _ (hfresh.same_found hC hD).2)
  refine ⟨d, D', hrun, hrun', hD'.symm.trans hd, ?_⟩
  rw [← he]
  funext uuid
  rw [Directory.expiration, hd.spaceReservations]
  rfl

theorem alive_of_entries (h : ∀ r ∈ d.spaceReservations.entries, now ≤ r.2.expiryTime) :
    Alive now d := by
  intro uuid r hr
  exact h ⟨uuid, r⟩ ((mem_dlookup_iff d.spaceReservations.nodupKeys).mp hr)

/-- One process reserves space, another stores a file in it, and the first one uses it. -/
def echoSteps : List Step :=
  [⟨0, worldAt 1, .reserveSpace 60 100 ['t'] ['u']⟩,
    ⟨1, worldAt 2, .cacheFile (.ok ⟨50, ['c']⟩) (.ok ()) (.ok ()) ['c'] "sha256".toList ['u']⟩,
    ⟨0, worldAt 3, .retrieveFile (.ok ['c']) ['c'] "sha256".toList ['t']⟩]

theorem echoedRun_echoSteps : EchoedRun adConfig (.new 100) echoSteps := by
  refine ⟨⟨alive_of_entries (by decide), rfl, ⟨1, rfl⟩, .inl (by decide)⟩,
    ⟨alive_of_entries (by decide), fun r hr => ?_⟩, alive_of_entries (by decide), trivial⟩
  cases hr
  decide

theorem updateState_eq_replay_echo :
    ∃ d D, updateState adConfig (4 * 10 ^ 9) ((System.new 100).run adConfig echoSteps).log
        (((System.new 100).run adConfig echoSteps).process 1) = (.ok (), d) ∧
      updateState adConfig (4 * 10 ^ 9) ((System.new 100).run adConfig echoSteps).log (.new 100) =
        (.ok (), D) ∧
      Same D d ∧ d.expiration = expirations adConfig (.new 100) (fun _ => none) echoSteps := by
  refine updateState_eq_replay adConfig rfl 100 echoSteps echoedRun_echoSteps 1 (4 * 10 ^ 9) ?_
  intro uuid t ht
  have hexp : expirations adConfig (.new 100) (fun _ => none) echoSteps =
      update (fun _ => none) ['u'] (some (101 * 10 ^ 9)) := rfl
  rw [hexp, update_apply] at ht
  split at ht
  · cases ht
    decide
  · cases ht

/-- A process does not accept its own `ReleaseSpace`. -/
theorem updateState_refuses_release :
    let s := (System.new 100).run adConfig
      [⟨0, worldAt 1, .reserveSpace 60 100 ['t'] ['u']⟩, ⟨0, worldAt 2, .releaseSpace ['u']⟩]
    (((System.new 100).run adConfig [⟨0, worldAt 1, .reserveSpace 60 100 ['t'] ['u']⟩]).step
        adConfig ⟨0, worldAt 2, .releaseSpace ['u']⟩).1 = .ok () ∧
      (updateState adConfig (3 * 10 ^ 9) s.log (s.process 0)).1 = .error [.releaseUnknown ['u']] :=
  ⟨rfl, rfl⟩

end Condor.DataReuse
