import Condor.DataReuse.Model
import Mathlib.Algebra.BigOperators.Group.List.Lemmas

/-!
# The counters of the reuse directory

A process keeps the bytes that are reserved and the bytes that are stored in two counters. The
counters are exact as long as nothing takes the ways on which the code forgets them: a reservation
that still has space expires or is released, a file is evicted, or a counter wraps around.

* **`exact_handleEvent`**;
* **`exact_run`**.
-/

namespace Condor.DataReuse

open List

def reservedBytes (s : AList fun _ : Text => SpaceReservationInfo) : ℕ :=
  tally (fun r => r.reserved.toNat) s

def storedBytes (l : List FileEntry) : ℕ := (l.map fun e => e.size.toNat).sum

/-- **The counters are exact.** -/
structure Exact (d : Directory) : Prop where
  reserved : d.reservedSpace.toNat = reservedBytes d.spaceReservations
  stored : d.storedSpace.toNat = storedBytes d.contents

def Fits (d : Directory) : Event → Prop
  | .reserveSpace _ reserved _ _ => d.reservedSpace.toNat + reserved.toNat < 2 ^ 64
  | .fileComplete _ size _ _ _ => d.storedSpace.toNat + size.toNat < 2 ^ 64
  | .fileRemoved .. => False
  | .releaseSpace _ | .fileUsed .. => True

variable {d d' : Directory} {C : Config} {w : World} {log : List Event} {a b : UInt64}

theorem toNat_add_of_lt (h : a.toNat + b.toNat < 2 ^ 64) : (a + b).toNat = a.toNat + b.toNat := by
  rw [UInt64.toNat_add, Nat.mod_eq_of_lt h]

theorem toNat_sub_of_le' (h : b.toNat ≤ a.toNat) : (a - b).toNat = a.toNat - b.toNat :=
  UInt64.toNat_sub_of_le a b (UInt64.le_iff_toNat_le.mpr h)

theorem storedBytes_perm {l l' : List FileEntry} (h : l.Perm l') : storedBytes l = storedBytes l' :=
  (h.map _).sum_eq

theorem storedBytes_replaceF (f : FileEntry → Option FileEntry)
    (hf : ∀ e e', f e = some e' → e'.size = e.size) (l : List FileEntry) :
    storedBytes (l.replaceF f) = storedBytes l := by
  induction l with
  | nil => rfl
  | cons e l ih =>
    simp only [replaceF_cons]
    cases h : f e with
    | none => simpa [storedBytes] using ih
    | some e' => simp [storedBytes, hf e e' h]

theorem exact_count (tag : Text) (f : SpaceUtilization → SpaceUtilization) :
    Exact (d.count tag f) ↔ Exact d := by
  constructor <;> exact fun h => ⟨h.reserved, h.stored⟩

variable {r : SpaceReservationInfo}

theorem reservedBytes_setExpiry {s : AList fun _ : Text => SpaceReservationInfo} {uuid : Text}
    (hr : s.lookup uuid = some r) (expiry : ℕ) :
    reservedBytes (s.insert uuid { r with expiryTime := expiry }) = reservedBytes s := by
  have hins := tally_insert (fun r => r.reserved.toNat) hr
    { r with expiryTime := expiry }
  dsimp only at hins
  simp only [reservedBytes]
  omega

variable {size : UInt64} {e : Event} {now : ℕ}

theorem exact_handleComplete {clock : ℕ} {checksum checksumType uuid : Text} (hd : Exact d)
    (hr : d.spaceReservations.lookup uuid = some r)
    (hfit : d.storedSpace.toNat + size.toNat < 2 ^ 64)
    (h : handleComplete d r clock size checksum checksumType uuid = .ok d') : Exact d' := by
  unfold handleComplete at h
  split at h
  · cases h
  · rename_i hsize
    have hle : size.toNat ≤ r.reserved.toNat := UInt64.le_iff_toNat_le.mp (UInt64.not_lt.mp hsize)
    have htotal : r.reserved.toNat ≤ d.reservedSpace.toNat :=
      (le_tally _ hr).trans hd.reserved.ge
    have hres : (d.reservedSpace - size).toNat =
        reservedBytes (d.spaceReservations.insert uuid
          { r with reserved := r.reserved - size }) := by
      have hins := tally_insert (fun r => r.reserved.toNat) hr
        { r with reserved := r.reserved - size }
      have hd1 : d.reservedSpace.toNat =
        tally (fun r => r.reserved.toNat) d.spaceReservations := hd.reserved
      simp only [toNat_sub_of_le' hle] at hins
      rw [toNat_sub_of_le' (hle.trans htotal)]
      change _ = tally _ _
      omega
    split at h
    · cases h
    · dsimp only at h
      split at h
      · cases h
        exact ⟨hres, hd.stored⟩
      · cases h
        refine (exact_count _ _).mpr ⟨hres, ?_⟩
        rw [toNat_add_of_lt hfit, hd.stored]
        simp [storedBytes]

theorem position_handleEvent (h : handleEvent d e = .ok d') : d'.position = d.position := by
  cases e <;> simp only [handleEvent, handleComplete] at h <;>
    (repeat' split at h) <;> cases h <;> rfl

/-- **An event that is read keeps the counters exact.** -/
theorem exact_handleEvent (hd : Exact d) (hfit : Fits d e)
    (h : handleEvent d e = .ok d') : Exact d' := by
  cases e with
  | reserveSpace expiry reserved uuid tag =>
    simp only [handleEvent] at h
    split at h
    · rename_i hnone
      cases h
      refine ⟨?_, hd.stored⟩
      change (d.reservedSpace + reserved).toNat = tally _ _
      rw [tally_insert_of_notMem _ (AList.lookup_eq_none.mp hnone), toNat_add_of_lt hfit,
        hd.reserved]
      exact Nat.add_comm _ _
    · rename_i r hr
      split at h
      · cases h
      · cases h
        exact ⟨hd.reserved.trans (reservedBytes_setExpiry hr expiry).symm, hd.stored⟩
  | releaseSpace uuid =>
    simp only [handleEvent] at h
    split at h
    · cases h
    · rename_i r hr
      cases h
      refine ⟨?_, hd.stored⟩
      have herase := tally_erase (fun r => r.reserved.toNat) hr
      have hd1 := hd.reserved
      simp only [reservedBytes] at hd1 ⊢
      rw [toNat_sub_of_le' (by omega)]
      omega
  | fileComplete clock size checksum checksumType uuid =>
    simp only [handleEvent] at h
    split at h
    · cases h
    · rename_i r hr
      exact exact_handleComplete hd hr hfit h
  | fileUsed clock checksum checksumType tag =>
    simp only [handleEvent] at h
    split at h
    · cases h
    · cases h
      refine (exact_count _ _).mpr ⟨hd.reserved, ?_⟩
      rw [storedBytes_replaceF, hd.stored]
      intro e e' he
      split at he
      · cases he; rfl
      · cases he
  | fileRemoved size checksum checksumType tag => exact hfit.elim

/-! ## Bringing the state up to date -/

/-- The process alone writes to its log, and at most its last event has not been read. -/
structure Ready (C : Config) (d : Directory) (log : List Event) : Prop where
  exact : Exact d
  position : d.position ≤ (C.format.visible log).length
  unread : (C.format.visible log).drop d.position = [] ∨
    ∃ e, (C.format.visible log).drop d.position = [e] ∧ Fits d e

/-- The state after the events that have not been read. -/
def found (C : Config) (d : Directory) (log : List Event) : Directory :=
  (readEvents C d ((C.format.visible log).drop d.position)).2

@[simp] theorem visible_nil (f : LogFormat) : f.visible [] = [] := by
  cases f <;> rfl

theorem visible_of_xml (hC : C.format = .xml) (log : List Event) : C.format.visible log = log := by
  rw [hC]
  rfl

/-- A reader may not come to the event that is added. -/
theorem visible_concat (f : LogFormat) (log : List Event) (e : Event) :
    f.visible (log ++ [e]) = f.visible log ∨ f.visible (log ++ [e]) = f.visible log ++ [e] := by
  cases f with
  | text | xml => exact .inr rfl
  | json => cases log <;> simp [LogFormat.visible]

theorem fits_readBack {f : LogFormat} {e e' : Event} (h : readBack f e = some e') (n : ℕ) :
    Fits { d with position := n } e' ↔ Fits d e := by
  cases f with
  | text => cases h
  | xml | json => cases e <;> cases h <;> rfl

theorem exact_found (h : Ready C d log) :
    Exact (found C d log) ∧ (found C d log).position = (C.format.visible log).length := by
  have hpos := h.position
  unfold found
  rcases h.unread with hnil | ⟨e, he, hfit⟩
  · rw [hnil]
    exact ⟨h.exact, le_antisymm hpos (drop_eq_nil_iff.mp hnil)⟩
  · have hlen : d.position + 1 = (C.format.visible log).length := by
      have := congrArg length he
      simp at this
      omega
    rw [he]
    simp only [readEvents]
    cases hread : readBack C.format e with
    | none => exact ⟨⟨h.exact.reserved, h.exact.stored⟩, hlen⟩
    | some e' =>
      dsimp only
      cases hrun : handleEvent { d with position := d.position + 1 } e' with
      | error err => exact ⟨⟨h.exact.reserved, h.exact.stored⟩, hlen⟩
      | ok d' =>
        have hd : Exact { d with position := d.position + 1 } :=
          ⟨h.exact.reserved, h.exact.stored⟩
        refine ⟨exact_handleEvent hd ((fits_readBack hread _).mpr hfit) hrun, ?_⟩
        rw [← hlen]
        exact position_handleEvent hrun

/-- The reservations that expire have nothing left. -/
def ExpiresEmpty (now : ℕ) (d : Directory) : Prop :=
  ∀ uuid r, d.spaceReservations.lookup uuid = some r → r.expiryTime < now → r.reserved = 0

theorem reservedBytes_unexpired (h : ExpiresEmpty now d) :
    reservedBytes (unexpired now d.spaceReservations) = reservedBytes d.spaceReservations := by
  refine tally_filterVals _ _ fun e he hp => ?_
  have hlook : d.spaceReservations.lookup e.1 = some e.2 :=
    (mem_dlookup_iff d.spaceReservations.nodupKeys).mpr he
  rw [h e.1 e.2 hlook (by simpa using hp)]
  rfl

theorem ready_updateState (h : Ready C d log) (hexp : ExpiresEmpty now (found C d log)) :
    Exact (updateState C now log d).2 ∧
      (updateState C now log d).2.position = (C.format.visible log).length := by
  obtain ⟨hex, hpos⟩ := exact_found h
  unfold updateState
  split
  · rename_i hlog
    subst hlog
    have hpos := h.position
    rw [visible_nil] at hpos ⊢
    exact ⟨h.exact, Nat.le_zero.mp hpos⟩
  · unfold found at hex hpos hexp
    revert hex hpos hexp
    cases hread : readEvents C d ((C.format.visible log).drop d.position) with
    | mk a d1 =>
      intro hexp hex hpos
      cases a with
      | error errs => exact ⟨hex, hpos⟩
      | ok u =>
        refine ⟨⟨hex.reserved.trans (reservedBytes_unexpired hexp).symm, ?_⟩, hpos⟩
        exact hex.stored.trans (storedBytes_perm (C.sort_perm _)).symm

/-! ## The operations -/

/-- **The condition on a step**: nothing that has space left expires or is released, nothing is
evicted, and no counter wraps around. -/
def Careful (C : Config) (w : World) (d : Directory) (log : List Event) : Op → Prop
  | .reserveSpace size _ _ _ =>
    ExpiresEmpty w.now (found C d log) ∧ (found C d log).reservedSpace.toNat + size.toNat < 2 ^ 64 ∧
      ((found C d log).reservedSpace.toNat + size.toNat ≤ (found C d log).allocatedSpace.toNat ∨
        (found C d log).contents = [])
  | .clearSpace size =>
    d.reservedSpace + size ≤ d.allocatedSpace ∨ d.contents = []
  | .releaseSpace uuid =>
    ExpiresEmpty w.now (found C d log) ∧
      ∀ r, (found C d log).spaceReservations.lookup uuid = some r → r.reserved = 0
  | .cacheFile source _ _ _ _ _ =>
    ExpiresEmpty w.now (found C d log) ∧ ∀ file, source = .ok file →
        (found C d log).storedSpace.toNat + file.size.toNat < 2 ^ 64
  | .renew _ _ _ | .retrieveFile _ _ _ _ | .updateState => ExpiresEmpty w.now (found C d log)

theorem updateState_ok (h : updateState C now log d = (.ok (), d')) :
    d'.reservedSpace = (found C d log).reservedSpace ∧
      d'.storedSpace = (found C d log).storedSpace ∧
      d'.allocatedSpace = (found C d log).allocatedSpace ∧
      d'.contents.Perm (found C d log).contents ∧
      ∀ uuid r, d'.spaceReservations.lookup uuid = some r →
        (found C d log).spaceReservations.lookup uuid = some r := by
  unfold updateState at h
  split at h
  · rename_i hlog
    subst hlog
    cases h
    have hfound : found C d [] = d := by simp [found, readEvents]
    rw [hfound]
    exact ⟨rfl, rfl, rfl, .refl _, fun _ _ h => h⟩
  · unfold found
    revert h
    cases readEvents C d ((C.format.visible log).drop d.position) with
    | mk a d1 =>
      intro h
      cases a with
      | error errs => cases h
      | ok u =>
        cases h
        refine ⟨rfl, rfl, rfl, C.sort_perm _, fun uuid r hr => ?_⟩
        rw [unexpired, lookup_filterVals, Option.filter_eq_some_iff] at hr
        exact hr.1

theorem ready_of_read (hd : Exact d) (hpos : d.position = (C.format.visible log).length) :
    Ready C d log :=
  ⟨hd, hpos.le, .inl (by rw [hpos, drop_length])⟩

theorem ready_writeEvent {err : Error} (hd : Exact d)
    (hpos : d.position = (C.format.visible log).length) (hfit : Fits d e) :
    Ready C (writeEvent w e err d log).2.1 (writeEvent w e err d log).2.2 := by
  unfold writeEvent
  split
  · rcases visible_concat C.format log e with hlog | hlog
    · exact ready_of_read hd (by rw [hlog, hpos])
    · refine ⟨hd, ?_, .inr ⟨e, ?_, hfit⟩⟩
      · simp [hpos, hlog]
      · rw [hpos, hlog, drop_left]
  · exact ready_of_read hd hpos

theorem ready_afterUpdate {next : Directory → Answer × Directory × List Event} (h : Ready C d log)
    (hexp : ExpiresEmpty w.now (found C d log))
    (hnext : ∀ d', updateState C w.now log d = (.ok (), d') → Exact d' →
      d'.position = (C.format.visible log).length → Ready C (next d').2.1 (next d').2.2) :
    Ready C (afterUpdate C w d log next).2.1 (afterUpdate C w d log next).2.2 := by
  obtain ⟨hex, hpos⟩ := ready_updateState h hexp
  unfold afterUpdate
  revert hex hpos
  cases hrun : updateState C w.now log d with
  | mk a d' =>
    intro hex hpos
    cases a with
    | error errs => exact ready_of_read hex hpos
    | ok u => exact hnext d' hrun hex hpos

theorem clearSpace_idle (h : d.reservedSpace + size ≤ d.allocatedSpace ∨ d.contents = []) :
    (clearSpace w size d log).2 = (d, log) := by
  unfold clearSpace
  split
  · rfl
  · rename_i hno
    rw [h.resolve_left hno]
    rfl

theorem clearSpace_full (hfull : d.allocatedSpace < d.reservedSpace + size)
    (hempty : d.contents = []) : clearSpace w size d log = (.error [], d, log) := by
  rw [clearSpace, if_neg (UInt64.not_le.mpr hfull), hempty]
  rfl

/-- **A careful step keeps the invariant.** -/
theorem ready_perform {op : Op} (h : Ready C d log) (hop : Careful C w d log op) :
    Ready C (perform C w d log op).2.1 (perform C w d log op).2.2 := by
  cases op with
  | reserveSpace size time tag uuid =>
    obtain ⟨hexp, hwrap, hroom⟩ := hop
    refine ready_afterUpdate h hexp fun d' hrun hex hpos => ?_
    obtain ⟨hres, -, halloc, hperm, -⟩ := updateState_ok hrun
    have hfit : Fits d' (.reserveSpace (w.later + time.toNat * 10 ^ 9) size uuid tag) := by
      change d'.reservedSpace.toNat + size.toNat < 2 ^ 64
      rw [hres]
      exact hwrap
    split
    · rename_i hfull
      have hempty : d'.contents = [] := by
        rcases hroom with hroom | hempty
        · rw [UInt64.lt_iff_toNat_lt, toNat_add_of_lt (hres ▸ hwrap), hres, halloc] at hfull
          omega
        · rw [hempty] at hperm
          exact hperm.eq_nil
      have hidle : (clearSpace w size d' log).2 = (d', log) := clearSpace_idle (.inr hempty)
      revert hidle
      cases hclear : clearSpace w size d' log with
      | mk a dl =>
        intro hidle
        subst hidle
        cases a with
        | error errs => exact ready_of_read hex hpos
        | ok u => exact ready_writeEvent hex hpos hfit
    · exact ready_writeEvent hex hpos hfit
  | clearSpace size =>
    have hidle : (clearSpace w size d log).2 = (d, log) := clearSpace_idle hop
    simp only [perform]
    rw [hidle]
    exact h
  | renew lifetime tag uuid =>
    refine ready_afterUpdate h hop fun d' _ hex hpos => ?_
    split
    · exact ready_of_read hex hpos
    · rename_i r hr
      split
      · exact ready_of_read hex hpos
      · exact ready_writeEvent
          ⟨hex.reserved.trans (reservedBytes_setExpiry hr _).symm, hex.stored⟩ hpos
          d'.reservedSpace.toNat_lt
  | releaseSpace uuid =>
    obtain ⟨hexp, hzero⟩ := hop
    refine ready_afterUpdate h hexp fun d' hrun hex hpos => ?_
    obtain ⟨-, -, -, -, hlook⟩ := updateState_ok hrun
    split
    · exact ready_of_read hex hpos
    · rename_i r hr
      have hr0 : r.reserved = 0 := hzero r (hlook uuid r hr)
      have hex' : Exact { d' with spaceReservations := d'.spaceReservations.erase uuid } := by
        refine ⟨?_, hex.stored⟩
        have herase := tally_erase (fun r => r.reserved.toNat) hr
        have hd1 := hex.reserved
        simp only [reservedBytes, hr0, UInt64.toNat_zero] at hd1 herase ⊢
        omega
      exact ready_writeEvent hex' hpos trivial
  | cacheFile source copied renamed checksum checksumType uuid =>
    obtain ⟨hexp, hwrap⟩ := hop
    simp only [perform, cacheFile]
    split
    · exact h
    · split
      · exact h
      · rename_i file
        refine ready_afterUpdate h hexp fun d' hrun hex hpos => ?_
        obtain ⟨-, hstored, -, -, -⟩ := updateState_ok hrun
        (repeat' split) <;> first
          | exact ready_of_read hex hpos
          | skip
        refine ready_writeEvent hex hpos ?_
        change d'.storedSpace.toNat + file.size.toNat < 2 ^ 64
        rw [hstored]
        exact hwrap file rfl
  | retrieveFile copied checksum checksumType tag =>
    simp only [perform, retrieveFile]
    split
    · exact h
    · refine ready_afterUpdate h hop fun d' _ hex hpos => ?_
      (repeat' split) <;> first
        | exact ready_of_read hex hpos
        | exact ready_writeEvent hex hpos trivial
  | updateState => exact ready_afterUpdate h hop fun d' _ hex hpos => ready_of_read hex hpos

/-! ## Runs -/

def run (C : Config) (d : Directory) (log : List Event) : List (World × Op) → Directory × List Event
  | [] => (d, log)
  | (w, op) :: steps => run C (perform C w d log op).2.1 (perform C w d log op).2.2 steps

def CarefulRun (C : Config) (d : Directory) (log : List Event) : List (World × Op) → Prop
  | [] => True
  | (w, op) :: steps => Careful C w d log op ∧
      CarefulRun C (perform C w d log op).2.1 (perform C w d log op).2.2 steps

theorem ready_run {steps : List (World × Op)} (h : Ready C d log)
    (hsteps : CarefulRun C d log steps) :
    Ready C (run C d log steps).1 (run C d log steps).2 := by
  induction steps generalizing d log with
  | nil => exact h
  | cons s steps ih =>
    exact ih (ready_perform h hsteps.1) hsteps.2

/-- **The counters are exact** after every careful run that starts with an empty log. -/
theorem exact_run (C : Config) (allocated : UInt64) (steps : List (World × Op))
    (hsteps : CarefulRun C (.new allocated) [] steps) :
    Exact (run C (.new allocated) [] steps).1 := by
  have hnew : Ready C (.new allocated) [] := ⟨⟨rfl, rfl⟩, Nat.zero_le _, .inl (by simp)⟩
  exact (ready_run hnew hsteps).exact

theorem expiresEmpty_of_entries
    (h : ∀ e ∈ d.spaceReservations.entries, e.2.expiryTime < now → e.2.reserved = 0) :
    ExpiresEmpty now d := by
  intro uuid r hr
  exact h ⟨uuid, r⟩ ((mem_dlookup_iff d.spaceReservations.nodupKeys).mp hr)

/-- An XML log, and a stable sort. -/
def adConfig : Config where
  format := .xml
  sort := insertionSort fun a b => a.lastUse ≤ b.lastUse
  sort_perm := perm_insertionSort _
  sort_sorted := by
    have : Std.Total fun a b : FileEntry => a.lastUse ≤ b.lastUse := ⟨fun a b => le_total _ _⟩
    have : IsTrans FileEntry fun a b => a.lastUse ≤ b.lastUse := ⟨fun a b c => le_trans⟩
    exact pairwise_insertionSort _

/-- A system on which everything succeeds, at a time in seconds. -/
def worldAt (seconds : ℕ) : World where
  now := seconds * 10 ^ 9
  later := seconds * 10 ^ 9
  unlink := fun _ => .ok ()
  write := fun _ => true

def storeSteps : List (World × Op) :=
  [(worldAt 1, .reserveSpace 100 60 ['t'] ['u']),
    (worldAt 2, .cacheFile (.ok ⟨70, ['c']⟩) (.ok ()) (.ok ()) ['c'] "sha256".toList ['u']),
    (worldAt 3, .retrieveFile (.ok ['c']) ['c'] "sha256".toList ['t'])]

theorem exact_run_store : CarefulRun adConfig (.new 1000) [] storeSteps ∧
    Exact (run adConfig (.new 1000) [] storeSteps).1 := by
  have h : CarefulRun adConfig (.new 1000) [] storeSteps := by
    refine ⟨⟨expiresEmpty_of_entries (by decide), by decide, .inl (by decide)⟩,
      ⟨expiresEmpty_of_entries (by decide), ?_⟩, expiresEmpty_of_entries (by decide), trivial⟩
    rintro file ⟨⟩
    decide
  exact ⟨h, exact_run adConfig 1000 storeSteps h⟩

/-- A reservation that has expired is dropped, but its bytes stay in the counter. -/
theorem updateState_expired_inexact : (perform adConfig (worldAt 9)
      (run adConfig (.new 1000) [] [(worldAt 1, .reserveSpace 100 1 ['t'] ['u'])]).1
      (run adConfig (.new 1000) [] [(worldAt 1, .reserveSpace 100 1 ['t'] ['u'])]).2
      .updateState).1 = .ok () ∧
    ¬ Exact (run adConfig (.new 1000) [] [(worldAt 1, .reserveSpace 100 1 ['t'] ['u']),
      (worldAt 9, .updateState)]).1 := by
  refine ⟨rfl, fun h => ?_⟩
  have hr := h.reserved
  revert hr
  decide

end Condor.DataReuse
