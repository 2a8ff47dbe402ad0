import Condor.DataReuse.Accounting

/-!
# The bytes that the log commits

The log is the common record of the processes: `Ledger` is what it says about leases and files,
with numbers that do not wrap around. A process reads the log late, drops the leases that have
expired and refuses the events that it does not understand, but as long as the steps are
`Provident`, its two counters together never fall below what the ledger commits.

* **`committed_le_of_reserveSpace`**.
-/

namespace Condor.DataReuse

open List Nat

/-! ## What the log records -/

/-- A lease of space. -/
structure Lease where
  expiry : ℕ
  tag : Text
  remaining : ℕ
deriving DecidableEq, Repr

/-- A file in the directory. -/
structure StoredFile where
  size : ℕ
  checksum : Text
  checksumType : Text
  tag : Text
deriving DecidableEq, Repr

def StoredFile.is (f : StoredFile) (checksum checksumType tag : Text) : Bool :=
  f.checksumType == checksumType && f.checksum == checksum && f.tag == tag

/-- The leases and the files. -/
structure Ledger where
  leases : AList fun _ : Text => Lease
  files : List StoredFile

variable (L : Ledger)

def Ledger.store (f : StoredFile) : Ledger :=
  if L.files.any fun g => g.is f.checksum f.checksumType f.tag then L
  else { L with files := L.files ++ [f] }

def Ledger.setLease (uuid : Text) (l : Lease) : Ledger :=
  { L with leases := L.leases.insert uuid l }

/-- What an event of the log records. Expirations are in whole seconds there. -/
def Ledger.record : Event → Ledger
  | .reserveSpace expiry reserved uuid tag =>
    match L.leases.lookup uuid with
    | none => L.setLease uuid ⟨fromTimeT (toTimeT expiry), tag, reserved.toNat⟩
    | some l => L.setLease uuid { l with expiry := fromTimeT (toTimeT expiry) }
  | .releaseSpace uuid => { L with leases := L.leases.erase uuid }
  | .fileComplete _ size checksum checksumType uuid =>
    match L.leases.lookup uuid with
    | none => L.store ⟨size.toNat, checksum, checksumType, []⟩
    | some l => (L.setLease uuid { l with remaining := l.remaining - size.toNat }).store
        ⟨size.toNat, checksum, checksumType, l.tag⟩
  | .fileUsed .. => L
  | .fileRemoved _ checksum checksumType tag =>
    { L with files := L.files.eraseP fun f => f.is checksum checksumType tag }

def ledger (log : List Event) : Ledger := log.foldl Ledger.record ⟨∅, []⟩

def Ledger.stored : ℕ := (L.files.map StoredFile.size).sum

/-- The bytes committed at a time: those of the unexpired leases and of the files. -/
def Ledger.committed (now : ℕ) : ℕ :=
  tally (fun l => if l.expiry < now then 0 else l.remaining) L.leases + L.stored

/-- The bytes of all leases, expired or not, and of the files. -/
def Ledger.total : ℕ := tally Lease.remaining L.leases + L.stored

theorem Ledger.committed_le_total (now : ℕ) : L.committed now ≤ L.total := by
  refine Nat.add_le_add_right (tally_mono fun l => ?_) _
  split
  · exact Nat.zero_le _
  · exact le_rfl

variable {C : Config} {w : World} {d d' : Directory} {log : List Event} {L}

@[simp] theorem Ledger.store_leases (f : StoredFile) : (L.store f).leases = L.leases := by
  unfold Ledger.store
  split <;> rfl

theorem Ledger.total_store_le (f : StoredFile) : (L.store f).total ≤ L.total + f.size := by
  unfold Ledger.store
  split
  · exact le_add_right _ _
  · simp [Ledger.total, Ledger.stored, add_assoc]

variable {f : StoredFile} {e : Event} {size : UInt64} {s : System}

theorem Ledger.any_files_store {p : StoredFile → Bool}
    (h : L.files.any p = true) : (L.store f).files.any p = true := by
  unfold Ledger.store
  split
  · exact h
  · simp [h]

theorem Ledger.any_is_store :
    ((L.store f).files.any fun g => g.is f.checksum f.checksumType f.tag) = true := by
  unfold Ledger.store
  split
  · assumption
  · simp [StoredFile.is]

/-! ## What a process knows -/

def asked : Event → ℕ
  | .reserveSpace _ reserved _ _ => reserved.toNat
  | _ => 0

def SpaceReservationInfo.lease (r : SpaceReservationInfo) : Lease :=
  ⟨r.expiryTime, r.tag, r.reserved.toNat⟩

/-- **What a process knows of the log**, which records `L` and has asked for `n` bytes in all. -/
structure Sync (allocated : UInt64) (d : Directory) (L : Ledger) (n : ℕ) : Prop where
  allocated : d.allocatedSpace = allocated
  known : ∀ uuid r, d.spaceReservations.lookup uuid = some r → L.leases.lookup uuid = some r.lease
  files : ∀ e ∈ d.contents, (L.files.any fun f => f.is e.checksum e.checksumType e.tag) = true
  held : L.total ≤ d.reservedSpace.toNat + d.storedSpace.toNat
  bytes : reservedBytes d.spaceReservations ≤ d.reservedSpace.toNat
  asked : d.reservedSpace.toNat + d.storedSpace.toNat ≤ n

def Sound (L : Ledger) : Event → Prop
  | .reserveSpace _ _ uuid _ => L.leases.lookup uuid = none
  | .fileComplete clock size _ _ uuid => ∃ l, L.leases.lookup uuid = some l ∧
      size.toNat ≤ l.remaining ∧ fromTimeT clock ≤ l.expiry
  | .fileRemoved .. => False
  | .releaseSpace _ | .fileUsed .. => True

def SoundFrom : Ledger → List Event → Prop
  | _, [] => True
  | L, e :: es => Sound L e ∧ SoundFrom (L.record e) es

theorem soundFrom_append {es es' : List Event} :
    SoundFrom L (es ++ es') ↔ SoundFrom L es ∧ SoundFrom (es.foldl Ledger.record L) es' := by
  induction es generalizing L with
  | nil => simp [SoundFrom]
  | cons e es ih => simp [SoundFrom, ih, and_assoc]

variable {allocated : UInt64} {n : ℕ} {uuid : Text}

theorem Sync.congr (h : Sync allocated d L n) (hallocated : d'.allocatedSpace = d.allocatedSpace)
    (hreserved : d'.reservedSpace = d.reservedSpace) (hstored : d'.storedSpace = d.storedSpace)
    (hknown : ∀ uuid r, d'.spaceReservations.lookup uuid = some r →
      d.spaceReservations.lookup uuid = some r)
    (hbytes : reservedBytes d'.spaceReservations ≤ reservedBytes d.spaceReservations)
    (hfiles : ∀ e' ∈ d'.contents, ∃ e ∈ d.contents, e.checksum = e'.checksum ∧
      e.checksumType = e'.checksumType ∧ e.tag = e'.tag) : Sync allocated d' L n where
  allocated := hallocated.trans h.allocated
  known := fun uuid r hr => h.known uuid r (hknown uuid r hr)
  files := by
    intro e' he'
    obtain ⟨e, he, h1, h2, h3⟩ := hfiles e' he'
    rw [← h1, ← h2, ← h3]
    exact h.files e he
  held := by rw [hreserved, hstored]; exact h.held
  bytes := by rw [hreserved]; exact hbytes.trans h.bytes
  asked := by rw [hreserved, hstored]; exact h.asked

section

variable {l : Lease} (hl : L.leases.lookup uuid = some l) (hsize : f.size ≤ l.remaining)
include hl hsize

theorem total_complete_le :
    ((L.setLease uuid { l with remaining := l.remaining - f.size }).store f).total ≤ L.total := by
  refine (Ledger.total_store_le f).trans ?_
  have hins := tally_insert Lease.remaining hl { l with remaining := l.remaining - f.size }
  simp only [Ledger.total, Ledger.stored, Ledger.setLease] at hins ⊢
  omega

theorem total_complete_again
    (hf : (L.files.any fun g => g.is f.checksum f.checksumType f.tag) = true) :
    ((L.setLease uuid { l with remaining := l.remaining - f.size }).store f).total + f.size =
      L.total := by
  have hins := tally_insert Lease.remaining hl { l with remaining := l.remaining - f.size }
  have hstore : (L.setLease uuid { l with remaining := l.remaining - f.size }).store f =
      L.setLease uuid { l with remaining := l.remaining - f.size } := if_pos hf
  rw [hstore]
  simp only [Ledger.total, Ledger.stored, Ledger.setLease] at hins ⊢
  omega

end

/-- **An event that the process refuses** leaves its counters large enough. -/
theorem Sync.refused {err : Error} (h : Sync allocated d L n) (he : Sound L e)
    (hrun : ∃ e', readBack .xml e = some e' ∧ handleEvent d e' = .error err) :
    Sync allocated d (L.record e) (n + DataReuse.asked e) := by
  obtain ⟨e', hread, hrun⟩ := hrun
  cases e with
  | reserveSpace expiry reserved uuid tag =>
    cases hread
    have hnone : d.spaceReservations.lookup uuid = none := by
      rw [Option.eq_none_iff_forall_ne_some]
      intro r hr
      rw [Sound, h.known uuid r hr] at he
      cases he
    simp [handleEvent, hnone] at hrun
  | releaseSpace uuid =>
    cases hread
    have hnone : d.spaceReservations.lookup uuid = none := by
      simp only [handleEvent] at hrun
      split at hrun
      · assumption
      · cases hrun
    refine { h with known := fun u r hr => ?_, held := ?_ }
    · have hne : u ≠ uuid := by
        rintro rfl
        rw [hnone] at hr
        cases hr
      rw [← h.known u r hr]
      exact AList.lookup_erase_ne hne
    · refine (Nat.add_le_add_right ?_ _).trans h.held
      exact tally_erase_le _
  | fileComplete clock size checksum checksumType uuid =>
    cases hread
    obtain ⟨l, hl, hsize, hclock⟩ := he
    simp only [handleEvent] at hrun
    split at hrun
    · rename_i hnone
      have hrecord : L.record (.fileComplete clock size checksum checksumType uuid) =
          (L.setLease uuid { l with remaining := l.remaining - size.toNat }).store
            ⟨size.toNat, checksum, checksumType, l.tag⟩ := by
        simp [Ledger.record, hl]
      rw [hrecord]
      refine { h with known := fun u r hr => ?_, files := fun e he => ?_, held := ?_ }
      · have hne : u ≠ uuid := by
          rintro rfl
          rw [hnone] at hr
          cases hr
        rw [← h.known u r hr, Ledger.store_leases]
        exact AList.lookup_insert_ne hne
      · exact Ledger.any_files_store (h.files e he)
      · exact (total_complete_le hl hsize).trans h.held
    · -- The process knows the lease, and so it accepts the file.
      rename_i r hr
      cases (h.known uuid r hr).symm.trans hl
      have h1 : ¬ r.reserved < size := UInt64.not_lt.mpr (UInt64.le_iff_toNat_le.mpr hsize)
      have h2 : ¬ r.expiryTime < fromTimeT clock := Nat.not_lt.mpr hclock
      simp only [handleComplete, h1, h2, if_false] at hrun
      split at hrun <;> cases hrun
  | fileUsed clock checksum checksumType tag => exact { h with }
  | fileRemoved size checksum checksumType tag => exact he.elim

theorem Sync.complete {r : SpaceReservationInfo} {clock : ℕ}
    {checksum checksumType : Text} (h : Sync allocated d L n) (hn : n < 2 ^ 64)
    (hr : d.spaceReservations.lookup uuid = some r)
    (hrun : handleComplete d r clock size checksum checksumType uuid = .ok d') :
    Sync allocated d' ((L.setLease uuid
      { r.lease with remaining := r.lease.remaining - size.toNat }).store
        ⟨size.toNat, checksum, checksumType, r.tag⟩) n := by
  have hl := h.known uuid r hr
  unfold handleComplete at hrun
  split at hrun
  · cases hrun
  · rename_i hsize
    have hle : size.toNat ≤ r.reserved.toNat := UInt64.le_iff_toNat_le.mp (UInt64.not_lt.mp hsize)
    have hbytes := h.bytes
    have hheld := h.held
    have hasked := h.asked
    have hr1 : r.reserved.toNat ≤ reservedBytes d.spaceReservations :=
      le_tally (fun r : SpaceReservationInfo => r.reserved.toNat) hr
    have hsub : (d.reservedSpace - size).toNat = d.reservedSpace.toNat - size.toNat :=
      toNat_sub_of_le' (by omega)
    have hins := tally_insert (fun r : SpaceReservationInfo => r.reserved.toNat) hr
      { r with reserved := r.reserved - size }
    simp only [toNat_sub_of_le' hle] at hins
    have hknown : ∀ u r', (d.spaceReservations.insert uuid
        { r with reserved := r.reserved - size }).lookup u = some r' →
        (L.leases.insert uuid { r.lease with remaining := r.lease.remaining - size.toNat }).lookup
        u = some r'.lease := by
      intro u r' hr'
      by_cases hu : u = uuid
      · subst hu
        rw [AList.lookup_insert] at hr'
        cases hr'
        simp [SpaceReservationInfo.lease, toNat_sub_of_le' hle]
      · rw [AList.lookup_insert_ne hu] at hr' ⊢
        exact h.known u r' hr'
    split at hrun
    · cases hrun
    · dsimp only at hrun
      split at hrun
      · -- The file is there already, and then the ledger has it too.
        rename_i hany
        cases hrun
        obtain ⟨e, he, his⟩ := any_eq_true.mp hany
        have hdup : (L.files.any fun g => g.is checksum checksumType r.tag) = true := by
          have := h.files e he
          simp only [FileEntry.is, Bool.and_eq_true, beq_iff_eq] at his
          rwa [his.1.1, his.1.2, his.2] at this
        have htotal := total_complete_again
          (f := ⟨size.toNat, checksum, checksumType, r.tag⟩) hl hle hdup
        refine ⟨h.allocated, ?_, fun e he => Ledger.any_files_store (h.files e he), ?_, ?_, ?_⟩
        · rw [Ledger.store_leases]
          exact hknown
        · simp only [hsub] at htotal ⊢
          omega
        · simp only [reservedBytes] at hbytes ⊢
          omega
        · simp only [hsub]
          omega
      · cases hrun
        have hadd : (d.storedSpace + size).toNat = d.storedSpace.toNat + size.toNat :=
          toNat_add_of_lt (by omega)
        have htotal := total_complete_le
          (f := ⟨size.toNat, checksum, checksumType, r.tag⟩) hl hle
        refine ⟨h.allocated, ?_, fun e he => ?_, ?_, ?_, ?_⟩
        · rw [Ledger.store_leases]
          exact hknown
        · rcases mem_append.mp he with he | he
          · exact Ledger.any_files_store (h.files e he)
          · cases mem_singleton.mp he
            exact Ledger.any_is_store
        · simp only [Directory.count] at htotal ⊢
          omega
        · simp only [Directory.count, reservedBytes] at hbytes ⊢
          omega
        · simp only [Directory.count]
          omega

theorem exists_of_mem_replaceF {f : FileEntry → Option FileEntry} {l : List FileEntry}
    {e' : FileEntry} (h : e' ∈ l.replaceF f) : ∃ e ∈ l, e = e' ∨ f e = some e' := by
  induction l with
  | nil => cases h
  | cons a l ih =>
    rw [replaceF_cons] at h
    cases hf : f a with
    | none =>
      rw [hf] at h
      rcases mem_cons.mp h with rfl | h
      · exact ⟨_, mem_cons_self, .inl rfl⟩
      · obtain ⟨e, he, hor⟩ := ih h
        exact ⟨e, mem_cons_of_mem _ he, hor⟩
    | some a' =>
      rw [hf] at h
      rcases mem_cons.mp h with rfl | h
      · exact ⟨a, mem_cons_self, .inr hf⟩
      · exact ⟨e', mem_cons_of_mem _ h, .inl rfl⟩

/-- **An event that the process accepts** changes its counters as it changes the ledger. -/
theorem Sync.handled (h : Sync allocated d L n) (he : Sound L e)
    (hn : n + DataReuse.asked e < 2 ^ 64)
    (hrun : ∃ e', readBack .xml e = some e' ∧ handleEvent d e' = .ok d') :
    Sync allocated d' (L.record e) (n + DataReuse.asked e) := by
  obtain ⟨e', hread, hrun⟩ := hrun
  have hheld := h.held
  have hbytes := h.bytes
  have hasked := h.asked
  cases e with
  | reserveSpace expiry reserved uuid tag =>
    cases hread
    simp only [Sound] at he
    simp only [DataReuse.asked] at hn
    simp only [handleEvent] at hrun
    split at hrun
    · rename_i hnone
      cases hrun
      have hadd : (d.reservedSpace + reserved).toNat = d.reservedSpace.toNat + reserved.toNat :=
        toNat_add_of_lt (by omega)
      have hL := tally_insert_of_notMem Lease.remaining (AList.lookup_eq_none.mp he)
        ⟨fromTimeT (toTimeT expiry), tag, reserved.toNat⟩
      have hd := tally_insert_of_notMem (fun r : SpaceReservationInfo => r.reserved.toNat)
        (AList.lookup_eq_none.mp hnone) ⟨fromTimeT (toTimeT expiry), tag, reserved⟩
      simp only [Ledger.record, he]
      refine ⟨h.allocated, fun u r hr => ?_, h.files, ?_, ?_, ?_⟩
      · by_cases hu : u = uuid
        · subst hu
          rw [AList.lookup_insert] at hr
          cases hr
          exact AList.lookup_insert _
        · rw [AList.lookup_insert_ne hu] at hr
          rw [← h.known u r hr]
          exact AList.lookup_insert_ne hu
      · simp only [Ledger.total, Ledger.stored, Ledger.setLease, hadd] at hL hheld ⊢
        omega
      · simp only [reservedBytes, hadd] at hd hbytes ⊢
        omega
      · simp only [DataReuse.asked]
        omega
    · rename_i r hr
      rw [h.known uuid r hr] at he
      cases he
  | releaseSpace uuid =>
    cases hread
    simp only [handleEvent] at hrun
    split at hrun
    · cases hrun
    · rename_i r hr
      cases hrun
      have hL := tally_erase Lease.remaining (h.known uuid r hr)
      have hd := tally_erase (fun r => r.reserved.toNat) hr
      have hr1 : r.lease.remaining = r.reserved.toNat := rfl
      simp only [reservedBytes] at hbytes
      have hsub : (d.reservedSpace - r.reserved).toNat =
          d.reservedSpace.toNat - r.reserved.toNat := toNat_sub_of_le' (by omega)
      refine ⟨h.allocated, fun u r' hr' => ?_, h.files, ?_, ?_, ?_⟩
      · have hu : u ≠ uuid := by
          rintro rfl
          rw [AList.lookup_erase] at hr'
          cases hr'
        rw [AList.lookup_erase_ne hu] at hr'
        rw [← h.known u r' hr']
        exact AList.lookup_erase_ne hu
      · simp only [Ledger.record, Ledger.total, Ledger.stored] at hheld ⊢
        omega
      · simp only [reservedBytes]
        omega
      · simp only [hsub]
        omega
  | fileComplete clock size checksum checksumType uuid =>
    cases hread
    simp only [handleEvent] at hrun
    split at hrun
    · cases hrun
    · rename_i r hr
      have hdone := h.complete (by simpa [DataReuse.asked] using hn) hr hrun
      simp only [Ledger.record, h.known uuid r hr]
      exact hdone
  | fileUsed clock checksum checksumType tag =>
    cases hread
    simp only [handleEvent] at hrun
    split at hrun
    · cases hrun
    · cases hrun
      refine h.congr rfl rfl rfl (fun _ _ h => h) le_rfl fun e' he' => ?_
      obtain ⟨e, he, rfl | hf⟩ := exists_of_mem_replaceF he'
      · exact ⟨e, he, rfl, rfl, rfl⟩
      · split at hf
        · cases hf
          exact ⟨e, he, rfl, rfl, rfl⟩
        · cases hf
  | fileRemoved size checksum checksumType tag => exact he.elim

def askedBytes (log : List Event) : ℕ := (log.map asked).sum

/-- **Reading the log**: the process has passed all events, if it has refused none. -/
theorem Sync.readEvents (hC : C.format = .xml) {es : List Event} (h : Sync allocated d L n)
    (hes : SoundFrom L es) (hn : n + askedBytes es < 2 ^ 64) : ∃ es1 es2, es = es1 ++ es2 ∧
      (readEvents C d es).2.position = d.position + es1.length ∧
      Sync allocated (readEvents C d es).2 (es1.foldl Ledger.record L) (n + askedBytes es1) ∧
      ((readEvents C d es).1 = .ok () → es2 = []) := by
  induction es generalizing d L n with
  | nil => exact ⟨[], [], rfl, rfl, h, fun _ => rfl⟩
  | cons e es ih =>
    obtain ⟨he, hes⟩ := hes
    simp only [askedBytes, map_cons, sum_cons] at hn
    have hmoved : Sync allocated { d with position := d.position + 1 } L n := { h with }
    cases hread : readBack C.format e with
    | none => rw [hC] at hread; cases e <;> cases hread
    | some e' =>
      rw [hC] at hread
      cases hrun : handleEvent { d with position := d.position + 1 } e' with
      | error err =>
        refine ⟨[e], es, rfl, ?_⟩
        simp only [DataReuse.readEvents, hC, hread, hrun]
        simpa [askedBytes] using hmoved.refused he ⟨e', hread, hrun⟩
      | ok d' =>
        have hd' := hmoved.handled he (by omega) ⟨e', hread, hrun⟩
        have hn' : n + DataReuse.asked e + askedBytes es < 2 ^ 64 := by
          simpa [askedBytes, add_assoc] using hn
        obtain ⟨es1, es2, rfl, hpos, hsync, hall⟩ := ih hd' hes hn'
        refine ⟨e :: es1, es2, rfl, ?_⟩
        simp only [DataReuse.readEvents, hC, hread, hrun]
        refine ⟨?_, ?_, hall⟩
        · rw [hpos, position_handleEvent hrun]
          simp only [length_cons]
          omega
        · simpa [askedBytes, add_assoc] using hsync

/-! ## The operations -/

/-- A log whose events were all sound and have not asked for `2 ^ 64` bytes. -/
structure SoundLog (log : List Event) : Prop where
  sound : SoundFrom ⟨∅, []⟩ log
  asked : askedBytes log < 2 ^ 64

/-- A process is in step with the part of the log that it has read. -/
structure Synced (allocated : UInt64) (d : Directory) (log : List Event) : Prop where
  position : d.position ≤ log.length
  sync : Sync allocated d (ledger (log.take d.position)) (askedBytes (log.take d.position))

theorem Synced.append (h : Synced allocated d log) (es : List Event) :
    Synced allocated d (log ++ es) := by
  refine ⟨?_, ?_⟩
  · rw [length_append]
    exact h.position.trans (le_add_right _ _)
  · rw [take_append_of_le_length h.position]
    exact h.sync

theorem Synced.sync_of_read (h : Synced allocated d log) (hpos : d.position = log.length) :
    Sync allocated d (ledger log) (askedBytes log) := by
  have := h.sync
  rwa [hpos, take_length] at this

theorem askedBytes_append (es es' : List Event) :
    askedBytes (es ++ es') = askedBytes es + askedBytes es' := by
  simp [askedBytes]

section

variable (hC : C.format = .xml) (h : Synced allocated d log) (hlog : SoundLog log)
include hC h hlog

theorem synced_found : Synced allocated (found C d log) log ∧
      ((readEvents C d ((C.format.visible log).drop d.position)).1 = .ok () →
        (found C d log).position = log.length) := by
  have hfound : found C d log = (readEvents C d (log.drop d.position)).2 := by
    rw [found, visible_of_xml hC]
  rw [visible_of_xml hC]
  have hsplit : log.take d.position ++ log.drop d.position = log := take_append_drop _ _
  have hsound : SoundFrom (ledger (log.take d.position)) (log.drop d.position) := by
    have := hlog.sound
    rw [← hsplit, soundFrom_append] at this
    exact this.2
  have hasked := hlog.asked
  rw [← hsplit, askedBytes_append] at hasked
  obtain ⟨es1, es2, hes, hpos, hsync, hall⟩ := h.sync.readEvents hC hsound hasked
  rw [← hfound] at hpos hsync
  have hlen : (log.take d.position).length = d.position := by
    rw [length_take]
    exact min_eq_left h.position
  have htake : log.take (found C d log).position = log.take d.position ++ es1 := by
    have hcut : (log.take d.position ++ es1).length = (found C d log).position := by
      rw [length_append, hlen, hpos]
    have hlog' : log = log.take d.position ++ es1 ++ es2 := by
      rw [append_assoc, ← hes, hsplit]
    rw [← hcut]
    nth_rewrite 2 [hlog']
    exact take_left
  refine ⟨⟨?_, ?_⟩, fun hok => ?_⟩
  · have := congrArg length hes
    rw [length_drop, length_append] at this
    have hp := h.position
    omega
  · rw [htake, ledger, foldl_append, askedBytes_append]
    exact hsync
  · have hes' := hall hok
    subst hes'
    have := congrArg length hes
    rw [append_nil, length_drop] at this
    have hp := h.position
    omega

theorem synced_updateState (now : ℕ) : Synced allocated (updateState C now log d).2 log ∧
      ((updateState C now log d).1 = .ok () → (updateState C now log d).2.position =
      log.length) := by
  obtain ⟨hfound, hall⟩ := synced_found hC h hlog
  unfold updateState
  split
  · rename_i hnil
    subst hnil
    exact ⟨h, fun _ => le_zero.mp h.position⟩
  · unfold found at hfound hall
    revert hfound hall
    cases readEvents C d ((C.format.visible log).drop d.position) with
    | mk a d1 =>
      intro hfound hall
      cases a with
      | error errs => exact ⟨hfound, hall⟩
      | ok u =>
        refine ⟨⟨hfound.position, hfound.sync.congr rfl rfl rfl (fun uuid r hr => ?_) ?_
          fun e he => ?_⟩, hall⟩
        · dsimp only at hr
          rw [unexpired, lookup_filterVals, Option.filter_eq_some_iff] at hr
          exact hr.1
        · exact tally_filterVals_le (fun r : SpaceReservationInfo => r.reserved.toNat) _
        · exact ⟨e, (C.sort_perm _).mem_iff.mp he, rfl, rfl, rfl⟩

end

/-- After an operation the log, which has only grown, is sound and the process in step with it. -/
structure Kept (allocated : UInt64) (log : List Event) (r : Answer × Directory × List Event) :
    Prop where
  grown : ∃ es, r.2.2 = log ++ es
  log : SoundLog r.2.2
  synced : Synced allocated r.2.1 r.2.2

theorem Kept.same {a : Answer} (hlog : SoundLog log) (h : Synced allocated d log) :
    Kept allocated log (a, d, log) :=
  ⟨⟨[], (append_nil log).symm⟩, hlog, h⟩

theorem Kept.writeEvent {err : Error} (hlog : SoundLog log)
    (h : Synced allocated d log) (he : Sound (ledger log) e)
    (hn : askedBytes log + DataReuse.asked e < 2 ^ 64) :
    Kept allocated log (writeEvent w e err d log) := by
  unfold DataReuse.writeEvent
  split
  · refine ⟨⟨[e], rfl⟩, ⟨soundFrom_append.mpr ⟨hlog.sound, he, trivial⟩, ?_⟩, h.append [e]⟩
    simpa [askedBytes] using hn
  · exact Kept.same hlog h

theorem Kept.afterUpdate {next : Directory → Answer × Directory × List Event}
    (hC : C.format = .xml) (hlog : SoundLog log) (h : Synced allocated d log)
    (hnext : ∀ d', updateState C w.now log d = (.ok (), d') → Synced allocated d' log →
      d'.position = log.length → Kept allocated log (next d')) :
    Kept allocated log (afterUpdate C w d log next) := by
  obtain ⟨hsync, hpos⟩ := synced_updateState hC h hlog w.now
  unfold DataReuse.afterUpdate
  revert hsync hpos
  cases hrun : updateState C w.now log d with
  | mk a d' =>
    intro hsync hpos
    cases a with
    | error errs => exact Kept.same hlog hsync
    | ok u => exact hnext d' hrun hsync (hpos rfl)

/-- **The condition on a step**: a request for space leaves room for the stored files too, or there
is nothing to evict; a file is complete before its lease expires; no lease is renewed, and no file
evicted. -/
def Provident (C : Config) (w : World) (d : Directory) (log : List Event) : Op → Prop
  | .reserveSpace size _ _ uuid =>
    (ledger log).leases.lookup uuid = none ∧ askedBytes log + size.toNat < 2 ^ 64 ∧
      ((found C d log).reservedSpace.toNat + (found C d log).storedSpace.toNat + size.toNat ≤
          (found C d log).allocatedSpace.toNat ∨
        (found C d log).allocatedSpace < (found C d log).reservedSpace + size ∧
          (found C d log).contents = [])
  | .clearSpace size => d.reservedSpace + size ≤ d.allocatedSpace ∨ d.contents = []
  | .renew _ tag uuid => ∀ r, (found C d log).spaceReservations.lookup uuid = some r → r.tag ≠ tag
  | .cacheFile _ _ _ _ _ uuid =>
    ∀ r, (found C d log).spaceReservations.lookup uuid = some r →
      fromTimeT (toTimeT w.later) ≤ r.expiryTime
  | .releaseSpace _ | .retrieveFile _ _ _ _ | .updateState => True

/-- In a provident step `ReserveSpace` is refused, or the log leaves room for its event. -/
theorem reserveSpace_cases {time : UInt32} {tag : Text}
    (hop : Provident C w d log (.reserveSpace size time tag uuid))
    (hrun : updateState C w.now log d = (.ok (), d')) :
    (d'.allocatedSpace < d'.reservedSpace + size ∧
      clearSpace w size d' log = (.error [], d', log)) ∨
    (¬ d'.allocatedSpace < d'.reservedSpace + size ∧
      d'.reservedSpace.toNat + d'.storedSpace.toNat + size.toNat ≤ d'.allocatedSpace.toNat) := by
  obtain ⟨-, -, hroom⟩ := hop
  obtain ⟨hres, hstored, halloc, hperm, -⟩ := updateState_ok hrun
  rw [← hres, ← hstored, ← halloc] at hroom
  rcases hroom with hroom | ⟨hfull, hempty⟩
  · refine .inr ⟨?_, hroom⟩
    have hlt := d'.allocatedSpace.toNat_lt
    rw [UInt64.lt_iff_toNat_lt, toNat_add_of_lt (by omega)]
    omega
  · rw [hempty] at hperm
    exact .inl ⟨hfull, clearSpace_full hfull hperm.eq_nil⟩

/-- **A provident step** keeps the log sound and the process in step with it. -/
theorem kept_perform {op : Op} (hC : C.format = .xml) (hlog : SoundLog log)
    (h : Synced allocated d log) (hop : Provident C w d log op) :
    Kept allocated log (perform C w d log op) := by
  have hasked := hlog.asked
  cases op with
  | reserveSpace size time tag uuid =>
    refine .afterUpdate hC hlog h fun d' hrun hsync hpos => ?_
    rcases reserveSpace_cases hop hrun with ⟨hfull, hclear⟩ | ⟨hfits, -⟩
    · rw [if_pos hfull, hclear]
      exact .same hlog hsync
    · rw [if_neg hfits]
      exact .writeEvent hlog hsync hop.1 hop.2.1
  | clearSpace size =>
    have hidle : (clearSpace w size d log).2 = (d, log) := clearSpace_idle hop
    simp only [perform]
    rw [← Prod.mk.eta (p := clearSpace w size d log), hidle]
    exact .same hlog h
  | renew lifetime tag uuid =>
    refine .afterUpdate hC hlog h fun d' hrun hsync hpos => ?_
    split
    · exact .same hlog hsync
    · rename_i r hr
      rw [if_pos (hop r ((updateState_ok hrun).2.2.2.2 uuid r hr))]
      exact .same hlog hsync
  | releaseSpace uuid =>
    refine .afterUpdate hC hlog h fun d' hrun hsync hpos => ?_
    split
    · exact .same hlog hsync
    · refine .writeEvent hlog ⟨hsync.position, ?_⟩ trivial hasked
      refine hsync.sync.congr rfl rfl rfl (fun u r hr => ?_) (tally_erase_le _)
        fun e he => ⟨e, he, rfl, rfl, rfl⟩
      have hu : u ≠ uuid := by
        rintro rfl
        rw [AList.lookup_erase] at hr
        cases hr
      rwa [AList.lookup_erase_ne hu] at hr
  | cacheFile source copied renamed checksum checksumType uuid =>
    simp only [perform, cacheFile]
    split
    · exact .same hlog h
    · split
      · exact .same hlog h
      · rename_i file
        refine .afterUpdate hC hlog h fun d' hrun hsync hpos => ?_
        split
        · exact .same hlog hsync
        · rename_i r hr
          split
          · exact .same hlog hsync
          · rename_i hsize
            -- The process knows the lease as the ledger has it.
            have hl := (hsync.sync_of_read hpos).known uuid r hr
            have hle : file.size.toNat ≤ r.reserved.toNat :=
              UInt64.le_iff_toNat_le.mp (UInt64.not_lt.mp hsize)
            have hclock := hop r ((updateState_ok hrun).2.2.2.2 uuid r hr)
            (repeat' split) <;> first
              | exact .same hlog hsync
              | exact .writeEvent hlog hsync ⟨r.lease, hl, hle, hclock⟩ hasked
  | retrieveFile copied checksum checksumType tag =>
    simp only [perform, retrieveFile]
    split
    · exact .same hlog h
    · refine .afterUpdate hC hlog h fun d' hrun hsync hpos => ?_
      (repeat' split) <;> first
        | exact .same hlog hsync
        | exact .writeEvent hlog hsync trivial hasked
  | updateState => exact .afterUpdate hC hlog h fun d' _ hsync _ => .same hlog hsync

/-! ## The system -/

def ProvidentRun (C : Config) : System → List Step → Prop
  | _, [] => True
  | s, t :: ts =>
    Provident C t.world (s.process t.process) s.log t.op ∧ ProvidentRun C (s.step C t).2 ts

theorem providentRun_append {ts ts' : List Step} :
    ProvidentRun C s (ts ++ ts') ↔ ProvidentRun C s ts ∧ ProvidentRun C (s.run C ts) ts' := by
  induction ts generalizing s with
  | nil => simp [ProvidentRun, System.run]
  | cons t ts ih => simp [ProvidentRun, System.run, ih, and_assoc]

/-- The log is sound and every process in step with it. -/
structure InStep (allocated : UInt64) (s : System) : Prop where
  log : SoundLog s.log
  synced : ∀ p, Synced allocated (s.process p) s.log

theorem inStep_new : InStep allocated (.new allocated) where
  log := ⟨trivial, Nat.two_pow_pos 64⟩
  synced := fun _ => by
    refine ⟨le_rfl, rfl, fun uuid r hr => ?_, fun e he => ?_, le_rfl, le_rfl, le_rfl⟩
    · cases hr
    · cases he

theorem inStep_step {t : Step} (hC : C.format = .xml) (h : InStep allocated s)
    (ht : Provident C t.world (s.process t.process) s.log t.op) :
    InStep allocated (s.step C t).2 := by
  obtain ⟨⟨es, hgrown⟩, hlog, hsync⟩ := kept_perform hC h.log (h.synced t.process) ht
  refine ⟨hlog, fun p => ?_⟩
  by_cases hp : p = t.process
  · subst hp
    simpa [System.step] using hsync
  · have hother := (h.synced p).append es
    rw [← hgrown] at hother
    simpa [System.step, Function.update_of_ne hp] using hother

theorem inStep_run {ts : List Step} (hC : C.format = .xml)
    (h : InStep allocated s) (hts : ProvidentRun C s ts) : InStep allocated (s.run C ts) := by
  induction ts generalizing s with
  | nil => exact h
  | cons t ts ih => exact ih (inStep_step hC h hts.1) hts.2

/-- A request that is granted was recorded, and there was room for it. -/
theorem total_of_reserveSpace {time : UInt32} {tag : Text}
    (hC : C.format = .xml) (hlog : SoundLog log) (h : Synced allocated d log)
    (hop : Provident C w d log (.reserveSpace size time tag uuid))
    (hok : (reserveSpace C w size time tag uuid d log).1 = .ok ()) :
    (ledger (reserveSpace C w size time tag uuid d log).2.2).total ≤ allocated.toNat := by
  obtain ⟨hsync, hpos⟩ := synced_updateState hC h hlog w.now
  unfold reserveSpace afterUpdate at hok ⊢
  revert hok hsync hpos
  cases hrun : updateState C w.now log d with
  | mk a d' =>
    intro hok hsync hpos
    cases a with
    | error errs => cases hok
    | ok u =>
      have hread := hsync.sync_of_read (hpos rfl)
      dsimp only at hok ⊢
      rcases reserveSpace_cases hop hrun with ⟨hfull, hclear⟩ | ⟨hfits, hroom⟩
      · rw [if_pos hfull, hclear] at hok
        cases hok
      · rw [if_neg hfits] at hok ⊢
        unfold writeEvent at hok ⊢
        split at hok
        · have hins := tally_insert_of_notMem Lease.remaining (AList.lookup_eq_none.mp hop.1)
            ⟨fromTimeT (toTimeT (w.later + time.toNat * 10 ^ 9)), tag, size.toNat⟩
          have hheld := hread.held
          rw [hread.allocated] at hroom
          rw [if_pos (by assumption), ledger, foldl_append]
          change ((ledger log).record
            (.reserveSpace (w.later + time.toNat * 10 ^ 9) size uuid tag)).total ≤ _
          simp only [Ledger.record, hop.1, Ledger.total, Ledger.stored,
            Ledger.setLease] at hins hheld ⊢
          omega
        · cases hok

/-- **The directory is not over-committed**: after a provident run that ends with a `ReserveSpace`
that returns true, the unexpired leases and the files fit into the allocated space. -/
theorem committed_le_of_reserveSpace (C : Config) (hC : C.format = .xml) (allocated : UInt64)
    (ts : List Step) (p : ℕ) (w : World) (size : UInt64) (time : UInt32) (tag uuid : Text)
    (hts : ProvidentRun C (.new allocated) (ts ++ [⟨p, w, .reserveSpace size time tag uuid⟩]))
    (hok : (((System.new allocated).run C ts).step C
      ⟨p, w, .reserveSpace size time tag uuid⟩).1 = .ok ()) (now : ℕ) :
    (ledger (((System.new allocated).run C ts).step C
      ⟨p, w, .reserveSpace size time tag uuid⟩).2.log).committed now ≤ allocated.toNat := by
  obtain ⟨hts, ht, -⟩ := providentRun_append.mp hts
  have hin := inStep_run hC inStep_new hts
  refine (Ledger.committed_le_total _ now).trans ?_
  exact total_of_reserveSpace hC hin.log (hin.synced p) ht hok

/-- Two processes: one reserves space and stores a file, the other reserves what is left. -/
def sharedSteps : List Step :=
  [⟨0, worldAt 1, .reserveSpace 60 100 ['t'] ['u']⟩,
    ⟨0, worldAt 2, .cacheFile (.ok ⟨50, ['c']⟩) (.ok ()) (.ok ()) ['c'] "sha256".toList ['u']⟩]

theorem committed_le_of_reserveSpace_shared :
    (ledger (((System.new 100).run adConfig sharedSteps).step adConfig
      ⟨1, worldAt 3, .reserveSpace 40 100 ['t'] ['v']⟩).2.log).committed (3 * 10 ^ 9) ≤ 100 := by
  refine committed_le_of_reserveSpace adConfig rfl 100 sharedSteps 1 (worldAt 3) 40 100 ['t'] ['v']
    ?_ rfl (3 * 10 ^ 9)
  refine ⟨⟨rfl, by decide, .inl (by decide)⟩, fun r hr => ?_, ⟨rfl, by decide, .inl (by decide)⟩,
    trivial⟩
  cases hr
  decide

-- Of a JSON log only the first event is read, so the third request is granted as well.
example :
    let C : Config := { adConfig with format := .json }
    let s := (System.new 100).run C
      [⟨0, worldAt 1, .reserveSpace 60 100 ['t'] ['u']⟩,
        ⟨0, worldAt 2, .reserveSpace 30 100 ['t'] ['v']⟩]
    let r := s.step C ⟨0, worldAt 3, .reserveSpace 30 100 ['t'] ['w']⟩
    r.1 = .ok () ∧ (ledger r.2.log).committed (3 * 10 ^ 9) = 120 :=
  ⟨rfl, rfl⟩

/-- Files that are stored are not counted against a request. -/
theorem reserveSpace_overcommits :
    let s := (System.new 100).run adConfig
      [⟨0, worldAt 1, .reserveSpace 60 100 ['t'] ['u']⟩,
        ⟨0, worldAt 2, .cacheFile (.ok ⟨60, ['c']⟩) (.ok ()) (.ok ()) ['c'] "sha256".toList ['u']⟩]
    let r := s.step adConfig ⟨0, worldAt 3, .reserveSpace 60 100 ['t'] ['v']⟩
    r.1 = .ok () ∧ (ledger r.2.log).committed (3 * 10 ^ 9) = 120 :=
  ⟨rfl, rfl⟩

end Condor.DataReuse
