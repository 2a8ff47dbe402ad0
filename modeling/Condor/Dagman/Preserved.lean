import Condor.Dagman.Invariant

/-!
# The moves keep the invariant

* **`Inv.move`**.
-/

namespace Condor.Dagman

open List Option Function Bool State CondorID View
open World (view accept)
variable {n : ℕ} {D : DagFile n} {cfg : Config} {r : Rest n} {w w' : World n} {h h' : Hold n}
  {i j : Fin n} {m : Mark} {hash hash' : Bool × ℤ → Option (Fin n)} {info : CondorID → JobInfo}
  {u v v' : View n} {J J' : Job n} {recovery bootstrap : Bool} {cluster : ℤ}

attribute [local simp] State.setStatus places Hold.node accept writePreSkipEvent State.setCondorID
  Identified index Cluster.isOver Cluster.finish runPostScript

/-! ## Taking and putting -/

theorem isWaiting_congr (hp : J'.parentsDone = J.parentsDone) :
    isWaiting D j J' = isWaiting D j J := by
  unfold isWaiting
  rw [hp]

theorem filter_erase_of_ne {α β : Type} [BEq α] [LawfulBEq α] [DecidableEq β] {l : List α} {a : α}
    (g : α → β) {b : β} (hb : b ≠ g a) : (l.erase a).filter (fun e => g e = b) = l.filter fun e =>
    g e = b := by
  rw [← erase_filter]
  simp [hb.symm]

theorem zero_le_ite (P : Prop) [Decidable P] : (0 : ℤ) ≤ if P then 1 else 0 := by
  split <;> simp

theorem NodeOk.active (hn : NodeOk D r hash info j v) (hp : v.places ≠ 0) :
    isWaiting D j v.job = false ∧ v.job.countedAsDone = false := by
  constructor
  · by_contra hw
    exact hp (hn.waiting (by simpa using hw)).1
  · by_contra hc
    exact hp (hn.counted (by simpa using hc)).1

theorem NodeOk.take (hn : NodeOk D r hash info j v) (hjob : v'.job = v.job)
    (hcl : v'.clusters = v.clusters) (hs : v'.skips = v.skips) (hp : v'.places + 1 = v.places) :
    HeldOk D hash j m v' := by
  have hplaces := hn.places
  obtain ⟨hw, hc⟩ := hn.active (by omega)
  have hp' : v'.places = 0 := by omega
  have hnil := hp'
  unfold View.places at hnil
  have hcl' : v'.clusters = [] := length_eq_zero_iff.mp (by omega)
  have hs' : v'.skips = [] := length_eq_zero_iff.mp (by omega)
  exact {
    places := hp'
    waiting := hjob ▸ hw
    counted := hjob ▸ hc
    queued := by simpa [hjob, ← hcl, hcl'] using hn.queued
    identified := fun _ => hjob ▸ hn.identified hc (hs ▸ hs') }

/-- A node in hand is put into a place, or into none. -/
theorem HeldOk.put (hh : HeldOk D hash j m v) (hm : m ≠ .skipped) (hk : Kept u.job v.job)
    (hcl : u.clusters = []) (hs : u.skips = []) (hps : u.posts = []) (hp : u.places ≤ 1)
    (hready : u.ready ≠ 0 ↔ u.job.status = .ready) (hpre : u.pre ≠ 0 ↔ u.job.status = .prerun)
    (hpost : u.post ≠ 0 → u.job.status = .postrun) (hdone : u.job.status ≠ .done)
    (hsub : u.job.status ≠ .submitted) : NodeOk D r hash info j u := by
  have hw : isWaiting D j u.job = false := (isWaiting_congr hk.parentsDone).trans hh.waiting
  have hc : u.job.countedAsDone = false := hk.countedAsDone.trans hh.counted
  exact {
    places := hp
    waiting := fun hw' => by rw [hw] at hw'; cases hw'
    ready := hready.mp
    pre := fun hp => .inl (hpre.mp (hp.resolve_right fun hne => hne hs))
    post := fun hp => .inl (hpost (hp.resolve_right fun hne => hne hps))
    cluster := fun hne => absurd hcl hne
    counted := fun hc' => by rw [hc] at hc'; cases hc'
    done := fun _ hd => absurd hd hdone
    prerun := fun hs => .inl (hpre.mpr hs)
    submitted := fun hs => absurd hs hsub
    started := fun _ hs _ => hready.mpr hs
    queued := by rw [hk.queued, hh.queued, hcl]; rfl
    identified := fun _ _ => by
      unfold Identified
      rw [hk.condorID]
      exact hh.identified hm
    clusters := fun c hc => by rw [hcl] at hc; cases hc
    posted := fun e he => by rw [hps] at he; cases he }

/-! ## Taking a node -/

theorem Inv.takeReady (hI : Inv D cfg r w .free) (hj : j ∈ w.dag.readyQ) :
    Inv D cfg r (w.withDag { w.dag with readyQ := w.dag.readyQ.erase j }) (.held j .fine) := by
  have hn := hI.node j nofun
  have hcount : 0 < w.dag.readyQ.count j := count_pos_iff.mpr hj
  refine hI.of_local {
    held := fun _ _ => hn.take rfl rfl rfl ?_
    postRun := by simpa using zero_le_ite _ }
  simp only [places, view, withDag_dag, withDag_clusters, count_erase_self]
  omega

theorem Inv.takePre (hI : Inv D cfg r w .free) (hj : j ∈ w.dag.preScripts) :
    Inv D cfg r (w.withDag { w.dag with
      preScripts := w.dag.preScripts.erase j
      preRunNodeCount := w.dag.preRunNodeCount - 1 }) (.held j .fine) := by
  have hn := hI.node j nofun
  have hcount : 0 < w.dag.preScripts.count j := count_pos_iff.mpr hj
  refine hI.of_local {
    held := fun _ _ => hn.take rfl rfl rfl ?_
    preRun := by
      simp only [view, withDag_dag, count_erase_self]
      omega
    postRun := by simpa using zero_le_ite _ }
  simp only [places, view, withDag_dag, withDag_clusters, count_erase_self]
  omega

theorem filter_erase_length {α : Type} [BEq α] [LawfulBEq α] {l : List α} {a : α} {q : α → Bool}
    (ha : q a = true) (hl : a ∈ l) : ((l.erase a).filter q).length + 1 = (l.filter q).length := by
  have hmem : a ∈ l.filter q := mem_filter.mpr ⟨hl, ha⟩
  have hpos := length_pos_of_mem hmem
  rw [← erase_filter, length_erase_of_mem hmem]
  omega

variable {id : CondorID} {x : Exit} {new : JobInfo} {c : Cluster} {s s' : State n}
  {f : Job n → Job n} {P : State n → ℤ → Prop} {isRetry : Bool}

/-- The table for ids leads from the event of a POST script to its node. -/
theorem NodeOk.hash_posted (hn : NodeOk D r hash info j v)
    (hj : (id, j, x) ∈ v.posts) : id.cluster = -1 ∨ hash id.key = some j := by
  have hpos : 0 < v.posts.length := length_pos_of_mem hj
  have hplaces := hn.places
  have hskips : v.skips = [] := by
    rw [← length_eq_zero_iff]
    unfold View.places at hplaces
    omega
  have hact := hn.active (by unfold View.places; omega)
  have hid : id = postID D j v.job.condorID := hn.posted _ hj
  unfold postID at hid
  obtain hminus | ⟨hhash, hnoop⟩ := hn.identified hact.2 hskips
  · left
    split at hid <;> rw [hid] <;> exact hminus
  · right
    split at hid
    · rw [hid]
      exact hhash
    · rename_i hno
      rw [hid]
      have hkey : (⟨v.job.condorID.cluster, 0, 0⟩ : CondorID).key = v.job.condorID.key := by
        have hno' : v.job.condorID.isNoop = false := by simpa [hno] using hnoop
        simp only [key, index, hno']
        simp [isNoop, noopNodeProcId]
      rw [hkey]
      exact hhash

theorem info_update {id id' : CondorID} (hid : id.cluster = -1 ∨ s.eventIDHash id.key = some j)
    (hne : update s.jobHash id new id' ≠ s.jobHash id') :
    id'.cluster = -1 ∨ s.eventIDHash id'.key = some j := by
  by_cases heq : id' = id
  · rwa [heq]
  · exact absurd (update_of_ne heq ..) hne

theorem Inv.takePost (hI : Inv D cfg r w .free) (new : JobInfo)
    (hj : (id, j, x) ∈ w.dag.posts) (hs : (w.dag.jobs j).status = .postrun) :
    Inv D cfg r (w.withDag { w.dag with
      posts := w.dag.posts.erase (id, j, x)
      jobHash := update w.dag.jobHash id new
      postRunNodeCount := w.dag.postRunNodeCount - 1 }) (.held j .fine) := by
  have hn := hI.node j nofun
  have hmem : (id, j, x) ∈ (w.view j).posts := by simp [view, hj]
  have hlen := filter_erase_length (q := fun e => e.2.1 = j) (by simp) hj
  refine hI.of_local {
    view := fun i hi => by simp [view, filter_erase_of_ne (a := (id, j, x)) (fun e => e.2.1) hi]
    info := fun id' hne => info_update (hn.hash_posted hmem) hne
    held := fun _ _ => hn.take rfl rfl rfl ?_
    postRun := by simp [view, hs] }
  simp only [places, view, withDag_dag, withDag_clusters]
  omega

/-- Only the POST script of a node and its event change. -/
theorem NodeOk.changePost {info' : CondorID → JobInfo} {k : ℕ} {ps : List (CondorID × Fin n × Exit)}
    (hn : NodeOk D r hash info j v) (hp : v.post ≠ 0 ∨ v.posts ≠ []) (hk : k + ps.length ≤ 1)
    (hps : ∀ e ∈ ps, e.1 = postID D j v.job.condorID) :
    NodeOk D r hash info' j { v with post := k, posts := ps } := by
  have hplaces := hn.places
  rw [← length_pos_iff] at hp
  have hact := hn.active (by unfold View.places; omega)
  unfold View.places at hplaces
  have hcl : v.clusters = [] := length_eq_zero_iff.mp (by omega)
  exact {
    places := by
      unfold View.places
      dsimp only
      omega
    waiting := fun hw => absurd (hact.1.symm.trans hw) false_ne_true
    ready := hn.ready
    pre := hn.pre
    post := fun _ => hn.post (by rwa [← length_pos_iff])
    cluster := hn.cluster
    counted := fun hc => absurd (hact.2.symm.trans hc) false_ne_true
    done := hn.done
    prerun := hn.prerun
    submitted := hn.submitted
    started := hn.started
    queued := hn.queued
    identified := hn.identified
    clusters := fun c hc => absurd (hcl ▸ hc : c ∈ []) (not_mem_nil)
    posted := hps }

theorem Inv.dropPost (hI : Inv D cfg r w .free) (new : JobInfo) (hj : (id, j, x) ∈ w.dag.posts) :
    Inv D cfg r (w.withDag { w.dag with
      posts := w.dag.posts.erase (id, j, x)
      jobHash := update w.dag.jobHash id new }) .free := by
  have hn := hI.node j nofun
  have hmem : (id, j, x) ∈ (w.view j).posts := by simp [view, hj]
  have hlen := filter_erase_length (q := fun e => e.2.1 = j) (by simp) hj
  refine hI.of_local {
    view := fun i hi => by simp [view, filter_erase_of_ne (a := (id, j, x)) (fun e => e.2.1) hi]
    info := fun id' hne => info_update (hn.hash_posted hmem) hne
    node := fun _ => ?_ }
  have hplaces := hn.places
  simp only [places, view] at hplaces
  refine hn.changePost (.inr (ne_nil_of_mem hmem)) (show _ ≤ _ from ?_) fun e he => hn.posted e ?_
  · simp only [withDag_dag]
    omega
  · simp only [view, mem_filter] at he ⊢
    exact ⟨mem_of_mem_erase he.1, he.2⟩

theorem insertEventID_eq {s s' : State n} {id : CondorID} (hs : insertEventID s id j = some s') :
    ∃ hash', s' = { s with
        jobs := update s.jobs j { s.jobs j with condorID := id }
        eventIDHash := hash' } ∧
      (hash' = s.eventIDHash ∨ s.eventIDHash id.key = none ∧
        hash' = update s.eventIDHash id.key (some j)) := by
  simp only [insertEventID] at hs
  split at hs
  · rename_i hnone
    cases hs
    exact ⟨_, rfl, .inr ⟨hnone, rfl⟩⟩
  · split_ifs at hs
    cases hs
    exact ⟨_, rfl, .inl rfl⟩

theorem Inv.takeSkip (hI : Inv D cfg r w .free) (hj : (id, j) ∈ w.dag.skips)
    (hs : insertEventID { w.dag with
      skips := w.dag.skips.erase (id, j)
      preRunNodeCount := w.dag.preRunNodeCount - 1 } id j = some s) :
    Inv D cfg r (w.withDag s) (.held j .skipped) := by
  have hn := hI.node j nofun
  have hlen := filter_erase_length (q := fun e => e.2 = j) (by simp) hj
  have hplaces := hn.places
  simp only [places, view] at hplaces
  have hcl : (w.view j).clusters = [] :=
    length_eq_zero_iff.mp (by simp only [view]; omega)
  have hact := hn.active (by simp only [places, view]; omega)
  obtain ⟨hash', rfl, hhash⟩ := insertEventID_eq hs
  have hknown := hI.skips _ hj
  refine hI.of_local (x := j) {
    view := fun i hi => by simp [view, hi, filter_erase_of_ne (a := (id, j)) Prod.snd hi]
    hash := fun i hi k hk => by
      rcases hhash with rfl | ⟨hnone, rfl⟩
      · exact hk
      · have hne : k ≠ id.key := by
          rintro rfl
          rw [hnone] at hk
          cases hk
        exact (update_of_ne hne ..).trans hk
    held := fun m hm => ?_
    preRun := by
      simp only [view, withDag_dag]
      omega
    postRun := by simpa using zero_le_ite _
    hashKnown := fun k hk => by
      rcases hhash with rfl | ⟨-, rfl⟩
      · exact .inl hk
      · by_cases hkey : k = id.key
        · subst hkey
          exact .inr hknown
        · left
          simpa [update_of_ne hkey] using hk
    skips := fun e he => .inl (mem_of_mem_erase he) }
  cases hm
  exact {
    places := by
      simp only [places, view, withDag_dag, withDag_clusters]
      omega
    waiting := by simpa [view, isWaiting] using hact.1
    counted := by simpa [view] using hact.2
    queued := by
      have hcl' : w.clusters j = [] := hcl
      simpa [view, hcl'] using hn.queued
    identified := fun hne => absurd rfl hne }

/-! ## Jobs -/

structure InCluster (D : DagFile n) (hash : Bool × ℤ → Option (Fin n)) (info : CondorID → JobInfo)
    (j : Fin n) (v : View n) (c : Cluster) : Prop where
  waiting : isWaiting D j v.job = false
  counted : v.job.countedAsDone = false
  identified : Identified D hash j v.job
  queued : v.job.queuedNodeJobProcs = c.running.length
  ok : ClusterOk info v.job c

theorem NodeOk.in_cluster (hn : NodeOk D r hash info j v) (hc : v.clusters = [c]) :
    InCluster D hash info j v c := by
  have hp := hn.places
  have hact := hn.active (by simp [hc])
  have hlen : v.clusters.length = 1 := by simp [hc]
  unfold View.places at hp
  have hskips : v.skips = [] := length_eq_zero_iff.mp (by omega)
  exact ⟨hact.1, hact.2, hn.identified hact.2 hskips, by simpa [hc] using hn.queued,
    hn.clusters c (by simp [hc])⟩

theorem updateJobCounts_eq {change : ℤ} (hs : updateJobCounts D s j change = some s') :
    ∃ cur, s' = { s with
        numJobsSubmitted := s.numJobsSubmitted + change
        currentJobs := cur } ∧
      ∀ k, cur k = s.currentJobs k + if (D.node j).throttle = some k then change else 0 := by
  unfold updateJobCounts at hs
  split_ifs at hs
  cases ht : (D.node j).throttle with
  | none =>
    simp only [ht, some.injEq] at hs
    exact ⟨s.currentJobs, hs.symm, by simp⟩
  | some c =>
    simp only [ht] at hs
    split_ifs at hs
    cases hs
    refine ⟨_, rfl, fun k => ?_⟩
    by_cases hk : k = c
    · simp [hk]
    · simp [update_of_ne hk, Ne.symm hk]

theorem decrementProcCount_eq (hs : decrementProcCount D s j = some s') :
    ∃ cur δ, s' = { s.modify j (fun J => { J with
          queuedNodeJobProcs := J.queuedNodeJobProcs - 1 }) with
        numJobsSubmitted := s.numJobsSubmitted + δ
        currentJobs := cur } ∧
      (∀ k, cur k = s.currentJobs k + if (D.node j).throttle = some k then δ else 0) ∧
      δ = if (s.jobs j).queuedNodeJobProcs = 1 then -1 else 0 := by
  simp only [decrementProcCount, modify_self, Job.allProcsDone, decide_eq_true_eq] at hs
  split_ifs at hs
  · obtain ⟨cur, rfl, hcur⟩ := updateJobCounts_eq hs
    exact ⟨cur, -1, rfl, hcur, by rw [if_pos (by omega)]⟩
  · cases hs
    exact ⟨s.currentJobs, 0, by simp [State.modify], by simp, by rw [if_neg (by omega)]⟩

theorem NodeOk.hash_ending (hn : NodeOk D r hash info j v)
    (hc : v.clusters = [c]) (hend : c.mayEnd id = true) :
    c.pending = [] ∧ id ∈ c.running ∧ hash id.key = some j := by
  simp only [Cluster.mayEnd, and_eq_true, List.isEmpty_iff, List.contains_iff_mem] at hend
  have hmem : c ∈ v.clusters := by simp [hc]
  exact ⟨hend.1, hend.2, (hn.hash_of_mem hmem (List.mem_append_right _ hend.2)).1⟩

theorem Inv.endLast (hI : Inv D cfg r w .free) (m : Mark) (hc : w.clusters j = [c])
    (hend : c.mayEnd id = true) (hover : (c.finish id).isOver = true)
    (hs : decrementProcCount D { w.dag with
      jobHash := update w.dag.jobHash id new } j = some s) :
    Inv D cfg r ((w.withDag s).setClusters j []) (.held j m) := by
  have hn := hI.node j nofun
  have hcl : (w.view j).clusters = [c] := hc
  obtain ⟨hpending, hid, hhash⟩ := hn.hash_ending hcl hend
  have hplaces := hn.places
  have hact := hn.active (by simp [hcl])
  simp only [places, view, hc, List.length_singleton] at hplaces
  have hlen : c.running.length = 1 := by
    simp only [Cluster.finish, Cluster.isOver, hpending, List.isEmpty_nil, Bool.true_and,
      List.isEmpty_iff] at hover
    have herase := List.length_erase_of_mem hid
    rw [hover] at herase
    have hpos := List.length_pos_of_mem hid
    simp only [List.length_nil] at herase
    omega
  have hq : (w.dag.jobs j).queuedNodeJobProcs = 1 := by
    have hqueued : (w.dag.jobs j).queuedNodeJobProcs = _ := hn.queued
    rw [hqueued]
    simp [hcl, hlen]
  obtain ⟨cur, δ, rfl, hcur, hδ⟩ := decrementProcCount_eq hs
  obtain rfl : δ = -1 := hδ.trans (if_pos hq)
  refine hI.of_local {
    info := fun id' hne => info_update (.inr hhash) hne
    held := fun _ _ => ?_
    postRun := by simpa [State.modify] using zero_le_ite _
    numSubmitted := by simp [view, hc]
    current := by simpa [view, hc] using hcur
    maxJobs := .inl (by simp)
    categoryMax := fun k _ _ => .inl (by
      simp only [setClusters_dag, withDag_dag, hcur]
      split <;> omega) }
  exact {
    places := by
      simp only [places, view, setClusters_dag, withDag_dag, setClusters_self,
        State.modify, List.length_nil]
      omega
    waiting := by simpa [view, isWaiting] using hact.1
    counted := by simpa [view] using hact.2
    queued := by simp [view, hq]
    identified := fun _ => by
      have hskips : (w.view j).skips = [] :=
        List.length_eq_zero_iff.mp (by simp only [view]; omega)
      simpa [view, State.modify] using hn.identified hact.2 hskips }

theorem NodeOk.of_cluster (hc : v.clusters = [c]) (hp : v.places ≤ 1)
    (hw : isWaiting D j v.job = false) (hcount : v.job.countedAsDone = false)
    (hs : v.job.status = .submitted ∨ v.job.status = .error ∨ v.job.status = .futile)
    (hq : v.job.queuedNodeJobProcs = c.running.length) (hid : Identified D hash j v.job)
    (hok : ClusterOk info v.job c) : NodeOk D r hash info j v := by
  have hlen : v.clusters.length = 1 := by simp [hc]
  have hne : v.clusters ≠ [] := by simp [hc]
  have hp' := hp
  unfold View.places at hp'
  have hskips : v.skips = [] := length_eq_zero_iff.mp (by omega)
  have hposts : v.posts = [] := length_eq_zero_iff.mp (by omega)
  exact {
    places := hp
    waiting := fun hw' => absurd (hw.symm.trans hw') false_ne_true
    ready := fun hr => absurd (by omega) hr
    pre := fun hpre => hpre.elim (fun hr => absurd (by omega) hr) (absurd hskips)
    post := fun hpost => hpost.elim (fun hr => absurd (by omega) hr) (absurd hposts)
    cluster := fun _ => hs
    counted := fun hc' => absurd (hcount.symm.trans hc') false_ne_true
    done := fun _ hd => by simp [hd] at hs
    prerun := fun hpre => by simp [hpre] at hs
    submitted := fun _ => hne
    started := fun _ hr _ => by simp [hr] at hs
    queued := by simp [hc, hq]
    identified := fun _ _ => hid
    clusters := fun c' hc' => by
      obtain rfl : c' = c := by simpa [hc] using hc'
      exact hok
    posted := fun e he => by simp [hposts] at he }

theorem Inv.endMore (hI : Inv D cfg r w .free) (hc : w.clusters j = [c]) (hend : c.mayEnd id = true)
    (hover : (c.finish id).isOver = false) (hs : decrementProcCount D { w.dag with
      jobHash := update w.dag.jobHash id new } j = some s) :
    Inv D cfg r ((w.withDag s).setClusters j [c.finish id]) .free := by
  have hn := hI.node j nofun
  have hcl : (w.view j).clusters = [c] := hc
  obtain ⟨hpending, hid, hhash⟩ := hn.hash_ending hcl hend
  obtain ⟨hw, hcount, hident, hq, hok⟩ := hn.in_cluster hcl
  have hplaces := hn.places
  have herase := length_erase_of_mem hid
  have hmore : c.running.erase id ≠ [] := by
    simpa [hpending] using hover
  have hpos' := length_pos_iff.mpr hmore
  obtain ⟨cur, δ, rfl, hcur, hδ⟩ := decrementProcCount_eq hs
  obtain rfl : δ = 0 := by
    refine hδ.trans (if_neg ?_)
    change (w.dag.jobs j).queuedNodeJobProcs = _ at hq
    dsimp only
    omega
  have hnd : (c.running).Nodup := (nodup_append.mp hok.nodup).2.1
  refine hI.of_local {
    info := fun id' hne => info_update (.inr hhash) hne
    node := fun _ => ?_
    numSubmitted := by simp [view, hc]
    current := by simpa [view, hc] using hcur
    maxJobs := .inl (by simp)
    categoryMax := fun k _ _ => .inl (by simp [hcur]) }
  refine NodeOk.of_cluster (c := c.finish id) (by simp [view]) ?_ ?_ ?_ ?_ ?_ ?_ ?_
  · simpa [view, State.modify, hc] using hplaces
  · simpa [view, isWaiting] using hw
  · simpa [view] using hcount
  · simpa [view] using hn.cluster (by simp [hcl])
  · change (w.dag.jobs j).queuedNodeJobProcs = _ at hq
    simp only [view, setClusters_dag, withDag_dag, modify_self, Cluster.finish]
    omega
  · simpa [view, State.modify] using hident
  · exact {
      notOver := hover
      nodup := by simpa [hpending] using hnd.erase id
      key := fun id' hid' => by
        simp only [Cluster.finish, hpending] at hid'
        simpa [view] using hok.key id' (by simp [mem_of_mem_erase hid'])
      pending := fun id' hid' => by simp [hpending] at hid'
      running := fun id' hid' => by
        have hne : id' ≠ id := by
          rintro rfl
          exact hnd.not_mem_erase hid'
        simpa [State.modify, update_of_ne hne] using
          hok.running id' (mem_of_mem_erase hid')
      submitted := by simpa [view] using hok.submitted }

/-- The submit event of a job moves it to the running ones. -/
theorem ClusterOk.submit (hok : ClusterOk info J c) (hp : id ∈ c.pending) (hid : J'.condorID = id) :
    ClusterOk (update info id { submitCount := 1 }) J' (c.submit id) := by
  have hkey := hok.key id (mem_append_left _ hp)
  obtain ⟨hnd, hnd', hdis⟩ := nodup_append.mp hok.nodup
  have hnotin : id ∉ c.running := fun hmem => hdis id hp id hmem rfl
  simp only [Cluster.submit, hp, if_true]
  have hne : ∀ id' ∈ c.pending.erase id, id' ≠ id := by
    rintro id' hmem rfl
    exact hnd.not_mem_erase hmem
  exact {
    notOver := by simp
    nodup := by
      refine nodup_append.mpr ⟨hnd.erase id, nodup_cons.mpr ⟨hnotin, hnd'⟩, ?_⟩
      intro a ha b hb
      rcases mem_cons.mp hb with rfl | hb
      · exact hne a ha
      · exact hdis a (mem_of_mem_erase ha) b hb
    key := fun id' hid' => by
      rw [hid, hkey]
      simp only [mem_append, mem_cons] at hid'
      rcases hid' with hmem | rfl | hmem
      · exact hok.key id' (mem_append_left _ (mem_of_mem_erase hmem))
      · exact hkey
      · exact hok.key id' (mem_append_right _ hmem)
    pending := fun id' hid' => by
      rw [update_of_ne (hne id' hid')]
      exact hok.pending id' (mem_of_mem_erase hid')
    running := fun id' hid' => by
      rcases mem_cons.mp hid' with rfl | hmem
      · exact update_self ..
      · rw [update_of_ne (fun heq : id' = id => hnotin (heq ▸ hmem))]
        exact hok.running id' hmem
    submitted := by
      rw [hid, cluster_of_key hkey]
      exact hok.submitted }

theorem Inv.submitEvent (hI : Inv D cfg r w .free) (hc : w.clusters j = [c]) (hp : id ∈ c.pending) :
    Inv D cfg r ((w.withDag ({ w.dag with
        jobHash := update w.dag.jobHash id { submitCount := 1 } }.modify j fun J =>
      { J with
        condorID := id
        queuedNodeJobProcs := J.queuedNodeJobProcs + 1
        numSubmittedProcs := J.numSubmittedProcs + 1 })).setClusters j [c.submit id]) .free := by
  have hn := hI.node j nofun
  have hcl : (w.view j).clusters = [c] := hc
  obtain ⟨hw, hcount, -, hq, hok⟩ := hn.in_cluster hcl
  have hplaces := hn.places
  have hmem : c ∈ (w.view j).clusters := by simp [hcl]
  have hhash := (hn.hash_of_mem hmem (mem_append_left _ hp)).1
  refine hI.of_local {
    info := fun id' hne => info_update (.inr hhash) hne
    node := fun _ => ?_
    numSubmitted := by simp [view, hc, State.modify]
    current := by simp [view, hc, State.modify] }
  refine NodeOk.of_cluster (c := c.submit id) (by simp [view]) ?_ ?_ ?_ ?_ ?_ ?_ ?_
  · simpa [view, State.modify, hc] using hplaces
  · simpa [view, isWaiting] using hw
  · simpa [view] using hcount
  · simpa [view] using hn.cluster (by simp [hcl])
  · change (w.dag.jobs j).queuedNodeJobProcs = _ at hq
    simp only [view, setClusters_dag, withDag_dag, modify_self, Cluster.submit, hp, if_true,
      length_cons]
    omega
  · right
    have hnode := hn.hash_of_mem hmem (mem_append_left _ hp)
    simpa [view] using ⟨hnode.1, hnode.2.1⟩
  · exact hok.submit hp (by simp [view])

/-! ## A node in hand -/

theorem Inv.touch (hI : Inv D cfg r w (.held j m)) (hf : Kept (f (w.dag.jobs j)) (w.dag.jobs j)) :
    Inv D cfg r (w.withDag (w.dag.modify j f)) (.held j m) := by
  have hh := hI.held j m rfl
  refine hI.of_local (x := j) {
    wait := by simpa using hf.wait
    numWaiting := by simpa using hf.numWaiting
    parentsDone := by simpa using hf.parentsDone
    counted := by simpa using hf.countedAsDone
    held := fun m' hm' => ?_ }
  cases hm'
  exact {
    places := hh.places
    waiting := by simpa [view] using (isWaiting_congr hf.parentsDone).trans hh.waiting
    counted := by simpa [view] using hf.countedAsDone.trans hh.counted
    queued := by simpa [view] using hf.queued.trans hh.queued
    identified := fun hm => by
      have hid := hh.identified hm
      simpa [view, hf.condorID, State.modify] using hid }

/-- A job of a node has failed, and others are still in the queue. -/
theorem Inv.fault (hI : Inv D cfg r w .free) (hc : w.clusters j ≠ [])
    (hf : Kept (f (w.dag.jobs j)) (w.dag.jobs j))
    (hs : (f (w.dag.jobs j)).status = (w.dag.jobs j).status ∨ (f (w.dag.jobs j)).status = .error) :
    Inv D cfg r (w.withDag (w.dag.modify j f)) .free := by
  have hn := hI.node j nofun
  have hplaces := hn.places
  obtain ⟨c, hc'⟩ : ∃ c, w.clusters j = [c] := by
    rw [← length_eq_one_iff]
    have hpos := length_pos_iff.mpr hc
    simp only [places, view] at hplaces
    omega
  have hcl : (w.view j).clusters = [c] := hc'
  obtain ⟨hw, hcount, hident, hq, hok⟩ := hn.in_cluster hcl
  have hstatus := hn.cluster (by simp [hcl])
  have hnpost : (w.dag.jobs j).status ≠ .postrun := fun hpost => by
    simp [view, hpost] at hstatus
  have hstatus' : (f (w.dag.jobs j)).status = .submitted ∨ (f (w.dag.jobs j)).status = .error ∨
      (f (w.dag.jobs j)).status = .futile := by
    rcases hs with hs | hs
    · rw [hs]; exact hstatus
    · exact .inr (.inl hs)
  have hnpost' : (f (w.dag.jobs j)).status ≠ .postrun := fun hpost => by simp [hpost] at hstatus'
  refine hI.of_local (x := j) {
    wait := by simpa using hf.wait
    numWaiting := by simpa using hf.numWaiting
    parentsDone := by simpa using hf.parentsDone
    counted := by simpa using hf.countedAsDone
    node := fun _ => ?_
    postRun := by simp [view, State.modify, hnpost, hnpost'] }
  refine NodeOk.of_cluster hc' hplaces ?_ ?_ ?_ ?_ ?_ ?_
  · simpa [view] using (isWaiting_congr hf.parentsDone).trans hw
  · simpa [view] using hf.countedAsDone.trans hcount
  · simpa [view] using hstatus'
  · simpa [view] using hf.queued.trans hq
  · simpa [view, hf.condorID, State.modify] using hident
  · exact { hok with
      key := fun id hid => by simpa [view, hf.condorID] using hok.key id hid
      submitted := by simpa [view, hf.condorID] using hok.submitted }

/-- The node is in none of the places. -/
structure Nowhere (v : View n) : Prop where
  ready : v.ready = 0
  pre : v.pre = 0
  post : v.post = 0
  skips : v.skips = []
  posts : v.posts = []
  clusters : v.clusters = []

theorem View.nowhere (hp : v.places = 0) : Nowhere v := by
  unfold places at hp
  refine ⟨by omega, by omega, by omega, ?_, ?_, ?_⟩ <;>
    exact length_eq_zero_iff.mp (by omega)

theorem HeldOk.nowhere (hh : HeldOk D hash j m v) : Nowhere v := View.nowhere hh.places

theorem NodeOk.of_nowhere (hp : v.places = 0) (hq : v.job.queuedNodeJobProcs = 0)
    (hw : isWaiting D i v.job = true → v.job.status = .ready ∨ v.job.status = .futile ∨
      v.job.status = .done ∧ (D.node i).preDone = true)
    (hcount : v.job.countedAsDone = true → (v.job.status = .done ∨ v.job.status = .futile) ∧
      (isWaiting D i v.job = false ∨ (D.node i).preDone = true))
    (hdone : i ∉ r.unmarked → v.job.status = .done → v.job.countedAsDone = true)
    (hpre : v.job.status ≠ .prerun) (hsub : v.job.status ≠ .submitted)
    (hstart : i ∉ r.unstarted → v.job.status = .ready → isWaiting D i v.job = true)
    (hid : v.job.countedAsDone = false → Identified D hash i v.job) : NodeOk D r hash info i v := by
  obtain ⟨hready, hpre', hpost, hskips, hposts, hclusters⟩ := nowhere hp
  exact {
    places := hp.trans_le zero_le_one
    waiting := fun hwait => ⟨hp, hw hwait⟩
    ready := fun hr => absurd hready hr
    pre := fun hne => absurd hne (by simp [hpre', hskips])
    post := fun hne => absurd hne (by simp [hpost, hposts])
    cluster := fun hne => absurd hclusters hne
    counted := fun hc => ⟨hp, hcount hc⟩
    done := hdone
    prerun := fun hs => absurd hs hpre
    submitted := fun hs => absurd hs hsub
    started := fun ht hs hwait => absurd (hwait.symm.trans (hstart ht hs)) false_ne_true
    queued := by simpa [hclusters] using hq
    identified := fun hc _ => hid hc
    clusters := fun c hc => by simp [hclusters] at hc
    posted := fun e he => by simp [hposts] at he }

section

variable (hI : Inv D cfg r w (.held j m))
include hI

theorem Inv.enqueue (hm : m ≠ .skipped) (g : ℤ) (p : Fin n → ℤ)
    (hs : (w.dag.jobs j).status = .ready) :
    Inv D cfg r (w.withDag { w.dag with
      readyQ := w.dag.readyQ ++ [j], generation := g, subPriority := p }) .free := by
  have hh := hI.held j m rfl
  obtain ⟨hready, hpre, hpost, hskips, hposts, hclusters⟩ := hh.nowhere
  simp only [view] at hready hpre hpost hskips hposts hclusters
  refine hI.of_local (x := j) {
    node := fun _ => ?_
    postRun := by simp [view, hs] }
  refine hh.put hm ⟨rfl, rfl, rfl, rfl, rfl, rfl⟩ hclusters hskips hposts ?_ ?_ ?_ ?_ ?_ ?_
  · simp [view, hskips, hposts, hclusters]
    omega
  all_goals simp [view, hs, hpre, hpost]

theorem Inv.prerun (hm : m ≠ .skipped) : Inv D cfg r (w.withDag { w.dag.setStatus j .prerun with
      preRunNodeCount := w.dag.preRunNodeCount + 1
      preScripts := w.dag.preScripts ++ [j] }) .free := by
  have hh := hI.held j m rfl
  obtain ⟨hready, hpre, hpost, hskips, hposts, hclusters⟩ := hh.nowhere
  simp only [view] at hready hpre hpost hskips hposts hclusters
  refine hI.of_local (x := j) {
    node := fun _ => ?_ }
  refine hh.put hm ?_ hclusters hskips hposts ?_ ?_ ?_ ?_ ?_ ?_
  · constructor <;> simp [view]
  · simp [view, State.modify, hskips, hposts, hclusters]
    omega
  all_goals simp [view, State.modify, hready, hpost]

theorem Inv.post (hm : m ≠ .skipped) : Inv D cfg r (w.withDag (runPostScript w.dag j)) .free := by
  have hh := hI.held j m rfl
  obtain ⟨hready, hpre, hpost, hskips, hposts, hclusters⟩ := hh.nowhere
  simp only [view] at hready hpre hpost hskips hposts hclusters
  refine hI.of_local (x := j) {
    node := fun _ => ?_ }
  refine hh.put hm ?_ hclusters hskips hposts ?_ ?_ ?_ ?_ ?_ ?_
  · constructor <;> simp [view]
  · simp [view, State.modify, hskips, hposts, hclusters]
    omega
  all_goals simp [view, State.modify, hready, hpre]

theorem Inv.skip (hs : (w.dag.jobs j).status = .prerun) :
    Inv D cfg r (w.withDag { writePreSkipEvent w.dag j with
      preRunNodeCount := w.dag.preRunNodeCount + 1 }) .free := by
  have hh := hI.held j m rfl
  obtain ⟨hready, hpre, hpost, hskips, hposts, hclusters⟩ := hh.nowhere
  simp only [view] at hready hpre hpost hskips hposts hclusters
  have hready' : w.dag.readyQ.count j = 0 ∧ w.dag.deferredJobs.count j = 0 := by omega
  refine hI.of_local (x := j) {
    node := fun _ => ?_
    postRun := by
      simp [view, State.modify, hs]
    known := fun k hk => by
      obtain ⟨b, k⟩ := k
      cases b with
      | false => exact hk
      | true => exact le_trans hk (by simp)
    skips := fun e he => by
      rcases mem_append.mp he with he | he
      · exact .inl he
      · obtain rfl := mem_singleton.mp he
        simp [World.Known, key, isNoop, State.nextFakeID] }
  have hc : (w.dag.jobs j).countedAsDone = false := hh.counted
  have hq : (w.dag.jobs j).queuedNodeJobProcs = 0 := hh.queued
  constructor <;> simp [view, State.modify, hs, hready', hpre, hpost, hskips, hposts,
    hclusters, hc, hq]
  exact hh.waiting

theorem Inv.leave (hm : m ≠ .skipped) (k : ℤ)
    (hs : (w.dag.jobs j).status = .error ∨ (w.dag.jobs j).status = .futile) :
    Inv D cfg r (w.withDag { w.dag with numNodesFailed := k }) .free := by
  have hh := hI.held j m rfl
  obtain ⟨hready, hpre, hpost, hskips, hposts, hclusters⟩ := hh.nowhere
  refine hI.of_local (x := j) {
    node := fun _ => ?_
    postRun := by rcases hs with hs | hs <;> simp [view, hs] }
  have hplaces := hh.places
  have hne : ∀ s, s ≠ .error → s ≠ .futile → (w.view j).job.status ≠ s := by
    rintro s herror hfutile rfl
    exact hs.elim herror hfutile
  exact hh.put (u := w.view j) hm ⟨rfl, rfl, rfl, rfl, rfl, rfl⟩ hclusters hskips hposts (by omega)
    (by simp [hready, hne]) (by simp [hpre, hne]) (by simp [hpost]) (hne _ (by simp) (by simp))
    (hne _ (by simp) (by simp))

end

theorem Inv.postExit (hI : Inv D cfg r w .free) (x : Exit) (hj : j ∈ w.dag.postScripts) :
    Inv D cfg r (w.withDag { w.dag with
      postScripts := w.dag.postScripts.erase j
      posts := w.dag.posts ++ [(postID D j (w.dag.jobs j).condorID, j, x)] }) .free := by
  have hn := hI.node j nofun
  have hcount : 0 < w.dag.postScripts.count j := count_pos_iff.mpr hj
  have hplaces := hn.places
  simp only [places, view] at hplaces
  have hposts : w.dag.posts.filter (fun e => e.2.1 = j) = [] := length_eq_zero_iff.mp (by omega)
  refine hI.of_local {
    node := fun _ => hn.changePost (.inl hcount.ne') (show _ ≤ _ from ?_) fun e he => ?_ }
  · simp
    omega
  · simp only [withDag_dag, filter_append, hposts, nil_append, mem_filter, mem_singleton] at he
    rw [he.1]
    rfl

/-! ## Submissions -/

/-- The ids of a new cluster: their place in the tables is new, and known from then on. -/
structure NewIds (w w' : World n) (id : CondorID) (ids : List CondorID) : Prop where
  known : ∀ k, w.Known k → w'.Known k
  placed : w'.Known id.key
  fresh : ¬ w.Known id.key
  minus : id.cluster ≠ -1
  ne_nil : ids ≠ []
  nodup : ids.Nodup
  key : ∀ id' ∈ ids, id'.key = id.key

theorem submitNodeJob_eq (hs : submitNodeJob D s j = some s') :
    ∃ hash', s' = { s.modify j (fun J => { J with
          condorID := defaultCondorId
          submitTries := J.submitTries + 1 }) with eventIDHash := hash' } ∧
      (hash' = s.eventIDHash ∨ (s.jobs j).condorID.cluster ≠ -1 ∧
        hash' = update s.eventIDHash ((D.node j).noop, (s.jobs j).condorID.index) none) := by
  simp only [submitNodeJob] at hs
  split_ifs at hs with hminus
  · cases hs
    exact ⟨_, rfl, .inl rfl⟩
  · cases hs
    exact ⟨_, rfl, .inr ⟨hminus, rfl⟩⟩

theorem Inv.forget (hI : Inv D cfg r w (.held j .fine))
    (hs : submitNodeJob D w.dag j = some s) : Inv D cfg r (w.withDag s) (.held j .fine) := by
  have hh := hI.held j .fine rfl
  obtain ⟨hash', rfl, hhash⟩ := submitNodeJob_eq hs
  have hid : Identified D w.dag.eventIDHash j (w.dag.jobs j) := hh.identified (by simp)
  have hother : ∀ k, hash' k = w.dag.eventIDHash k ∨ hash' k = none ∧
      w.dag.eventIDHash k = some j := by
    intro k
    rcases hhash with rfl | ⟨hminus, rfl⟩
    · exact .inl rfl
    · obtain ⟨hsome, hnoop⟩ := hid.resolve_left hminus
      have hkey : ((D.node j).noop, (w.dag.jobs j).condorID.index) =
          (w.dag.jobs j).condorID.key := by rw [key, hnoop]
      rw [hkey]
      by_cases hk : k = (w.dag.jobs j).condorID.key
      · subst hk
        exact .inr ⟨update_self .., hsome⟩
      · exact .inl (update_of_ne hk ..)
  refine hI.of_local (x := j) {
    hash := fun i hi k hk => by
      rcases hother k with heq | ⟨-, hsome⟩
      · exact heq.trans hk
      · exact absurd (some.inj (hk.symm.trans hsome)) hi
    held := fun m hm => ?_
    hashKnown := fun k hk => by
      rcases hother k with heq | ⟨hnone, -⟩
      · exact .inl (heq ▸ hk)
      · exact absurd hnone hk }
  exact {
    places := hh.places
    waiting := by simpa [view, isWaiting] using hh.waiting
    counted := by simpa [view] using hh.counted
    queued := by simpa [view] using hh.queued
    identified := fun _ => .inl (by simp [view, defaultCondorId]) }

theorem processSuccessfulSubmit_eq (hs : processSuccessfulSubmit D s j id = some s') :
    ∃ cur, s' = { s.modify j (fun J => { J with status := .submitted, condorID := id }) with
        numJobsSubmitted := s.numJobsSubmitted + 1
        currentJobs := cur
        eventIDHash := update s.eventIDHash id.key (some j) } ∧
      (∀ k, cur k = s.currentJobs k + if (D.node j).throttle = some k then 1 else 0) ∧
      id.isNoop = (D.node j).noop ∧ s.eventIDHash id.key = none := by
  simp only [processSuccessfulSubmit] at hs
  obtain ⟨s1, h1, hs⟩ := bind_eq_some_iff.mp hs
  obtain ⟨cur, rfl, hcur⟩ := updateJobCounts_eq h1
  split_ifs at hs with hnoop hsome
  cases hs
  refine ⟨cur, ?_, hcur, not_not.mp hnoop, ?_⟩
  · simp [State.modify]
  · simpa [State.modify] using hsome

theorem Inv.accepted (hI : Inv D cfg r w (.held j .fine)) {ids : List CondorID} {f : ℤ}
    (used : List ℤ) (hs : processSuccessfulSubmit D { w.dag with fakeID := f } j id = some s)
    (hids : NewIds w { w with dag := s, used := used } id ids)
    (hmax : cfg.maxJobs = 0 ∨ w.dag.numJobsSubmitted < cfg.maxJobs)
    (hcat : isThrottled D cfg w.dag j = false) :
    Inv D cfg r ({ w with dag := s, used := used }.accept j ids) .free := by
  have hh := hI.held j .fine rfl
  obtain ⟨hready, hpre, hpost, hskips, hposts, hclusters⟩ := hh.nowhere
  simp only [view] at hready hpre hpost hskips hposts hclusters
  have hready' : w.dag.readyQ.count j = 0 ∧ w.dag.deferredJobs.count j = 0 := by omega
  obtain ⟨cur, rfl, hcur, hnoop, hnone⟩ := processSuccessfulSubmit_eq hs
  refine hI.of_local (x := j) {
    hash := fun i hi k hk => by
      have hne : k ≠ id.key := by
        rintro rfl
        exact absurd (hnone.symm.trans hk) (by simp)
      exact (update_of_ne hne ..).trans hk
    node := fun _ => ?_
    current := fun k => by simpa [view] using hcur k
    known := hids.known
    hashKnown := fun k hk => by
      by_cases heq : k = id.key
      · subst heq
        exact .inr hids.placed
      · left
        simpa [update_of_ne heq] using hk
    maxJobs := .inr (by
      simp only [accept, setClusters_dag]
      omega)
    categoryMax := fun k c hk => by
      simp only [accept, setClusters_dag, hcur]
      by_cases ht : (D.node j).throttle = some k
      · simp only [isThrottled, ht, hk, decide_eq_false_iff_not] at hcat
        omega
      · left
        simp [ht] }
  refine NodeOk.of_cluster (c := ⟨ids, []⟩) ?_ ?_ ?_ ?_ (.inl ?_) ?_ (.inr ⟨?_, ?_⟩) ?_
  · simp [view, hclusters]
  · simp [view, State.modify, hready', hpre, hpost, hskips, hposts, hclusters]
  · simpa [view, isWaiting] using hh.waiting
  · simpa [view] using hh.counted
  · simp [view]
  · simpa [view] using hh.queued
  · simp [view]
  · simpa [view] using hnoop
  · exact {
      notOver := by simp [hids.ne_nil]
      nodup := by simpa using hids.nodup
      key := fun id' hid' => by simpa [view] using hids.key id' (by simpa using hid')
      pending := fun id' hid' => by
        have hkey' := hids.key id' hid'
        by_contra hinfo
        rcases hI.info id' hinfo with hcl | hk
        · exact hids.minus ((cluster_of_key hkey').symm.trans hcl)
        · exact hids.fresh (hkey' ▸ hk)
      running := fun _ hid' => by cases hid'
      submitted := by simpa [view] using hids.minus }

theorem key_of_pos (hpos : 0 < cluster) (proc : ℤ) :
    (⟨cluster, proc, 0⟩ : CondorID).key = (false, cluster) := by
  have hne : cluster ≠ 0 := by omega
  simp [key, isNoop, hne]

theorem key_nextFakeID : s.nextFakeID.key = (true, s.fakeID + 1) := by
  simp [key, isNoop, nextFakeID]

theorem nodup_procs (procs : ℕ) :
    ((range procs).map fun p : ℕ => (⟨cluster, p, 0⟩ : CondorID)).Nodup := by
  refine nodup_range.map fun a b hab => ?_
  simp only [CondorID.mk.injEq] at hab
  omega

theorem Inv.accept (hI : Inv D cfg r w (.held j .fine)) {procs : ℕ}
    (hs : submitAccepted D w j cluster procs = some w')
    (hmax : cfg.maxJobs = 0 ∨ w.dag.numJobsSubmitted < cfg.maxJobs)
    (hcat : isThrottled D cfg w.dag j = false) : Inv D cfg r w' .free := by
  obtain ⟨s, hsub, hs⟩ := bind_eq_some_iff.mp hs
  have hI' := hI.forget hsub
  obtain ⟨hash', hs', -⟩ := submitNodeJob_eq hsub
  have hmax' : cfg.maxJobs = 0 ∨ s.numJobsSubmitted < cfg.maxJobs := by rw [hs']; exact hmax
  have hcat' : isThrottled D cfg s j = false := by rw [hs']; exact hcat
  split_ifs at hs with hnoop hnew
  · obtain ⟨s1, hsucc, hs⟩ := bind_eq_some_iff.mp hs
    cases hs
    obtain ⟨cur, rfl, -⟩ := processSuccessfulSubmit_eq hsucc
    refine hI'.accepted w.used hsucc ⟨?_, ?_, ?_, by simp [nextFakeID], by simp, by simp, by simp⟩
      hmax' hcat'
    · rintro ⟨b, k⟩ hk
      cases b with
      | false => exact hk
      | true => exact Int.le_add_one hk
    · rw [key_nextFakeID]
      exact le_rfl
    · rw [key_nextFakeID]
      exact (Int.lt_succ s.fakeID).not_ge
  · obtain ⟨hpos, hfresh, hprocs⟩ := hnew
    obtain ⟨s1, hsucc, hs⟩ := bind_eq_some_iff.mp hs
    cases hs
    obtain ⟨cur, rfl, -⟩ := processSuccessfulSubmit_eq hsucc
    refine hI'.accepted (cluster :: w.used) hsucc
      ⟨?_, ?_, ?_, ?_, ?_, nodup_procs procs, ?_⟩ hmax' hcat'
    · rintro ⟨b, k⟩ hk
      cases b with
      | false => exact mem_cons_of_mem _ hk
      | true => exact hk
    · rw [key_of_pos hpos]
      exact mem_cons_self
    · rw [key_of_pos hpos]
      exact hfresh
    · dsimp only
      omega
    · simp only [ne_eq, map_eq_nil_iff, range_eq_nil]
      omega
    · intro id' hid'
      obtain ⟨p, -, rfl⟩ := mem_map.mp hid'
      rw [key_of_pos hpos, key_of_pos hpos]

/-- Nodes change their places in the ready queue. -/
theorem Inv.queue (hI : Inv D cfg r w .free) {q ds : List (Fin n)} (g : ℤ) (p : Fin n → ℤ)
    (hq : (q ++ ds).Perm (w.dag.readyQ ++ w.dag.deferredJobs)) : Inv D cfg r (w.withDag { w.dag with
      readyQ := q, deferredJobs := ds, generation := g, subPriority := p }) .free := by
  have hview : ∀ i, (w.withDag { w.dag with
      readyQ := q, deferredJobs := ds, generation := g, subPriority := p }).view i = w.view i := by
    intro i
    have hcount := hq.count_eq i
    simp only [count_append] at hcount
    simp [view, hcount]
  exact {
    node := fun i hi => by rw [hview]; exact hI.node i hi
    held := fun i m hi => by cases hi
    waits := hI.waits
    numSubmitted := by simp only [hview]; exact hI.numSubmitted
    current := by simp only [hview]; exact hI.current
    preRun := by simp only [hview]; exact hI.preRun
    postRun := by simp only [hview]; exact hI.postRun
    numDone := by simp only [hview]; exact hI.numDone
    hash := hI.hash
    info := hI.info
    skips := hI.skips
    maxJobs := hI.maxJobs
    categoryMax := hI.categoryMax }

/-! ## Futile nodes -/

/-- What each change to a futile node keeps, with the number of changes, the loop keeps. -/
theorem setChildrenToFutile_induct
    {rec : State n → Fin n → Option (State n × ℤ)} {cs : List (Fin n)} {k m : ℤ}
    (hrec : ∀ c ∈ cs, ∀ s s' k m, rec s c = some (s', m) → P s k → P s' (k + m))
    (hstep : ∀ c ∈ cs, ∀ s k, P s k → (s.jobs c).status ≠ .futile → (D.node c).preDone = false →
      canSubmit D c (s.jobs c) = false → P (s.setStatus c .futile) (k + 1))
    (hs : setChildrenToFutile D rec cs s k = some (s', m)) (h : P s k) : P s' m := by
  induction cs generalizing s k with
  | nil =>
    simp only [setChildrenToFutile, some.injEq, Prod.mk.injEq] at hs
    rwa [← hs.1, ← hs.2]
  | cons c cs ih =>
    have hrec' := fun c' hc' => hrec c' (mem_cons_of_mem c hc')
    have hstep' := fun c' hc' => hstep c' (mem_cons_of_mem c hc')
    have hc : c ∈ c :: cs := mem_cons_self
    simp only [setChildrenToFutile] at hs
    split_ifs at hs with hfutile hdone hsub
    · exact ih hrec' hstep' hs h
    · obtain ⟨⟨s1, m1⟩, h1, hs⟩ := bind_eq_some_iff.mp hs
      exact ih hrec' hstep' hs (hrec c hc _ _ _ _ h1 h)
    · obtain ⟨⟨s1, m1⟩, h1, hs⟩ := bind_eq_some_iff.mp hs
      have hP := hstep c hc s k h hfutile (by simpa using hdone) (by simpa using hsub)
      exact ih hrec' hstep' hs (hrec c hc _ _ _ _ h1 hP)

/-- A descendant that becomes futile keeps `P`, with the number of changes. -/
def FutileStep (D : DagFile n) (j : Fin n) (P : State n → ℤ → Prop) : Prop :=
  ∀ c s k, Descendant D j c → P s k → (s.jobs c).status ≠ .futile → (D.node c).preDone = false →
    canSubmit D c (s.jobs c) = false → P (s.setStatus c .futile) (k + 1)

theorem setDescendantsToFutile_induct {l : ℕ} {k m : ℤ} (hstep : FutileStep D j P)
    (hs : setDescendantsToFutile D l s j = some (s', m)) (h : P s k) : P s' (k + m) := by
  induction l generalizing j s s' k m with
  | zero => cases hs
  | succ l ih =>
    have hchild : ∀ c ∈ (D.node j).children, Descendant D j c := fun c hc => .single hc
    refine setChildrenToFutile_induct (P := fun s m => P s (k + m)) ?_ ?_ hs (by simpa using h)
    · intro c hc s s' k' m hs hP
      rw [← add_assoc]
      exact ih (fun c' s k hc' => hstep c' s k (.head hc hc')) hs hP
    · intro c hc s k' hP hfutile hdone hsub
      rw [← add_assoc]
      exact hstep c s _ (hchild c hc) hP hfutile hdone hsub

theorem countFutile_induct (hstep : FutileStep D j P) (hs : countFutile D s j = some s')
    (h : P s 0) :
    ∃ s1 k, s' = { s1 with numNodesFutile := s1.numNodesFutile + k } ∧ P s1 k := by
  simp only [countFutile] at hs
  obtain ⟨⟨s1, k⟩, h1, hs⟩ := bind_eq_some_iff.mp hs
  have hP := setDescendantsToFutile_induct hstep h1 h
  rw [zero_add] at hP
  exact ⟨s1, k, (some.inj hs).symm, hP⟩

/-- **What becomes futile**: descendants that could not be submitted. Nothing else changes. -/
theorem countFutile_eq (hs : countFutile D s j = some s') :
    ∃ jobs k, s' = { s with jobs := jobs, numNodesFutile := k } ∧ ∀ i, jobs i = s.jobs i ∨
      jobs i = { s.jobs i with status := .futile } ∧ Descendant D j i ∧
        (s.jobs i).status ≠ .futile ∧ (D.node i).preDone = false ∧
        canSubmit D i (s.jobs i) = false := by
  let P : State n → ℤ → Prop := fun s' _ => ∃ jobs, s' = { s with jobs := jobs } ∧
    ∀ i, jobs i = s.jobs i ∨ jobs i = { s.jobs i with status := .futile } ∧ Descendant D j i ∧
      (s.jobs i).status ≠ .futile ∧ (D.node i).preDone = false ∧ canSubmit D i (s.jobs i) = false
  have hstep : FutileStep D j P := by
    rintro c _ k hc ⟨jobs, rfl, hjobs⟩ hfutile hdone hsub
    refine ⟨_, rfl, fun i => ?_⟩
    by_cases hi : i = c
    · subst hi
      have hsame : jobs i = s.jobs i := (hjobs i).resolve_right fun hnew => hfutile (by
        dsimp only
        rw [hnew.1])
      simp only [hsame] at hfutile hsub
      refine .inr ⟨?_, hc, hfutile, hdone, hsub⟩
      rw [update_self]
      exact congrArg (fun J => { J with status := .futile }) hsame
    · simp only [update_of_ne hi]
      exact hjobs i
  obtain ⟨s1, k, rfl, jobs, rfl, hjobs⟩ := countFutile_induct hstep hs ⟨_, rfl, fun i => .inl rfl⟩
  exact ⟨jobs, _, rfl, hjobs⟩

theorem NodeOk.setFutile (hn : NodeOk D r hash info i v) (hsub : canSubmit D i v.job = false) :
    NodeOk D r hash info i { v with job := { v.job with status := .futile } } := by
  have hready : v.ready = 0 := by
    by_contra hr
    have hact := hn.active (by unfold View.places; omega)
    simp [canSubmit, hn.ready hr, hact.1] at hsub
  exact {
    places := hn.places
    waiting := fun hw => ⟨(hn.waiting hw).1, .inr (.inl rfl)⟩
    ready := fun hr => absurd hready hr
    pre := fun _ => .inr rfl
    post := fun _ => .inr rfl
    cluster := fun _ => .inr (.inr rfl)
    counted := fun hc => ⟨(hn.counted hc).1, .inr rfl, (hn.counted hc).2.2⟩
    done := nofun
    prerun := nofun
    submitted := nofun
    started := nofun
    queued := hn.queued
    identified := hn.identified
    clusters := fun c hc => { hn.clusters c hc with }
    posted := hn.posted }

theorem Inv.setFutile (hI : Inv D cfg r w h) (hsub : canSubmit D i (w.dag.jobs i) = false) :
    Inv D cfg r (w.withDag (w.dag.setStatus i .futile)) h := by
  have hview : (w.withDag (w.dag.setStatus i .futile)).view i =
      { w.view i with job := { (w.view i).job with status := .futile } } := by
    simp [view, State.modify]
  refine hI.of_local (x := i) {
    node := fun hi => ?_
    held := fun m hm => ?_
    postRun := by simpa [view, State.modify] using zero_le_ite _ }
  · rw [hview]
    exact (hI.node i hi).setFutile hsub
  · rw [hview]
    exact { hI.held i m hm with }

/-- **Descendants become futile.** -/
theorem Inv.countFutile (hI : Inv D cfg r w h)
    (hs : countFutile D w.dag j = some s) : Inv D cfg r (w.withDag s) h := by
  obtain ⟨s1, k, rfl, hI1⟩ := countFutile_induct (P := fun s _ => Inv D cfg r (w.withDag s) h)
    (fun c s _ _ hP _ _ hsub => hP.setFutile hsub) hs hI
  exact { hI1 with }

/-! ## Nodes that are done -/

/-- The job of a node changes, and nothing else but what the loops have left to do. -/
theorem Inv.changeJob {r' : Rest n} {x : Fin n} {k : ℤ} (hI : Inv D cfg r w h)
    (hr : ∀ i, i ≠ x → (i ∉ r'.unmarked → i ∉ r.unmarked) ∧ (i ∉ r'.unstarted → i ∉ r.unstarted))
    (hh : ∀ i, i ≠ x → h.node ≠ some i) (hh' : h' = .free ∨ h' = .held x .fine)
    (hnode : h' = .free → NodeOk D r' w.dag.eventIDHash w.dag.jobHash x
      { w.view x with job := f (w.dag.jobs x) })
    (hheld : h' = .held x .fine →
      HeldOk D w.dag.eventIDHash x .fine { w.view x with job := f (w.dag.jobs x) })
    (hwaits : ∀ i, Waits (fun p => ((w.dag.modify x f).jobs p).countedAsDone &&
      decide ((i, p) ∉ r'.late))
      (D.parents i) ((w.dag.modify x f).jobs i))
    (hpost : (f (w.dag.jobs x)).status ≠ .postrun)
    (hk : k = w.dag.numNodesDone + ((if (f (w.dag.jobs x)).countedAsDone then 1 else 0) -
      if (w.dag.jobs x).countedAsDone then 1 else 0)) :
    Inv D cfg r' (w.withDag { w.dag.modify x f with numNodesDone := k }) h' := by
  set w' := w.withDag { w.dag.modify x f with numNodesDone := k } with hw'
  have hview : ∀ i, i ≠ x → w'.view i = w.view i := fun i hi => by
    simp [hw', view, State.modify, hi]
  have hview' : w'.view x = { w.view x with job := f (w.dag.jobs x) } := by
    simp [hw', view, State.modify]
  have hsum : ∀ F : Fin n → View n → ℤ, F x { w.view x with job := f (w.dag.jobs x) } =
      F x (w.view x) → ∑ i, F i (w'.view i) = ∑ i, F i (w.view i) := by
    intro F hF
    rw [sum_view F hview, hview']
    omega
  have hother : ∀ i, i ≠ x → h'.node ≠ some i := by
    rintro i hi heq
    rcases hh' with rfl | rfl
    · cases heq
    · exact hi (some.inj heq).symm
  exact {
    node := fun i hi => by
      by_cases hx : i = x
      · subst hx
        rw [hview']
        exact hnode (hh'.resolve_right fun heq => hi (by rw [heq]; rfl))
      · rw [hview i hx]
        have hn := hI.node i (hh i hx)
        exact { hn with
          done := fun hu => hn.done ((hr i hx).1 hu)
          started := fun ht => hn.started ((hr i hx).2 ht) }
    held := fun i m hi => by
      rcases hh' with rfl | rfl
      · cases hi
      · cases hi
        rw [hview']
        exact hheld rfl
    waits := hwaits
    numSubmitted := hI.numSubmitted.trans (hsum (fun _ v => (v.clusters.length : ℤ)) rfl).symm
    current := fun k => (hI.current k).trans (hsum (fun i v =>
      if (D.node i).throttle = some k then (v.clusters.length : ℤ) else 0) rfl).symm
    preRun := hI.preRun.trans (hsum (fun _ v => (v.pre + v.skips.length : ℤ)) rfl).symm
    postRun := by
      refine le_trans (Finset.sum_le_sum fun i _ => ?_) hI.postRun
      by_cases hx : i = x
      · subst hx
        rw [hview', if_neg fun hcon => hpost hcon.2]
        exact zero_le_ite _
      · rw [hview i hx, if_congr (and_congr_left' (iff_of_true (hother i hx) (hh i hx))) rfl rfl]
    numDone := by
      rw [sum_view (fun _ v => if v.job.countedAsDone then (1 : ℤ) else 0) hview,
        hview', ← hI.numDone]
      exact hk
    hash := hI.hash
    info := hI.info
    skips := hI.skips
    maxJobs := hI.maxJobs
    categoryMax := hI.categoryMax }

theorem startNode_cases (hs : startNode D cfg s j isRetry = some s') :
    (s.jobs j).status = .ready ∧ isWaiting D j (s.jobs j) = false ∧
      (s' = { s.setStatus j .prerun with
        preRunNodeCount := s.preRunNodeCount + 1
        preScripts := s.preScripts ++ [j] } ∨
      ∃ g p, s' = { s with readyQ := s.readyQ ++ [j], generation := g, subPriority := p }) := by
  unfold startNode at hs
  split_ifs at hs with hsub
  all_goals
    simp only [canSubmit, not_eq_true', not_eq_false, and_eq_true, decide_eq_true_eq] at hsub
    refine ⟨hsub.1, hsub.2, ?_⟩
    cases hs
  · exact .inl rfl
  all_goals exact .inr ⟨_, _, rfl⟩

theorem Inv.startNode (hI : Inv D cfg r w (.held j m))
    (hm : m ≠ .skipped) (hs : startNode D cfg w.dag j isRetry = some s) :
    Inv D cfg r (w.withDag s) .free := by
  obtain ⟨hready, -, rfl | ⟨g, p, rfl⟩⟩ := startNode_cases hs
  · exact hI.prerun hm
  · exact hI.enqueue hm _ _ hready

theorem startNode_view (hs : Condor.Dagman.startNode D cfg w.dag j isRetry = some s) (hi : i ≠ j) :
    (w.withDag s).view i = w.view i := by
  obtain ⟨-, -, rfl | ⟨g, p, rfl⟩⟩ := startNode_cases hs
  · simp [view, State.modify, hi, Ne.symm hi]
  · simp [view, Ne.symm hi]

theorem startNode_counted (hs : Condor.Dagman.startNode D cfg s j isRetry = some s') :
    (s'.jobs i).countedAsDone = (s.jobs i).countedAsDone := by
  obtain ⟨-, -, rfl | ⟨g, p, rfl⟩⟩ := startNode_cases hs
  · by_cases hi : i = j
    · subst hi
      simp
    · simp [State.modify, hi]
  · rfl

/-- A child is told that a parent is done, and is taken if it waits no longer. -/
theorem Inv.tell {c : Fin n} {late : List (Fin n × Fin n)} {u t : List (Fin n)} (h' : Hold n)
    (hI : Inv D cfg ⟨(c, j) :: late, u, t⟩ w .free) (hc : c ∈ (D.node j).children)
    (hj : (w.dag.jobs j).countedAsDone = true) (hlate : (c, j) ∉ late)
    (hh : h' = .free ∨ h' = .held c .fine)
    (hfree : h' = .free → c ∈ t ∨ (w.dag.jobs c).status ≠ .ready ∨
      isWaiting D c (parentComplete D c j (w.dag.jobs c)) = true)
    (hheld : h' = .held c .fine → (w.dag.jobs c).status = .ready ∧
      isWaiting D c (parentComplete D c j (w.dag.jobs c)) = false) :
    Inv D cfg ⟨late, u, t⟩ (w.withDag (w.dag.modify c (parentComplete D c j))) h' := by
  have hn := hI.node c nofun
  have hjc : j ∈ D.parents c := mem_parents.mpr hc
  have hK : ((w.dag.jobs j).countedAsDone && decide ((c, j) ∉ (c, j) :: late)) = false := by simp
  have hw : isWaiting D c (w.view c).job = true :=
    (isWaiting_iff (hI.waits c)).mpr ⟨j, hjc, hK⟩
  obtain ⟨hplaces, hstatus⟩ := hn.waiting hw
  obtain ⟨-, -, -, hskips, -, hclusters⟩ := nowhere hplaces
  have hq : (w.view c).job.queuedNodeJobProcs = 0 := by simpa [hclusters] using hn.queued
  set J' := parentComplete D c j (w.dag.jobs c) with hJ'
  have hkeep : J'.status = (w.dag.jobs c).status ∧
      J'.countedAsDone = (w.dag.jobs c).countedAsDone ∧ J'.condorID = (w.dag.jobs c).condorID ∧
      J'.queuedNodeJobProcs = (w.dag.jobs c).queuedNodeJobProcs := by
    rw [hJ', parentComplete_eq]
    exact ⟨rfl, rfl, rfl, rfl⟩
  obtain ⟨hst, hcount, hid, hqueued⟩ := hkeep
  have hident : (w.view c).job.countedAsDone = false → Identified D w.dag.eventIDHash c J' := by
    intro hc
    unfold Identified
    rw [hid]
    exact hn.identified hc hskips
  have hjobs : ∀ p, ((w.dag.modify c (parentComplete D c j)).jobs p).countedAsDone =
      (w.dag.jobs p).countedAsDone := by
    intro p
    by_cases hp : p = c
    · subst hp
      simpa using hcount
    · simp [State.modify, hp]
  have hne : ∀ st, st = (w.view c).job.status → st ≠ .postrun ∧ st ≠ .prerun ∧ st ≠ .submitted := by
    rcases hstatus with hs | hs | ⟨hs, -⟩ <;> simp [hs]
  have hst' := hne J'.status hst
  refine hI.changeJob (fun i hi => ⟨id, id⟩) nofun hh (fun heq => ?_)
    (fun heq => ?_) (fun i => ?_) hst'.1 (by rw [hcount]; omega)
  · refine NodeOk.of_nowhere hplaces (hqueued.trans hq) (fun _ => by rw [hst]; exact hstatus)
      (fun hc => ?_) (fun hu hd => hcount.trans (hn.done hu (hst.symm.trans hd)))
      (fun hs => absurd hs hst'.2.1) (fun hs => absurd hs hst'.2.2) (fun ht hs => ?_)
      (fun hc => hident (hcount.symm.trans hc))
    · obtain ⟨-, hdone, hpre⟩ := hn.counted (hcount.symm.trans hc)
      refine ⟨by rw [hst]; exact hdone, .inr (hpre.resolve_left fun hw' => ?_)⟩
      exact absurd (hw'.symm.trans hw) false_ne_true
    · rcases hfree heq with hmem | hne | hwait
      · exact absurd hmem ht
      · exact absurd (hst.symm.trans hs) hne
      · exact hwait
  · obtain ⟨hs, hwait⟩ := hheld heq
    have hc' : (w.view c).job.countedAsDone = false := by
      by_contra hcon
      obtain ⟨-, hdone, -⟩ := hn.counted (by simpa using hcon)
      have hs' : (w.view c).job.status = .ready := hs
      simp [hs'] at hdone
    exact {
      places := hplaces
      waiting := hwait
      counted := hcount.trans hc'
      queued := hqueued.trans hq
      identified := fun _ => hident hc' }
  · by_cases hi : i = c
    · subst hi
      have hwaits := (hI.waits i).parentComplete hjc hK
      simp only [modify_self]
      refine hwaits.congr fun p hp => ?_
      rw [hjobs p]
      by_cases hpj : p = j
      · subst hpj
        simp [hj, hlate]
      · simp [hpj]
    · rw [modify_of_ne hi]
      refine (hI.waits i).congr fun p hp => ?_
      rw [hjobs p]
      simp [hi]

/-- The loop over the children: each is told, and started if it waits no longer. -/
theorem Inv.notifyChildren {start : Bool} {cs u t : List (Fin n)}
    (hI : Inv D cfg ⟨cs.map fun c => (c, j), u, t⟩ w .free)
    (hcs : ∀ c ∈ cs, c ∈ (D.node j).children) (hnd : cs.Nodup)
    (hj : (w.dag.jobs j).countedAsDone = true) (ht : start = true ∨ ∀ i, i ∈ t)
    (hs : notifyChildren D cfg j start cs w.dag = some s) :
    Inv D cfg ⟨[], u, t⟩ (w.withDag s) .free := by
  induction cs generalizing w with
  | nil =>
    cases hs
    exact hI
  | cons c cs ih =>
    obtain ⟨hc, hnd⟩ := nodup_cons.mp hnd
    have hlate : (c, j) ∉ cs.map fun c => (c, j) := by simpa using hc
    have hcs' : ∀ c ∈ cs, c ∈ (D.node j).children := fun c' hc' => hcs c' (mem_cons_of_mem c hc')
    have hcj := hcs c mem_cons_self
    have hj' : ((w.dag.modify c (parentComplete D c j)).jobs j).countedAsDone = true := by
      by_cases hjc : j = c
      · subst hjc
        rw [modify_self, parentComplete_eq]
        exact hj
      · simpa [State.modify, hjc] using hj
    simp only [Condor.Dagman.notifyChildren, modify_self] at hs
    split at hs
    · rename_i hstart
      simp only [and_eq_true, not_eq_true', decide_eq_true_eq] at hstart
      obtain ⟨⟨-, hwait⟩, hready⟩ := hstart
      have hready' : (w.dag.jobs c).status = .ready := by
        rw [parentComplete_eq] at hready
        exact hready
      obtain ⟨s1, h1, hs⟩ := bind_eq_some_iff.mp hs
      have hheld := hI.tell (.held c .fine) hcj hj hlate (.inr rfl) nofun
        fun _ => ⟨hready', hwait⟩
      refine ih (w := w.withDag s1) (hheld.startNode nofun h1) hcs' hnd ?_ hs
      exact startNode_counted h1 ▸ hj'
    · rename_i hstart
      refine ih (w := w.withDag (w.dag.modify c (parentComplete D c j))) ?_ hcs' hnd hj' hs
      refine hI.tell .free hcj hj hlate (.inl rfl) (fun _ => ?_) nofun
      rcases ht with rfl | ht
      · right
        by_contra hcon
        push Not at hcon
        obtain ⟨hready, hwait⟩ := hcon
        refine hstart ?_
        rw [parentComplete_eq] at hwait ⊢
        simpa [hready] using hwait
      · exact .inl (ht c)

theorem terminateJob_eq (hcount : (s.jobs j).countedAsDone = false)
    (hs : terminateJob D cfg s j recovery bootstrap = some s') :
    s.numNodesDone + 1 ≤ n ∧ notifyChildren D cfg j (!(bootstrap || recovery)) (D.node j).children
      { s.modify j (fun J => { J with status := .done, countedAsDone := true }) with
        numNodesDone := s.numNodesDone + 1 } = some s' := by
  simpa [terminateJob, State.modify, hcount] using hs

section

variable {u u' t : List (Fin n)} (hI : Inv D cfg ⟨[], u, t⟩ w h) (hh : h.node = some j ∨ h = .free)
  (hu : ∀ i, i ≠ j → i ∉ u' → i ∉ u) (hplaces : (w.view j).places = 0)
  (hcount : (w.dag.jobs j).countedAsDone = false)
  (hwait : isWaiting D j (w.dag.jobs j) = false ∨ (D.node j).preDone = true)
  (hq : (w.dag.jobs j).queuedNodeJobProcs = 0)
include hI hh hu hplaces hcount hwait hq

/-- A node that is nowhere is counted as done; its children are still to be told. -/
theorem Inv.count
    (hf : f (w.dag.jobs j) = { w.dag.jobs j with status := .done, countedAsDone := true }) :
    Inv D cfg ⟨(D.node j).children.map fun c => (c, j), u', t⟩
      (w.withDag { w.dag.modify j f with numNodesDone := w.dag.numNodesDone + 1 }) .free := by
  refine hI.changeJob (fun i hi => ⟨hu i hi, id⟩) (fun i hi heq => ?_) (.inl rfl)
    (fun _ => ?_) nofun
    (fun i => ?_) (by simp [hf]) (by simp [hf, hcount])
  · rcases hh with hh | rfl
    · exact hi (some.inj (heq.symm.trans hh))
    · cases heq
  · rw [hf]
    refine NodeOk.of_nowhere hplaces hq (fun hw => .inr (.inr ⟨rfl, ?_⟩))
      (fun _ => ⟨.inl rfl, hwait⟩) (fun _ _ => rfl) nofun nofun nofun nofun
    exact hwait.resolve_left fun hw' => absurd (hw'.symm.trans hw) false_ne_true
  · have hw := (hI.waits i).congr (L := fun p => ((w.dag.modify j f).jobs p).countedAsDone &&
        decide ((i, p) ∉ (D.node j).children.map fun c => (c, j))) fun p hp => by
      by_cases hpj : p = j
      · subst hpj
        have hmem : i ∈ (D.node p).children := mem_parents.mp hp
        simp [hcount, hmem]
      · simp [modify_of_ne hpj, Ne.symm hpj]
    by_cases hi : i = j
    · subst hi
      simp only [modify_self, hf] at ⊢
      generalize D.parents i = ps at hw
      match ps with
      | [] => trivial
      | [q] => exact hw
      | q :: q' :: ps => exact hw
    · simpa [modify_of_ne hi] using hw

/-- **A node that is nowhere is done.** -/
theorem Inv.terminateJob (ht : (!(bootstrap || recovery)) = true ∨ ∀ i, i ∈ t)
    (hs : terminateJob D cfg w.dag j recovery bootstrap = some s) :
    Inv D cfg ⟨[], u', t⟩ (w.withDag s) .free := by
  have hcounted := hI.count (f := fun J => { J with status := .done, countedAsDone := true }) hh hu
    hplaces hcount hwait hq rfl
  exact hcounted.notifyChildren (fun _ hc => hc) (D.children_nodup j) (by simp) ht
    (terminateJob_eq hcount hs).2

end

/-! ## All moves -/

variable {ok : Quirk → Prop}

/-- **A move keeps the invariant.** -/
theorem Inv.move (hI : Inv D cfg {} w h) (hm : Move D cfg ok w h w' h') : Inv D cfg {} w' h' := by
  cases hm with
  | log => exact { hI with }
  | queue q ds g p hq _ => exact hI.queue g p hq
  | takeReady j hj => exact hI.takeReady hj
  | takePre j hj _ => exact hI.takePre hj
  | takePost id j x info hj hs => exact hI.takePost info hj hs
  | dropPost id j x info hj => exact hI.dropPost info hj
  | takeSkip id j s hj hs => exact hI.takeSkip hj hs
  | endLast j c id info s hc hend hover hs => exact hI.endLast _ hc hend hover hs
  | endMore j c id info s hc hend hover hs => exact hI.endMore hc hend hover hs
  | submitEvent j c id hc hp => exact hI.submitEvent hc hp
  | touch j m f hf => exact hI.touch hf
  | fault j c f hc _ hf _ hs => exact hI.fault (by simp [hc]) hf hs
  | futile j m s hm hs =>
    have hI' := hI.countFutile hs
    exact { hI' with
      held := fun i m' hi => by
        cases hi
        have hne : m ≠ .skipped := by rintro rfl; simp at hm
        exact { hI'.held j m rfl with identified := fun _ => (hI'.held j m rfl).identified hne }
      postRun := hI'.postRun }
  | early j s _ _ _ hs => exact hI.countFutile hs
  | enqueue j m g p hs hm => exact hI.enqueue (by rintro rfl; simp at hm) g p hs
  | prerun j m hm => exact hI.prerun (by rintro rfl; simp at hm)
  | post j => exact hI.post nofun
  | postExit j x hj _ => exact hI.postExit x hj
  | skip j hs => exact hI.skip hs
  | fail j m hs hm => exact hI.leave (by rintro rfl; simp at hm) _ (hs.imp_right And.left)
  | stuck j m hm hs _ => exact hI.leave hm _ (.inl hs)
  | done j m s _ hs =>
    have hh := hI.held j m rfl
    exact hI.terminateJob (.inl rfl) (fun _ _ hi => hi) hh.places hh.counted (.inl hh.waiting)
      hh.queued (.inl rfl) hs
  | forget j s hs => exact hI.forget hs
  | accept j cluster procs _ hs hmax hcat => exact hI.accept hs hmax hcat

theorem Moves.induct {P : World n → Hold n → Prop}
    (hstep : ∀ w h w' h', Inv D cfg {} w h → P w h → Move D cfg ok w h w' h' → P w' h')
    (hm : Moves D cfg ok w h w' h') (hI : Inv D cfg {} w h) (hP : P w h) : P w' h' := by
  suffices hgoal : ∀ b, Relation.ReflTransGen
      (fun a b => Move D cfg ok a.1 a.2 b.1 b.2) (w, h) b →
      Inv D cfg {} b.1 b.2 ∧ P b.1 b.2 from (hgoal (w', h') hm).2
  intro b hb
  induction hb with
  | refl => exact ⟨hI, hP⟩
  | tail _ hmove ih => exact ⟨ih.1.move hmove, hstep _ _ _ _ ih.1 ih.2 hmove⟩

/-- **A chain of moves keeps the invariant.** -/
theorem Inv.moves (hI : Inv D cfg {} w h) (hm : Moves D cfg ok w h w' h') : Inv D cfg {} w' h' :=
  hm.induct (fun _ _ _ _ hI _ hmove => hI.move hmove) hI hI

end Condor.Dagman
