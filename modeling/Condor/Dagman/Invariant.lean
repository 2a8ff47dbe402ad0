import Condor.Dagman.World
import Mathlib.Algebra.Order.BigOperators.Group.Finset

/-!
# The invariant of DAGMan

A node is in one place at most: in the ready queue, with a script that runs, with an event of its
script in the log, or with a cluster in the queue. Its status says which one, except that a futile
node may be anywhere. The wait edge of a node has the parents that are not counted as done.

* `Local`, **`Inv.of_local`**.
-/

namespace Condor.Dagman

open List Function State World CondorID

variable {n : ℕ} {D : DagFile n} {cfg : Config} {i j p x : Fin n} {J J' : Job n}
  {K L : Fin n → Bool}
  {c : Cluster} {hash hash' : Bool × ℤ → Option (Fin n)} {info info' : CondorID → JobInfo}
  {w' : World n} {h h' : Hold n} (w : World n)

/-! ## Views -/

/-- What concerns a node. -/
structure View (n : ℕ) where
  job : Job n
  ready : ℕ
  pre : ℕ
  post : ℕ
  skips : List (CondorID × Fin n)
  posts : List (CondorID × Fin n × Exit)
  clusters : List Cluster

/-- What concerns the node `i`. -/
def World.view (i : Fin n) : View n where
  job := w.dag.jobs i
  ready := w.dag.readyQ.count i + w.dag.deferredJobs.count i
  pre := w.dag.preScripts.count i
  post := w.dag.postScripts.count i
  skips := w.dag.skips.filter fun e => e.2 = i
  posts := w.dag.posts.filter fun e => e.2.1 = i
  clusters := w.clusters i

def View.places (v : View n) : ℕ :=
  v.ready + v.pre + v.post + v.skips.length + v.posts.length + v.clusters.length

@[simp] theorem withDag_dag (s : State n) : (w.withDag s).dag = s := rfl

@[simp] theorem withDag_clusters (s : State n) : (w.withDag s).clusters = w.clusters :=
  rfl

@[simp] theorem setClusters_dag (j : Fin n) (cs : List Cluster) :
    (w.setClusters j cs).dag = w.dag := rfl

@[simp] theorem setClusters_self (j : Fin n) (cs : List Cluster) :
    (w.setClusters j cs).clusters j = cs := update_self ..

@[simp] theorem modify_self (s : State n) (j : Fin n) (f : Job n → Job n) :
    (s.modify j f).jobs j = f (s.jobs j) := update_self ..

theorem modify_of_ne (hi : i ≠ j) (s : State n) (f : Job n → Job n) :
    (s.modify j f).jobs i = s.jobs i := update_of_ne hi ..

/-! ## Wait edges -/

/-- The wait edge of a node with the parents `ps`, of which those in `K` are done. -/
def Waits (K : Fin n → Bool) : List (Fin n) → Job n → Prop
  | [], _ => True
  | [q], J => J.parentsDone = K q
  | ps, J => J.wait = ps.map (fun p => (p, !K p)) ∧ J.numWaiting = ps.countP (fun p => !K p) ∧
      J.parentsDone = decide (J.numWaiting = 0)

theorem isWaiting_iff (h : Waits K (D.parents i) J) :
    isWaiting D i J = true ↔ ∃ p ∈ D.parents i, K p = false := by
  unfold isWaiting
  generalize D.parents i = ps at h
  match ps with
  | [] => simp
  | [q] =>
    change J.parentsDone = K q at h
    simp [h]
  | q :: q' :: ps =>
    obtain ⟨-, hnum, hdone⟩ := h
    have hcount : (q :: q' :: ps).countP (fun p => !K p) ≠ 0 ↔
        ∃ p ∈ q :: q' :: ps, K p = false := by
      rw [← Nat.pos_iff_ne_zero]
      simp
    rw [← hcount, hdone, hnum]
    simp only [isEmpty_cons, Bool.not_false, Bool.true_and, Bool.not_eq_true',
      decide_eq_false_iff_not, Int.natCast_eq_zero]

theorem Waits.congr (hK : ∀ p ∈ D.parents i, L p = K p) (h : Waits K (D.parents i) J) :
    Waits L (D.parents i) J := by
  generalize D.parents i = ps at h hK
  match ps with
  | [] => trivial
  | [q] =>
    change J.parentsDone = L q
    rw [hK q (by simp)]
    exact h
  | q :: q' :: ps =>
    obtain ⟨hwait, hnum, hdone⟩ := h
    have hmap : (q :: q' :: ps).map (fun p => (p, !L p)) =
        (q :: q' :: ps).map (fun p => (p, !K p)) :=
      map_congr_left fun p hp => by rw [hK p hp]
    have hcount : (q :: q' :: ps).countP (fun p => !L p) = (q :: q' :: ps).countP (fun p => !K p) :=
      countP_congr fun p hp => by rw [hK p hp]
    exact ⟨hwait.trans hmap.symm, hnum.trans (by rw [hcount]), hdone⟩

theorem parents_nodup (D : DagFile n) (i : Fin n) : (D.parents i).Nodup :=
  (nodup_finRange n).filter _

@[simp] theorem mem_parents : p ∈ D.parents i ↔ i ∈ (D.node p).children := by
  simp [DagFile.parents]

theorem countP_update {ps : List (Fin n)} (hps : ps.Nodup) (hp : p ∈ ps) (hK : K p = false) :
    ps.countP (fun q => !K q) = ps.countP (fun q => !update K p true q) + 1 := by
  induction ps with
  | nil => cases hp
  | cons q ps ih =>
    rw [nodup_cons] at hps
    rcases mem_cons.mp hp with rfl | hp
    · have hrest : ps.countP (fun q => !update K p true q) = ps.countP (fun q => !K q) := by
        refine countP_congr fun q hq => ?_
        have hne : q ≠ p := fun h => hps.1 (h ▸ hq)
        rw [update_of_ne hne]
      simp [hrest, hK]
    · have hne : q ≠ p := fun h => hps.1 (h ▸ hp)
      rw [countP_cons, countP_cons, ih hps.2 hp, update_of_ne hne]
      omega

theorem Waits.parentComplete (h : Waits K (D.parents i) J) (hp : p ∈ D.parents i)
    (hK : K p = false) :
    Waits (update K p true) (D.parents i) (parentComplete D i p J) := by
  have hnd := parents_nodup D i
  unfold Condor.Dagman.parentComplete
  generalize D.parents i = ps at h hp hnd
  match ps with
  | [] => cases hp
  | [q] =>
    obtain rfl : p = q := by simpa using hp
    simp [Waits]
  | q :: q' :: ps =>
    obtain ⟨hwait, hnum, -⟩ := h
    have hbit : (p, true) ∈ J.wait := by
      rw [hwait]
      exact mem_map.mpr ⟨p, hp, by rw [hK]; rfl⟩
    simp only [markDone, hbit, if_true]
    refine ⟨?_, ?_, by simp⟩
    · rw [hwait, map_map]
      refine map_congr_left fun q hq => ?_
      by_cases hqp : q = p
      · simp [hqp]
      · simp [hqp]
    · have hcount := countP_update hnd hp hK
      dsimp only
      omega

theorem parentComplete_eq : parentComplete D i p J = { J with
      wait := (parentComplete D i p J).wait
      numWaiting := (parentComplete D i p J).numWaiting
      parentsDone := (parentComplete D i p J).parentsDone } := by
  unfold Condor.Dagman.parentComplete markDone
  split
  · rfl
  · split <;> rfl
  · split <;> rfl

/-! ## Nodes -/

def Hold.node : Hold n → Option (Fin n)
  | .free => none
  | .held j _ => some j

theorem Hold.free_node : (Hold.free : Hold n).node ≠ some i := (Option.some_ne_none i).symm

theorem Hold.node_eq_some {h : Hold n} {i : Fin n} : h.node = some i ↔ ∃ m, h = .held i m := by
  cases h <;> simp [Hold.node]

/-- What the loops have left to do: children to be told of a parent, nodes marked `DONE` to be
counted, and nodes to be started. -/
structure Rest (n : ℕ) where
  late : List (Fin n × Fin n) := []
  unmarked : List (Fin n) := []
  unstarted : List (Fin n) := []

/-- The id of a node, if it has one, leads back to the node. -/
def Identified (D : DagFile n) (hash : Bool × ℤ → Option (Fin n)) (i : Fin n) (J : Job n) : Prop :=
  J.condorID.cluster = -1 ∨ hash J.condorID.key = some i ∧ J.condorID.isNoop = (D.node i).noop

/-- The events of a cluster are still to come, and they are for the node. -/
structure ClusterOk (info : CondorID → JobInfo) (J : Job n) (c : Cluster) : Prop where
  notOver : c.isOver = false
  nodup : (c.pending ++ c.running).Nodup
  key : ∀ id ∈ c.pending ++ c.running, id.key = J.condorID.key
  pending : ∀ id ∈ c.pending, info id = {}
  running : ∀ id ∈ c.running, info id = { submitCount := 1 }
  submitted : J.condorID.cluster ≠ -1

/-- **A node in its place.** -/
structure NodeOk (D : DagFile n) (r : Rest n) (hash : Bool × ℤ → Option (Fin n))
    (info : CondorID → JobInfo) (i : Fin n) (v : View n) : Prop where
  places : v.places ≤ 1
  waiting : isWaiting D i v.job = true → v.places = 0 ∧ (v.job.status = .ready ∨
    v.job.status = .futile ∨ v.job.status = .done ∧ (D.node i).preDone = true)
  ready : v.ready ≠ 0 → v.job.status = .ready
  pre : v.pre ≠ 0 ∨ v.skips ≠ [] → v.job.status = .prerun ∨ v.job.status = .futile
  post : v.post ≠ 0 ∨ v.posts ≠ [] → v.job.status = .postrun ∨ v.job.status = .futile
  cluster : v.clusters ≠ [] → v.job.status = .submitted ∨ v.job.status = .error ∨
    v.job.status = .futile
  counted : v.job.countedAsDone = true → v.places = 0 ∧
    (v.job.status = .done ∨ v.job.status = .futile) ∧
      (isWaiting D i v.job = false ∨ (D.node i).preDone = true)
  done : i ∉ r.unmarked → v.job.status = .done → v.job.countedAsDone = true
  prerun : v.job.status = .prerun → v.pre ≠ 0 ∨ v.skips ≠ []
  submitted : v.job.status = .submitted → v.clusters ≠ []
  started : i ∉ r.unstarted → v.job.status = .ready → isWaiting D i v.job = false → v.ready ≠ 0
  queued : v.job.queuedNodeJobProcs = (v.clusters.map fun c => c.running.length).sum
  identified : v.job.countedAsDone = false → v.skips = [] → Identified D hash i v.job
  clusters : ∀ c ∈ v.clusters, ClusterOk info v.job c
  posted : ∀ e ∈ v.posts, e.1 = postID D i v.job.condorID

/-- **A node in hand.** -/
structure HeldOk (D : DagFile n) (hash : Bool × ℤ → Option (Fin n)) (i : Fin n) (m : Mark)
    (v : View n) : Prop where
  places : v.places = 0
  waiting : isWaiting D i v.job = false
  counted : v.job.countedAsDone = false
  queued : v.job.queuedNodeJobProcs = 0
  identified : m ≠ .skipped → Identified D hash i v.job

def World.Known : Bool × ℤ → Prop
  | (false, c) => c ∈ w.used
  | (true, k) => k ≤ w.dag.fakeID

/-- **The invariant.** -/
structure Inv (D : DagFile n) (cfg : Config) (r : Rest n) (w : World n) (h : Hold n) : Prop where
  node : ∀ i, h.node ≠ some i → NodeOk D r w.dag.eventIDHash w.dag.jobHash i (w.view i)
  held : ∀ i m, h = .held i m → HeldOk D w.dag.eventIDHash i m (w.view i)
  waits : ∀ i, Waits (fun p => (w.dag.jobs p).countedAsDone && decide ((i, p) ∉ r.late))
    (D.parents i) (w.dag.jobs i)
  numSubmitted : w.dag.numJobsSubmitted = ∑ i, ((w.view i).clusters.length : ℤ)
  current : ∀ k, w.dag.currentJobs k =
    ∑ i, if (D.node i).throttle = some k then ((w.view i).clusters.length : ℤ) else 0
  preRun : w.dag.preRunNodeCount = ∑ i, ((w.view i).pre + (w.view i).skips.length : ℤ)
  postRun : (∑ i, if h.node ≠ some i ∧ (w.view i).job.status = .postrun then (1 : ℤ) else 0) ≤
    w.dag.postRunNodeCount
  numDone : w.dag.numNodesDone = ∑ i, if (w.view i).job.countedAsDone then (1 : ℤ) else 0
  hash : ∀ k, w.dag.eventIDHash k ≠ none → w.Known k
  info : ∀ id, w.dag.jobHash id ≠ {} → id.cluster = -1 ∨ w.Known id.key
  skips : ∀ e ∈ w.dag.skips, w.Known e.1.key
  maxJobs : cfg.maxJobs = 0 ∨ w.dag.numJobsSubmitted ≤ cfg.maxJobs
  categoryMax : ∀ k m, cfg.categoryMax k = some m → w.dag.currentJobs k ≤ m

/-! ## Changes of one node -/

theorem CondorID.cluster_of_key {id id' : CondorID} (h : id.key = id'.key) :
    id.cluster = id'.cluster := by
  simp only [key, index, Prod.mk.injEq] at h
  obtain ⟨hnoop, hindex⟩ := h
  cases hn : id'.isNoop with
  | false => simpa [hnoop, hn] using hindex
  | true =>
    rw [hn] at hnoop
    simp only [isNoop, Bool.and_eq_true, decide_eq_true_eq] at hn hnoop
    rw [hn.1, hnoop.1]

variable {r : Rest n} {v : View n} {w}

theorem ClusterOk.congr (hinfo : ∀ id ∈ c.pending ++ c.running, info' id = info id)
    (h : ClusterOk info J c) : ClusterOk info' J c where
  notOver := h.notOver
  nodup := h.nodup
  key := h.key
  pending := fun id hid => (hinfo id (mem_append_left _ hid)).trans (h.pending id hid)
  running := fun id hid => (hinfo id (mem_append_right _ hid)).trans (h.running id hid)
  submitted := h.submitted

theorem NodeOk.congr (h : NodeOk D r hash info i v)
    (hhash : ∀ k, hash k = some i → hash' k = some i)
    (hinfo : ∀ c ∈ v.clusters, ∀ id ∈ c.pending ++ c.running, info' id = info id) :
    NodeOk D r hash' info' i v :=
  { h with
    identified := fun hc hs => (h.identified hc hs).imp_right fun hid => ⟨hhash _ hid.1, hid.2⟩
    clusters := fun c hc => (h.clusters c hc).congr (hinfo c hc) }

theorem NodeOk.hash_of_mem (h : NodeOk D r hash info i v) (hc : c ∈ v.clusters)
    {id : CondorID} (hid : id ∈ c.pending ++ c.running) :
    hash id.key = some i ∧ id.isNoop = (D.node i).noop ∧ id.cluster = v.job.condorID.cluster ∧
      id.cluster ≠ -1 := by
  have hkey := (h.clusters c hc).key id hid
  have hsub := (h.clusters c hc).submitted
  have hcluster := cluster_of_key hkey
  have hpos : 0 < v.clusters.length := length_pos_of_mem hc
  have hplaces := h.places
  have hskips : v.skips = [] := by
    rw [← length_eq_zero_iff]
    unfold View.places at hplaces
    omega
  have hcounted : v.job.countedAsDone = false := by
    by_contra hcon
    have hzero := (h.counted (by simpa using hcon)).1
    unfold View.places at hzero
    omega
  obtain hminus | ⟨hhash, hnoop⟩ := h.identified hcounted hskips
  · exact absurd hminus hsub
  · have hisNoop : id.isNoop = v.job.condorID.isNoop := congrArg Prod.fst hkey
    exact ⟨hkey ▸ hhash, hisNoop.trans hnoop, hcluster, hcluster ▸ hsub⟩

theorem sum_update {f g : Fin n → ℤ} (x : Fin n) (hfg : ∀ i, i ≠ x → g i = f i) :
    ∑ i, g i = ∑ i, f i + (g x - f x) := by
  have hrest : ∑ i ∈ Finset.univ.erase x, g i = ∑ i ∈ Finset.univ.erase x, f i :=
    Finset.sum_congr rfl fun i hi => hfg i (Finset.ne_of_mem_erase hi)
  rw [← Finset.add_sum_erase _ g (Finset.mem_univ x), ← Finset.add_sum_erase _ f
    (Finset.mem_univ x)]
  omega

theorem sum_view (F : Fin n → View n → ℤ) (hview : ∀ i, i ≠ x → w'.view i = w.view i) :
    ∑ i, F i (w'.view i) = ∑ i, F i (w.view i) + (F x (w'.view x) - F x (w.view x)) :=
  sum_update x fun i hx => by rw [hview i hx]

/-- **A change of the node `x` only.** What is not given is the same as before. -/
structure Local (D : DagFile n) (cfg : Config) (r : Rest n) (w : World n) (h : Hold n)
    (w' : World n) (h' : Hold n) (x : Fin n) : Prop where
  view : ∀ i, i ≠ x → w'.view i = w.view i := by
    intro i hi
    simp [World.view, World.setClusters, State.modify, State.setStatus, State.setCondorID,
      runPostScript, writePreSkipEvent, World.accept, hi, Ne.symm hi]
  hold : ∀ i, i ≠ x → ∀ m, (h' = .held i m ↔ h = .held i m) := by
    intro i hi m; simp [Ne.symm hi]
  wait : (w'.dag.jobs x).wait = (w.dag.jobs x).wait := by
    simp [State.setStatus, State.setCondorID, runPostScript, writePreSkipEvent, World.accept]
  numWaiting : (w'.dag.jobs x).numWaiting = (w.dag.jobs x).numWaiting := by
    simp [State.setStatus, State.setCondorID, runPostScript, writePreSkipEvent, World.accept]
  parentsDone : (w'.dag.jobs x).parentsDone = (w.dag.jobs x).parentsDone := by
    simp [State.setStatus, State.setCondorID, runPostScript, writePreSkipEvent, World.accept]
  counted : (w'.dag.jobs x).countedAsDone = (w.dag.jobs x).countedAsDone := by
    simp [State.setStatus, State.setCondorID, runPostScript, writePreSkipEvent, World.accept]
  hash : ∀ i, i ≠ x → ∀ k, w.dag.eventIDHash k = some i → w'.dag.eventIDHash k = some i := by
    intro _ _ _ hk; exact hk
  info : ∀ id, w'.dag.jobHash id ≠ w.dag.jobHash id →
    id.cluster = -1 ∨ w.dag.eventIDHash id.key = some x := by
    intro _ hne; exact absurd rfl hne
  node : h'.node ≠ some x → NodeOk D r w'.dag.eventIDHash w'.dag.jobHash x (w'.view x) := by
    intro hne; exact absurd rfl hne
  held : ∀ m, h' = .held x m → HeldOk D w'.dag.eventIDHash x m (w'.view x) := by
    intro m heq; cases heq
  numSubmitted : w'.dag.numJobsSubmitted = w.dag.numJobsSubmitted +
    ((w'.view x).clusters.length - (w.view x).clusters.length) := by
    simp [World.view, State.modify, State.setStatus, State.setCondorID, runPostScript,
      writePreSkipEvent, World.accept]
  current : ∀ k, w'.dag.currentJobs k = w.dag.currentJobs k + if (D.node x).throttle = some k then
      ((w'.view x).clusters.length - (w.view x).clusters.length : ℤ) else 0 := by
    simp [World.view, State.modify, State.setStatus, State.setCondorID, runPostScript,
      writePreSkipEvent, World.accept]
  preRun : w'.dag.preRunNodeCount = w.dag.preRunNodeCount +
    ((w'.view x).pre + (w'.view x).skips.length - ((w.view x).pre + (w.view x).skips.length)) := by
    simp [World.view, State.modify, State.setStatus, State.setCondorID, runPostScript,
      writePreSkipEvent, World.accept]
  postRun : w.dag.postRunNodeCount +
      (if h'.node ≠ some x ∧ (w'.view x).job.status = .postrun then 1 else 0) ≤
    w'.dag.postRunNodeCount + (if h.node ≠ some x ∧ (w.view x).job.status = .postrun then 1
      else 0) := by
    simp [World.view, Hold.node, State.modify, State.setStatus, State.setCondorID, runPostScript,
      writePreSkipEvent, World.accept]
  numDone : w'.dag.numNodesDone = w.dag.numNodesDone := by rfl
  known : ∀ k, w.Known k → w'.Known k := by intro _ hk; exact hk
  hashKnown : ∀ k, w'.dag.eventIDHash k ≠ none → w.dag.eventIDHash k ≠ none ∨ w'.Known k := by
    intro _ hk; exact .inl hk
  skips : ∀ e ∈ w'.dag.skips, e ∈ w.dag.skips ∨ w'.Known e.1.key := by intro _ he; exact .inl he
  maxJobs : w'.dag.numJobsSubmitted ≤ w.dag.numJobsSubmitted ∨ cfg.maxJobs = 0 ∨
    w'.dag.numJobsSubmitted ≤ cfg.maxJobs := by exact .inl le_rfl
  categoryMax : ∀ k m, cfg.categoryMax k = some m →
    w'.dag.currentJobs k ≤ w.dag.currentJobs k ∨ w'.dag.currentJobs k ≤ m := by
    intro _ _ _; exact .inl le_rfl

theorem Local.node_iff (hl : Local D cfg r w h w' h' x) (hx : i ≠ x) :
    h'.node = some i ↔ h.node = some i := by
  simp [Hold.node_eq_some, hl.hold i hx]

/-- **A change of one node keeps the invariant.** -/
theorem Inv.of_local (hI : Inv D cfg r w h) (hl : Local D cfg r w h w' h' x) :
    Inv D cfg r w' h' where
  node := by
    intro i hi
    by_cases hx : i = x
    · subst hx
      exact hl.node hi
    · have hold := hI.node i fun hh => hi ((hl.node_iff hx).mpr hh)
      rw [hl.view i hx]
      refine hold.congr (hl.hash i hx) fun c hc id hid => ?_
      obtain ⟨hhash, -, -, hcluster⟩ := hold.hash_of_mem hc hid
      by_contra hne
      rcases hl.info id hne with hminus | hsome
      · exact hcluster hminus
      · rw [hhash] at hsome
        exact hx (Option.some.inj hsome)
  held := by
    intro i m hi
    by_cases hx : i = x
    · subst hx
      exact hl.held m hi
    · have hold := hI.held i m ((hl.hold i hx m).mp hi)
      rw [hl.view i hx]
      exact { hold with
        identified := fun hm => (hold.identified hm).imp_right fun hid =>
          ⟨hl.hash i hx _ hid.1, hid.2⟩ }
  waits := by
    have hjob : ∀ i, i ≠ x → w'.dag.jobs i = w.dag.jobs i := fun i hx =>
      congrArg View.job (hl.view i hx)
    have hcounted : ∀ p, (w'.dag.jobs p).countedAsDone = (w.dag.jobs p).countedAsDone := by
      intro p
      by_cases hp : p = x
      · rw [hp, hl.counted]
      · rw [hjob p hp]
    intro i
    have hw := (hI.waits i).congr (L := fun p => (w'.dag.jobs p).countedAsDone &&
      decide ((i, p) ∉ r.late)) fun p _ => by rw [hcounted p]
    by_cases hx : i = x
    · subst hx
      generalize D.parents i = ps at hw
      match ps with
      | [] => trivial
      | [q] => exact hl.parentsDone.trans hw
      | q :: q' :: ps =>
        obtain ⟨h1, h2, h3⟩ := hw
        refine ⟨hl.wait.trans h1, hl.numWaiting.trans h2, ?_⟩
        rw [hl.parentsDone, hl.numWaiting, h3]
    · rw [hjob i hx]
      exact hw
  numSubmitted := by
    rw [hl.numSubmitted, hI.numSubmitted]
    exact (sum_view (fun _ v => (v.clusters.length : ℤ)) hl.view).symm
  current := by
    intro k
    rw [hl.current k, hI.current k, sum_view (fun i v =>
      if (D.node i).throttle = some k then (v.clusters.length : ℤ) else 0) hl.view]
    split <;> simp
  preRun := by
    rw [hl.preRun, hI.preRun]
    exact (sum_view (fun _ v => (v.pre + v.skips.length : ℤ)) hl.view).symm
  postRun := by
    have hsum := sum_update (f := fun i => if h.node ≠ some i ∧
      (w.view i).job.status = .postrun then
      (1 : ℤ) else 0) (g := fun i => if h'.node ≠ some i ∧ (w'.view i).job.status = .postrun then
      (1 : ℤ) else 0) x fun i hx => by simp [hl.view i hx, hl.node_iff hx]
    have hold := hI.postRun
    have hchange := hl.postRun
    omega
  numDone := by
    rw [hl.numDone, hI.numDone]
    refine Finset.sum_congr rfl fun i _ => ?_
    by_cases hx : i = x
    · subst hx
      change _ = if (w'.dag.jobs i).countedAsDone = true then (1 : ℤ) else 0
      rw [hl.counted]
      rfl
    · rw [hl.view i hx]
  hash := fun k hk => (hl.hashKnown k hk).elim (fun hold => hl.known k (hI.hash k hold)) id
  info := by
    intro id hid
    by_cases hsame : w'.dag.jobHash id = w.dag.jobHash id
    · exact (hI.info id (hsame ▸ hid)).imp_right (hl.known _)
    · refine (hl.info id hsame).imp_right fun hsome => hl.known _ (hI.hash _ ?_)
      rw [hsome]
      exact Option.some_ne_none x
  skips := fun e he => (hl.skips e he).elim (fun hold => hl.known _ (hI.skips e hold)) id
  maxJobs := by
    rcases hl.maxJobs with hle | hmax | hmax
    · exact hI.maxJobs.imp_right hle.trans
    · exact .inl hmax
    · exact .inr hmax
  categoryMax := fun k m hm => (hl.categoryMax k m hm).elim (fun hle =>
    hle.trans (hI.categoryMax k m hm)) id

end Condor.Dagman
