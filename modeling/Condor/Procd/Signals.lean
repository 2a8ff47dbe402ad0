import Condor.Procd.Ledger
import Mathlib.Data.List.Flatten

/-!
# Signals to a family — `signal_family`

A signal for a family goes to the members of the family and of all families below it, after a new
snapshot.

* **`signalFamily_of_run`**.
-/

namespace Condor.Procd

open List Option Monitor

variable {M : Monitor} {kids : Addr → List Addr} {fams cs l : List Addr} {L : Addr → List Addr}
  {f : Addr} {n : ℕ}

theorem spreeFrom_spec (hseg : Segment M.next l none) (hn : l.length ≤ n) :
    M.spreeFrom n l.head? = some (l.map fun a => (M.procInfo a).pid) := by
  induction l generalizing n with
  | nil => cases n <;> rfl
  | cons a l ih =>
    obtain _ | n := n
    · simp at hn
    have hnext : M.next a = l.head? := by rw [hseg.1, or_none]
    rw [head?_cons, spreeFrom, hnext, ih hseg.2 (by simpa using hn)]
    rfl

section

variable (h : Inv M kids fams L)
include h

theorem spree_spec (hf : f ∈ fams) : M.spree f = some ((L f).map fun a => (M.procInfo a).pid) := by
  have hm := h.lists f (mem_cons_of_mem _ hf)
  rw [spree, hm.head, spreeFrom_spec hm.forth (length_le_of_old hm.nodup hm.old)]

theorem signalFrom_spec (hforest : Forest kids cs l) (hsub : l ⊆ fams)
    (hseg : Segment M.sibling cs none) (hn : l.length ≤ n) :
    M.signalFrom n cs.head? = some ((l.flatMap L).map fun a => (M.procInfo a).pid) := by
  induction hforest generalizing n with
  | nil => cases n <;> rfl
  | @cons c cs l1 l2 below beside ih1 ih2 =>
    obtain _ | n := n
    · simp at hn
    simp only [length_cons, length_append] at hn
    obtain ⟨hc, hsub⟩ := cons_subset.mp hsub
    obtain ⟨hsub1, hsub2⟩ := append_subset.mp hsub
    have hnext : M.sibling c = cs.head? := by rw [hseg.1, or_none]
    rw [head?_cons, signalFrom, spree_spec h hc, h.tree.links.child c hc, hnext,
      ih1 hsub1 (h.tree.links.sibling c hc) (by omega), ih2 hsub2 hseg.2 (by omega)]
    simp

/-- The signals to a family and the families below it. -/
theorem signalTree_spec (hforest : Forest kids [f] l) (hsub : l.Sublist fams) :
    ∃ own below, M.spree f = some own ∧ M.signalFrom M.made (M.child f) = some below ∧
      own ++ below = (l.flatMap L).map fun a => (M.procInfo a).pid := by
  have hlen := Nat.le_trans hsub.length_le h.tree.length_le
  cases hforest with
  | cons below beside =>
    cases beside
    simp only [append_nil, length_cons] at hsub hlen ⊢
    have hf := hsub.subset mem_cons_self
    refine ⟨_, _, spree_spec h hf, ?_, by rw [flatMap_cons, map_append]⟩
    rw [h.tree.links.child f hf]
    exact signalFrom_spec h below (fun g hg => hsub.subset (mem_cons_of_mem _ hg))
      (h.tree.links.sibling f hf)
      (by omega)

end

/-- **A signal reaches exactly the processes of the family and of those below it**, each of them
once, after every run, and none if there is no such family. -/
theorem signalFamily_of_run (pid birthday interval : ℤ) (ps qs : List ProcInfo) (ops : List Op)
    (hps : Proper ps) (hqs : Proper qs) (hops : ∀ op ∈ ops, ∀ qs, op.taken = some qs → Proper qs) :
    ∃ M₀ M kids fams L, (start pid birthday interval ps).bind (run ops) = some M₀ ∧
      M₀.snapshot qs = some M ∧ Inv M kids fams L ∧
      (∀ q, M.lookupFamily q true = none → M₀.signalFamily q qs = some (.familyNotFound, [], M)) ∧
      ∀ q f, M.lookupFamily q true = some f → ∃ sent l, M₀.signalFamily q qs =
      some (.success, sent, M) ∧
        Forest kids [f] l ∧ sent.Nodup ∧ ∀ r, r ∈ sent ↔ ∃ a, M.memberTable r = some a ∧
        M.family a ∈ l := by
  obtain ⟨M1, kids1, fams1, L1, hrun1, hinv1, hsnap1⟩ :=
    snapshot_spec (fresh_inv pid birthday interval) (fun _ => rfl) hps
  obtain ⟨M₀, kids0, fams0, L0, hrun0, hinv0, hidle, -⟩ := run_listed hinv1 hsnap1.idle
    ⟨hps, hsnap1.listed, hsnap1.only⟩ hops
  obtain ⟨M, kids, fams, L, hrun, h, -⟩ := snapshot_spec hinv0 hidle hqs
  refine ⟨M₀, M, kids, fams, L, by rw [start, hrun1, bind_some, hrun0], hrun, h,
    fun q hq => by simp [signalFamily, hrun, hq], fun q f hf => ?_⟩
  obtain ⟨l, hforest, hsub⟩ := h.tree.forest.exists_below (lookupFamily_mem h hf)
  obtain ⟨own, below, hown, hbelow, hsent⟩ := signalTree_spec h hforest hsub
  have hmember : ∀ a ∈ l.flatMap L, M.memberTable (M.procInfo a).pid = some a := fun a ha => by
    obtain ⟨g, hg, ha⟩ := mem_flatMap.mp ha
    exact (h.table _ a).mpr ⟨g, mem_cons_of_mem _ (hsub.subset hg), ha, rfl⟩
  refine ⟨own ++ below, l, by simp [signalFamily, hrun, hf, hown, hbelow], hforest, ?_, fun r => ?_⟩
  · rw [hsent]
    refine (h.nodup_flatMap.sublist (hsub.flatMap L)).map_on fun a ha b hb heq => ?_
    have := hmember a ha
    rw [heq, hmember b hb] at this
    exact (some.inj this).symm
  · rw [hsent, List.mem_map]
    constructor
    · rintro ⟨a, ha, rfl⟩
      obtain ⟨g, hg, hmem⟩ := mem_flatMap.mp ha
      exact ⟨a, hmember a ha, by rwa [h.family_eq (mem_cons_of_mem _ (hsub.subset hg)) hmem]⟩
    · rintro ⟨a, ha, hg⟩
      obtain ⟨-, hmem, hpid⟩ := h.mem_of_table ha
      exact ⟨a, mem_flatMap.mpr ⟨_, hg, hmem⟩, hpid⟩

/-- The processes after 11 has been registered: 12 is its child. -/
def seen : List ProcInfo :=
  [⟨12, 11, 8, 0, 2⟩, ⟨11, 10, 6, 1, 0⟩, ⟨13, 10, 7, 0, 1⟩, ⟨10, 1, 5, 4, 4⟩]

/-- The monitor of 10, with a subfamily for 11. -/
def twoFamilies : Option Monitor :=
  (start 10 5 60 [⟨10, 1, 5, 3, 4⟩, ⟨11, 10, 6, 1, 0⟩]).bind
    (run [.register 11 0 (-1) [⟨10, 1, 5, 3, 4⟩, ⟨11, 10, 6, 1, 0⟩, ⟨13, 10, 7, 0, 0⟩]])

theorem twoFamilies_signals :
    (twoFamilies.bind (·.signalFamily 0 seen)).map (·.2.1) = some [13, 10, 12, 11] ∧
    (twoFamilies.bind (·.signalFamily 11 seen)).map (·.2.1) = some [12, 11] := by
  decide +kernel

theorem signalFamily_of_run_subfamily : ∃ (M₀ M : Monitor) (l : List Addr),
    twoFamilies = some M₀ ∧ M₀.snapshot seen = some M ∧
    M₀.signalFamily 0 seen = some (.success, [13, 10, 12, 11], M) ∧
    M₀.signalFamily 11 seen = some (.success, [12, 11], M) ∧
    ∀ r : ℤ, r ∈ [12, 11] ↔ ∃ a, M.memberTable r = some a ∧ M.family a ∈ l := by
  obtain ⟨M₀, M, _, _, _, hrun, hsnap, -, hnone, hsignal⟩ := signalFamily_of_run 10 5 60
    [⟨10, 1, 5, 3, 4⟩, ⟨11, 10, 6, 1, 0⟩] seen
    [.register 11 0 (-1) [⟨10, 1, 5, 3, 4⟩, ⟨11, 10, 6, 1, 0⟩, ⟨13, 10, 7, 0, 0⟩]]
    ⟨by decide, by decide⟩ ⟨by decide, by decide⟩
    (by simpa [Op.taken] using ⟨by decide, by decide⟩)
  rw [← twoFamilies] at hrun
  obtain ⟨hall, hsub⟩ := twoFamilies_signals
  rw [hrun, bind_some] at hall hsub
  obtain ⟨all, -, htree, -⟩ := hsignal 0 M.tree rfl
  obtain rfl : all = [13, 10, 12, 11] := by simpa [htree] using hall
  cases hf : M.lookupFamily 11 true with
  | none => simp [hnone 11 hf] at hsub
  | some f =>
    obtain ⟨sent, l, h11, -, -, hmem⟩ := hsignal 11 f hf
    obtain rfl : sent = [12, 11] := by simpa [h11] using hsub
    exact ⟨M₀, M, l, hrun, hsnap, htree, h11, hmem⟩

end Condor.Procd
