import Condor.Lib.CText
import Mathlib.Data.List.DropRight

/-!
# Paths in the sandbox

`LegalPathInSandbox` takes the components off the end of a path and refuses `..`.

* **`legalPathInSandbox_safe`**.
-/

namespace Condor.Transfer

open List

/-! ## The check -/

def canonicalizeDirDelimiters (path : Text) : Text := path.map fun c => if c = '\\' then '/' else c

def fullpath (path : Text) : Bool :=
  path[0]? = some '/' || path[0]? = some '\\' ||
    path[1]? = some ':' && (path[2]? = some '\\' || path[2]? = some '/')

/-- `filename_split`: what it returns, `dir` and `file`. -/
def filenameSplit (path : Text) : Bool × Text × Text :=
  if path.rdropWhile (· ≠ '/') = [] then (false, ".".toList, path)
  else (true, (path.rdropWhile (· ≠ '/')).dropLast, path.rtakeWhile (· ≠ '/'))

theorem filenameSplit_cases (path : Text) :
    '/' ∉ path ∧ filenameSplit path = (false, ".".toList, path) ∨
      ∃ dir file, path = dir ++ '/' :: file ∧ '/' ∉ file ∧
      filenameSplit path = (true, dir, file) := by
  by_cases hnil : path.rdropWhile (· ≠ '/') = []
  · refine .inl ⟨fun h => ?_, if_pos hnil⟩
    simpa using rdropWhile_eq_nil_iff.mp hnil _ h
  · refine .inr ⟨_, _, ?_, fun h => ?_, if_neg hnil⟩
    · have hlast : (path.rdropWhile (· ≠ '/')).getLast hnil = '/' := by
        simpa using rdropWhile_last_not _ path hnil
      have hdir := dropLast_append_getLast hnil
      rw [hlast] at hdir
      conv_lhs => rw [← reverse_reverse path,
        ← takeWhile_append_dropWhile (p := fun c => decide (c ≠ '/')) (l := path.reverse),
        reverse_append]
      rw [← singleton_append, ← append_assoc, hdir]
      rfl
    · simpa using mem_rtakeWhile_imp h

theorem length_filenameSplit_lt {path : Text} (h : (filenameSplit path).1 = true) :
    (filenameSplit path).2.1.length < path.length := by
  obtain ⟨-, hsplit⟩ | ⟨dir, file, rfl, -, hsplit⟩ := filenameSplit_cases path
  · simp [hsplit] at h
  · simp [hsplit]

/-- The loop: no component is `..`. -/
def splitLoop (pathbuf : Text) : Bool :=
  if (filenameSplit pathbuf).2.2 = "..".toList then false
  else if h : (filenameSplit pathbuf).1 = true then
    have := length_filenameSplit_lt h
    splitLoop (filenameSplit pathbuf).2.1
  else true
termination_by pathbuf.length

def legalPathInSandbox (path : Text) : Bool :=
  let buf := canonicalizeDirDelimiters path
  !fullpath buf && splitLoop buf

/-! ## Components -/

def components (path : Text) : List Text := path.splitOnP fun c => c = '/' || c = '\\'

/-- One component, from a directory below the sandbox; there is no result outside of it. -/
def enter (dirs : List Text) (name : Text) : Option (List Text) :=
  if name = [] ∨ name = ".".toList then some dirs
  else if name = "..".toList then if dirs = [] then none else some dirs.tail
  else some (name :: dirs)

/-- No step leaves the sandbox. -/
def Stays (path : Text) : Prop :=
  ∀ n, (((components path).take n).foldlM enter []).isSome = true

theorem components_canonicalize (path : Text) :
    (canonicalizeDirDelimiters path).splitOnP (· = '/') = components path := by
  unfold components canonicalizeDirDelimiters
  induction path with
  | nil => rfl
  | cons c path ih =>
    rw [map_cons, splitOnP_cons_eq_if_modifyHead, splitOnP_cons_eq_if_modifyHead, ih]
    by_cases hc : c = '\\' <;> simp [hc]

theorem splitLoop_iff (path : Text) :
    splitLoop path = true ↔ ∀ name ∈ path.splitOnP (· = '/'), name ≠ "..".toList := by
  have hone {s : Text} (h : '/' ∉ s) : s.splitOnP (· = '/') = [s] :=
    splitOnP_eq_singleton fun c hc => decide_eq_false fun heq => h (heq ▸ hc)
  induction hn : path.length using Nat.strong_induction_on generalizing path with
  | _ n ih =>
    obtain ⟨hpath, hsplit⟩ | ⟨dir, file, rfl, hfile, hsplit⟩ := filenameSplit_cases path
    · rw [splitLoop, hone hpath]
      simp [hsplit]
    · have hdir := ih dir.length (by simp [← hn]) dir rfl
      rw [splitLoop, splitOnP_append_cons _ _ (by simp), hone hfile, forall_mem_append]
      simp [hsplit, hdir, and_comm]

theorem isSome_foldlM {names dirs : List Text} (h : ∀ name ∈ names, name ≠ "..".toList) :
    (names.foldlM enter dirs).isSome = true := by
  induction names generalizing dirs with
  | nil => rfl
  | cons name names ih =>
    rw [forall_mem_cons] at h
    have hstep : ∃ dirs', enter dirs name = some dirs' := by
      unfold enter
      split_ifs with _ hup
      · exact ⟨_, rfl⟩
      · exact absurd hup h.1
      · exact absurd hup h.1
      · exact ⟨_, rfl⟩
    obtain ⟨dirs', hstep⟩ := hstep
    rw [foldlM_cons, hstep]
    exact ih h.2

theorem fullpath_canonicalize (path : Text) :
    fullpath (canonicalizeDirDelimiters path) = fullpath path := by
  have hback (c : Char) : (if c = '\\' then '/' else c) ≠ '\\' := by
    split <;> simp_all
  have hcolon (c : Char) : (if c = '\\' then '/' else c) = ':' ↔ c = ':' := by
    split <;> simp_all
  rcases path with _ | ⟨a, _ | ⟨b, _ | ⟨c, path⟩⟩⟩ <;>
    simp [fullpath, canonicalizeDirDelimiters, hback, hcolon,
      Bool.or_comm (decide (_ = '\\')) (decide (_ = '/'))]

/-- **What is accepted stays in the sandbox**, and every relative path without `..` is accepted. -/
theorem legalPathInSandbox_safe (path : Text) : (legalPathInSandbox path = true → Stays path) ∧
      (path[0]? ≠ some '/' → path[0]? ≠ some '\\' →
        ¬ (path[1]? = some ':' ∧ (path[2]? = some '\\' ∨ path[2]? = some '/')) →
        (∀ name ∈ components path, name ≠ "..".toList) → legalPathInSandbox path = true) := by
  have hlegal : legalPathInSandbox path = true ↔
      fullpath path = false ∧ ∀ name ∈ components path, name ≠ "..".toList := by
    rw [legalPathInSandbox, ← components_canonicalize, ← splitLoop_iff]
    simp [fullpath_canonicalize]
  rw [hlegal]
  refine ⟨fun h n => isSome_foldlM fun name hmem => h.2 name (mem_of_mem_take hmem),
    fun h0 h0' hdrive h => ?_⟩
  exact ⟨by simpa [fullpath, h0, h0'] using hdrive, h⟩

end Condor.Transfer
