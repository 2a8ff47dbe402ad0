import Mathlib.Data.List.Basic

/-!
# Messages in packets

A message is cut into packets, of which the last one is marked. `assemble` joins the packets to
messages again.
-/

namespace Condor.Packets

variable {α : Type*}

/-- A part of a message. -/
structure Packet (α : Type*) where
  last : Bool
  body : List α
deriving DecidableEq, Repr

/-- A packet is joined to the messages that are complete and to the one that is not. -/
def join (s : List (List α) × List α) (p : Packet α) : List (List α) × List α :=
  if p.last then (s.1 ++ [s.2 ++ p.body], []) else (s.1, s.2 ++ p.body)

def assemble (s : List (List α) × List α) (ps : List (Packet α)) : List (List α) × List α :=
  ps.foldl join s

variable {s : List (List α) × List α} {ps qs : List (Packet α)}

@[simp] theorem assemble_nil : assemble s [] = s := rfl

@[simp] theorem assemble_cons {p : Packet α} : assemble s (p :: ps) = assemble (join s p) ps := rfl

theorem assemble_append : assemble s (ps ++ qs) = assemble (assemble s ps) qs := List.foldl_append

theorem assemble_inside (h : ∀ p ∈ ps, p.last = false) :
    assemble s ps = (s.1, s.2 ++ ps.flatMap Packet.body) := by
  induction ps generalizing s with
  | nil => simp
  | cons p ps ih =>
    rw [assemble_cons, ih fun q hq => h q (List.mem_cons_of_mem _ hq)]
    simp [join, h p List.mem_cons_self]

variable (s ps) in
theorem assemble_extends : ∃ rest, (assemble s ps).1 = s.1 ++ rest := by
  induction ps generalizing s with
  | nil => exact ⟨[], by simp⟩
  | cons p ps ih =>
    obtain ⟨rest, hrest⟩ := ih (join s p)
    rw [assemble_cons, hrest, join]
    split_ifs
    · exact ⟨[s.2 ++ p.body] ++ rest, by simp⟩
    · exact ⟨rest, rfl⟩

end Condor.Packets
