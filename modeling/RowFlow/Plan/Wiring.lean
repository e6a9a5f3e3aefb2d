import RowFlow.Copy.Local
import RowFlow.Plan.Check
import RowFlow.RowSet

/-
Wiring: the row sets that lie between the copies of two steps joined by a hop.  Steps
with equally many copies are joined copy by copy, any others each copy with each.
The links of all hops in their order are the row sets of the plan, and what a copy
reads and writes is picked from that list.
-/
namespace RowFlow
namespace Plan

structure Link where
  hop : Hop
  /-- The number of the copy that writes. -/
  source : Nat
  /-- The number of the copy that reads. -/
  target : Nat
deriving DecidableEq, Repr

namespace Link

def name (l : Link) : String :=
  s!"{l.hop.source}.{l.source} - {l.hop.target}.{l.target}"

def ofHop (n m : Nat) (h : Hop) : List Link :=
  (List.range n).flatMap fun i =>
    if n = m then [⟨h, i, i⟩] else (List.range m).map fun j => ⟨h, i, j⟩

end Link

abbrev Links := List (Link × Nat)

def places (ls : Links) : List Nat := ls.map (·.2)

def linksOf (copies : String → Nat) (hops : List Hop) : Links :=
  (hops.flatMap fun h => Link.ofHop (copies h.source) (copies h.target) h).zipIdx

def inputsOf (ls : Links) (step : String) (copy : Nat) : List Nat :=
  places (ls.filter fun (l, _) => l.hop.target == step && l.target == copy)

def branchOf (ls : Links) (copy : Nat) (h : Hop) : Branch where
  target := h.target
  rowSets := places (ls.filter fun (l, _) => l.hop == h && l.source == copy)

def outputsOf (hops : List Hop) (ls : Links) (step : String) (copy : Nat) : List Branch :=
  (hops.filter fun h => h.source == step && h.kind == .normal).map (branchOf ls copy)

def errorOutputOf (hops : List Hop) (ls : Links) (step : String) (copy : Nat) : Option Branch :=
  (hops.find? fun h => h.source == step && h.kind == .error).map (branchOf ls copy)

end Plan
end RowFlow
