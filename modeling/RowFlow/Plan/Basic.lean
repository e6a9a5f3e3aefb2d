import RowFlow.Plan.Order
import RowFlow.Plan.Wiring

/-
Plans: what a definition comes to.  Its steps are in an order in which every hop
goes forward, each with what its copies read and write, and all row sets are listed.
A plan exists for the definitions that make sense; for the others there is a problem.

To build a plan takes storage: for each step that of what its copies read and write, and
for each row set that of its rows.  A piece that is too large crashes the build, whatever
else there is to say for the definition.
-/
namespace RowFlow

namespace Plan

structure CopyWiring where
  inputs : List Nat
  outputs : List Branch
  errorOutput : Option Branch
deriving DecidableEq, Repr

structure Step where
  definition : StepDefinition
  hasErrorHop : Bool
  copies : List CopyWiring
deriving DecidableEq

end Plan

structure Plan where
  steps : List Plan.Step
  rowSets : List RowSet
deriving DecidableEq

namespace Plan

/-- The steps in their order, or those that lie on a cycle or behind one. -/
def orderedSteps (steps : List StepDefinition) (hops : List Hop) :
    Except Problem (List StepDefinition) :=
  let names := steps.map (·.name)
  let pairs := hops.map fun h => (names.idxOf h.source, names.idxOf h.target)
  match order steps.length pairs with
  | .ok places => .ok (places.filterMap fun i => steps[i]?)
  | .error stuck => .error (.cycle (stuck.filterMap fun i => names[i]?))

def copiesOf (steps : List StepDefinition) (name : String) : Nat :=
  ((steps.find? (·.name == name)).map fun s => s.copies.toNat).getD 0

def stepOf (hops : List Hop) (ls : Links) (s : StepDefinition) : Step where
  definition := s
  hasErrorHop := hops.any fun h => h.source == s.name && h.kind == .error
  copies := (List.range s.copies.toNat).map fun copy => {
    inputs := inputsOf ls s.name copy
    outputs := outputsOf hops ls s.name copy
    errorOutput := errorOutputOf hops ls s.name copy }

def wire (steps : List StepDefinition) (hops : List Hop) (queueSize : Nat) : Plan :=
  let ls := linksOf (copiesOf steps) hops
  { steps := steps.map (stepOf hops ls)
    rowSets := ls.map fun (l, _) => RowSet.new l.name queueSize }

def ofDefinition (d : Definition) (queueSize : Nat) : Except Problem Plan :=
  match (problem? d).or (enabledProblem? [] [] (enabledHops d)) with
  | some p => .error p
  | none =>
    match orderedSteps (usedSteps d) (enabledHops d) with
    | .error p => .error p
    | .ok steps => .ok (wire steps (enabledHops d) queueSize)

/-- The bytes of what is kept of a copy: two lists, and a branch with its name, its row sets
and its turn. -/
def copyBytes : Nat := 128

def hasStorableCopies (s : StepDefinition) : Bool := s.copies.toNat * copyBytes ≤ storageLimit

def isStorable (steps : List StepDefinition) (hops : List Hop) (queueSize : Nat) : Bool :=
  steps.all hasStorableCopies && (hops.isEmpty || RowSet.isStorable queueSize)

/-- A definition that is found in order, but that there are no addresses for.  Unused steps
take none. -/
def overflows (d : Definition) (queueSize : Nat) : Bool :=
  match (problem? d).or (enabledProblem? [] [] (enabledHops d)) with
  | some _ => false
  | none =>
    match orderedSteps (usedSteps d) (enabledHops d) with
    | .error _ => false
    | .ok steps => !isStorable steps (enabledHops d) queueSize

def build (d : Definition) (queueSize : Nat) : Ending Plan :=
  if overflows d queueSize then .overflow
  else .returned ((ofDefinition d queueSize).mapError Problem.fault)

end Plan
end RowFlow
