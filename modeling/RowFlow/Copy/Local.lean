import RowFlow.Journal

/-
The part of a step copy that it alone changes: which row sets it reads and writes,
where it stands in them, and what it has counted.  Row sets are named by their
place in the list of all row sets.
-/
namespace RowFlow

/-- The row sets that lead to the copies of one target, used in turn. -/
structure Branch where
  target : String
  rowSets : List Nat
  next : Nat := 0
deriving DecidableEq, Repr

namespace Branch

def current? (b : Branch) : Option Nat := b.rowSets[b.next % b.rowSets.length]?

def advance (b : Branch) : Branch := if b.rowSets.isEmpty then b else { b with next := b.next + 1 }

end Branch

structure Local where
  info : StepInfo
  inputs : List Nat := []
  /-- The inputs whose end has not been seen. -/
  pending : List Nat := []
  /-- The place among the pending inputs to look at next. -/
  cursor : Nat := 0
  outputs : List Branch := []
  errorOutput : Option Branch := none
  errorHandling : Bool := false
  inputSchema : Option Schema := none
  outputDone : Bool := false
  outcome : Option Outcome := none
  counts : Counts := {}
  status : Status := {}
  /-- The work was cancelled from outside. -/
  cancelled : Bool := false
deriving DecidableEq

namespace Local

def fresh (info : StepInfo) (inputs : List Nat) (outputs : List Branch)
    (errorOutput : Option Branch) : Local :=
  { info, inputs, pending := inputs, outputs, errorOutput }

def isSource (l : Local) : Bool := l.inputs.isEmpty

/-- All row sets that the copy writes to, the error output last. -/
def outlets (l : Local) : List Nat := (l.outputs ++ l.errorOutput.toList).flatMap (·.rowSets)

def place (l : Local) : Nat := l.cursor % l.pending.length

def pass (l : Local) : Local := { l with cursor := l.place + 1 }

/-- The input that the cursor points at has ended. -/
def drop (l : Local) : Local := { l with pending := l.pending.eraseIdx l.place }

/-- A row was read from the input that the cursor points at. -/
def taken (l : Local) (row : Row) : Local :=
  { l.pass with
    counts := l.counts.add 1 .read
    inputSchema := l.inputSchema.or (some row.schema) }

def view (l : Local) : View where
  info := l.info
  inputs := l.inputs.length
  targets := l.outputs.map (·.target)
  inputSchema := l.inputSchema
  errorHandling := l.errorHandling
  outputDone := l.outputDone
  outcome := l.outcome
  counts := l.counts

end Local

/-- Where a row is sent to: one of the outputs, or the error output. -/
inductive Outlet where
  | output (place : Nat)
  | error
deriving DecidableEq, Repr

namespace Local

def branch? (l : Local) : Outlet → Option Branch
  | .output place => l.outputs[place]?
  | .error => l.errorOutput

def passTurn (l : Local) : Outlet → Local
  | .output place => { l with outputs := l.outputs.modify place Branch.advance }
  | .error => { l with errorOutput := l.errorOutput.map Branch.advance }

/-- The row set of an outlet whose turn it is; the turn passes on. -/
def choose (l : Local) (o : Outlet) : Local × Option Nat :=
  (l.passTurn o, (l.branch? o).bind Branch.current?)

end Local
end RowFlow
