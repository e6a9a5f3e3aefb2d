import RowFlow.Counts
import RowFlow.Lifecycle
import RowFlow.Resource.Basic
import RowFlow.StepInfo

/-
What step copies leave for others to read: the rows that were collected, what their
resources saw, and the answers that scripts were given.
-/
namespace RowFlow

/-- What a step copy can learn about itself while it runs. -/
structure View where
  info : StepInfo
  /-- The number of inputs; a source has none. -/
  inputs : Nat
  targets : List String
  /-- The schema of the first row that was read. -/
  inputSchema : Option Schema
  errorHandling : Bool
  outputDone : Bool
  outcome : Option Outcome
  counts : Counts
deriving DecidableEq

namespace View

def isSource (v : View) : Bool := v.inputs == 0

end View

inductive Answer where
  | ok
  | fault (f : Fault)
  | row (r : Option Row)
  | noRow
  | count (n : Nat)
  | flag (b : Bool)
  | view (v : View) (stopped : Bool) (params : List (Option String))
deriving DecidableEq

inductive Note where
  | collected (row : Row)
  | resource (event : Resource.Event)
  | answer (a : Answer)
  | disposing (outcome : Option Outcome)
deriving DecidableEq

/-- A note with the step copy that made it. -/
structure Entry where
  step : String
  copy : Nat
  note : Note
deriving DecidableEq

/-- Entries, the latest first. -/
abbrev Journal := List Entry

namespace Journal

def collected (j : Journal) (steps : String → Bool) : List Row :=
  j.reverse.filterMap fun e =>
    match e.note with
    | .collected row => if steps e.step then some row else none
    | _ => none

def notesOf (j : Journal) (step : String) (copy : Nat) : List Note :=
  (j.reverse.filter fun e => e.step == step && e.copy == copy).map (·.note)

end Journal
end RowFlow
