import RowFlow.Behaviour
import RowFlow.Row.Build

/-
Operators: what a step does with its rows.  An operator has a state of its own and
three hooks, one before any row flows, one for each unit of work and one at the end.
A hook is a behaviour that ends in a new state and in a result, or in a crash, after
which the state still stands.
-/
namespace RowFlow

structure Capabilities where
  /-- Row failures may go to an error output. -/
  errorHandling : Bool := false
  /-- The work is done in transactions. -/
  transactional : Bool := false
deriving DecidableEq, Repr

structure Operator where
  State : Type
  start : State
  capabilities : Capabilities := {}
  init : State → Behaviour (State × Ending Unit) := fun s => .done (s, .returned (.ok ()))
  /-- One unit of work; the result is whether there may be more. -/
  process : State → Behaviour (State × Ending Bool)
  dispose : State → Behaviour (State × Ending Unit) := fun s => .done (s, .returned (.ok ()))
  /-- The answer to a request to cancel, if the operator takes such requests. -/
  canceller : Option (Except Fault Unit) := none

namespace Behaviour

variable {σ α : Type}

def finish (s : σ) (a : α) : Behaviour (σ × Ending α) := .done (s, .returned (.ok a))

def fail (s : σ) (f : Fault) : Behaviour (σ × Ending α) := .done (s, .returned (.error f))

/-- Sends a row on and asks for more work. -/
def forward (s : σ) (row : Row) : Behaviour (σ × Ending Bool) := do
  match ← putRow row with
  | .ok () => finish s true
  | .error f => fail s f

/-- Takes a row and does something with it; without a row the work is done. -/
def withRow (s : σ) (body : Row → Behaviour (σ × Ending Bool)) : Behaviour (σ × Ending Bool) := do
  match ← getRow with
  | none => finish s false
  | some row => body row

end Behaviour
end RowFlow
