/-
The life of a step copy, as others see it.
-/
namespace RowFlow

inductive StepState where
  | created
  | initialized
  | running
  | finished
  | stopped
  | failed
  | disposed
deriving DecidableEq, Repr

/-- How the work of a step copy ended. -/
inductive Outcome where
  | finished
  | stopped
  | failed
deriving DecidableEq, Repr

namespace Outcome

def state : Outcome → StepState
  | finished => .finished
  | stopped => .stopped
  | failed => .failed

end Outcome

namespace StepState

def outcome? : StepState → Option Outcome
  | finished => some .finished
  | stopped => some .stopped
  | failed => some .failed
  | _ => none

def isOutcome (s : StepState) : Bool := s.outcome?.isSome

theorem outcome?_eq_some_iff {s : StepState} {o : Outcome} :
    s.outcome? = some o ↔ s = o.state := by
  cases s <;> cases o <;> simp [outcome?, Outcome.state]

end StepState

/-- The published state.  The outcome stays when the copy is disposed. -/
structure Status where
  state : StepState := .created
  outcome : Option Outcome := none
deriving DecidableEq, Repr

namespace Status

def set (s : Status) (state : StepState) : Status :=
  { state, outcome := state.outcome?.or s.outcome }

def isDisposed (s : Status) : Bool := s.state == .disposed

end Status
end RowFlow
