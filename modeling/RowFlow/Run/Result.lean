import RowFlow.Control
import RowFlow.Counts
import RowFlow.Lifecycle

/-
What a run has come to.  Its status is judged by three things only: whether any step
copy failed, why the run was stopped if it was, and whether there were errors.
-/
namespace RowFlow

inductive RunStatus where
  | success
  /-- There were errors, but none that stopped the run. -/
  | completedWithErrors
  /-- Stopped on request or by the row limit. -/
  | stopped
  | failed
deriving DecidableEq, Repr

structure StepResult where
  step : String
  copy : Nat
  state : StepState
  /-- The state in which the work ended. -/
  outcome : Option StepState
  counts : Counts
deriving DecidableEq, Repr

structure RunResult where
  status : RunStatus
  errors : Nat
  totals : Counts
  stopReason : Option StopReason
  steps : List StepResult
deriving DecidableEq, Repr

namespace StopReason

/-- The status of a run that was stopped for this reason, if no copy failed. -/
def status : StopReason → RunStatus
  | stepFailed _ => .failed
  | errorLimit => .failed
  | external => .stopped
  | rowLimit => .stopped

end StopReason

namespace RunResult

/-- A failed copy weighs more than the reason, and the reason more than errors. -/
def classify (errors : Nat) (reason : Option StopReason) (steps : List StepResult) : RunStatus :=
  if steps.any (·.outcome == some .failed) then .failed
  else
    match reason with
    | some r => r.status
    | none => if 0 < errors then .completedWithErrors else .success

def ofSteps (errors : Nat) (reason : Option StopReason) (steps : List StepResult) : RunResult where
  status := classify errors reason steps
  errors
  totals := Counts.sum (steps.map (·.counts))
  stopReason := reason
  steps

def isSuccess (r : RunResult) : Bool := r.status == .success

def step? (r : RunResult) (step : String) (copy : Nat) : Option StepResult :=
  r.steps.find? fun s => s.step == step && s.copy == copy

def stepTotals (r : RunResult) (step : String) : Counts :=
  Counts.sum ((r.steps.filter (·.step == step)).map (·.counts))

end RunResult
end RowFlow
