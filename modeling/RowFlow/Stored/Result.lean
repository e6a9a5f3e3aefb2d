import RowFlow.Json.Record
import RowFlow.Run.Result

/-
The stored form of results.  The counts of a step stand among its own members.  No
clock is kept, so every duration is written as none.
-/
namespace RowFlow

namespace StepState

def key : StepState → String
  | created => "created"
  | initialized => "initialized"
  | running => "running"
  | finished => "finished"
  | stopped => "stopped"
  | failed => "failed"
  | disposed => "disposed"

def all : List StepState :=
  [created, initialized, running, finished, stopped, failed, disposed]

def ofKey? (key : String) : Option StepState := all.find? (·.key == key)

def toJson (s : StepState) : Json := .string s.key

theorem ofKey?_key (s : StepState) : ofKey? s.key = some s := by cases s <;> decide

end StepState

namespace StopReason

def toJson : StopReason → Json
  | stepFailed step => .object [("kind", .string "step_failed"), ("step", .string step)]
  | external => .object [("kind", .string "external")]
  | errorLimit => .object [("kind", .string "error_limit")]
  | rowLimit => .object [("kind", .string "row_limit")]

def ofJson? (v : Json) : Option StopReason := do
  match ← v.slots? ["kind", "step"] with
  | [some (.string "step_failed"), some (.string step)] => return .stepFailed step
  | [some (.string "external"), none] => return .external
  | [some (.string "error_limit"), none] => return .errorLimit
  | [some (.string "row_limit"), none] => return .rowLimit
  | _ => none

theorem ofJson?_toJson (r : StopReason) : ofJson? r.toJson = some r := by cases r <;> rfl

end StopReason

namespace Counter

def key : Counter → String
  | read => "read"
  | written => "written"
  | input => "input"
  | output => "output"
  | updated => "updated"
  | inserted => "inserted"
  | deleted => "deleted"
  | rejected => "rejected"
  | errors => "errors"

def ofKey? (key : String) : Option Counter := all.find? (·.key == key)

theorem ofKey?_key (c : Counter) : ofKey? c.key = some c := by cases c <;> decide

end Counter

namespace Counts

def members (c : Counts) : List (String × Json) :=
  Counter.all.map fun k => (k.key, .nat (c.get k))

def toJson (c : Counts) : Json := .object c.members

end Counts

namespace RunStatus

def key : RunStatus → String
  | success => "success"
  | completedWithErrors => "completed_with_errors"
  | stopped => "stopped"
  | failed => "failed"

def all : List RunStatus := [success, completedWithErrors, stopped, failed]

def ofKey? (key : String) : Option RunStatus := all.find? (·.key == key)

def toJson (s : RunStatus) : Json := .string s.key

theorem ofKey?_key (s : RunStatus) : ofKey? s.key = some s := by cases s <;> decide

end RunStatus

def Json.noDuration : Json := .object [("secs", .nat 0), ("nanos", .nat 0)]

namespace StepResult

/-- `I` and `O` are what came from outside and went there; `R` and `W` the rows taken
and sent on. -/
def summary (s : StepResult) : String := s.counts.summary

def toJson (s : StepResult) : Json :=
  .object ([("step", .string s.step), ("copy", .nat s.copy), ("state", s.state.toJson),
    ("outcome", Json.nullable StepState.toJson s.outcome)] ++ s.counts.members ++
    [("duration", Json.noDuration)])

end StepResult

namespace RunResult

def toJson (r : RunResult) : Json :=
  .object [("status", r.status.toJson), ("errors", .nat r.errors), ("totals", r.totals.toJson),
    ("stop_reason", Json.nullable StopReason.toJson r.stopReason),
    ("steps", .array (r.steps.map StepResult.toJson)), ("duration", Json.noDuration)]

end RunResult
end RowFlow
