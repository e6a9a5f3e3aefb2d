import RowFlow.Operator.PassThrough

/-
An operator that rejects the rows whose field passes a test.  A rejection is a failure
of the row or of the whole step.
-/
namespace RowFlow

structure Rejecter where
  field : String
  test : ValueTest
  /-- Rows may go to the error output. -/
  recoverable : Bool := false
  /-- A rejection concerns the row and not the step. -/
  rowFailure : Bool := false
  diagnostic : Diagnostic

namespace Rejecter

def rejection (r : Rejecter) (step : String) (row : Row) : Fault :=
  if r.recoverable || r.rowFailure then .rowFailed row r.diagnostic
  else .stepFailed step r.diagnostic.message

def operator (r : Rejecter) (step : String) : Operator where
  State := Unit
  start := ()
  capabilities := { errorHandling := r.recoverable }
  process s := Behaviour.withRow s fun row =>
    match row.getByName r.field with
    | .error f => Behaviour.fail s f
    | .ok v =>
      if r.test.holds v then Behaviour.fail s (r.rejection step row)
      else Behaviour.forward s row

end Rejecter
end RowFlow
