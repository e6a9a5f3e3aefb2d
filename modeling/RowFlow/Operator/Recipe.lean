import RowFlow.Operator.Executor
import RowFlow.Operator.Rejecter
import RowFlow.Operator.RowList
import RowFlow.Operator.Script
import RowFlow.Registry
import RowFlow.Resource.Canned

/-
Recipes: operators described by data.  A recipe is made into an operator for each
step copy anew, so copies share nothing.
-/
namespace RowFlow

inductive Recipe where
  | passThrough
  /-- Rows may be sent to an error output, though none ever is. -/
  | tolerant
  | sequence
  | rows (fields : List Field) (values : List (List Value))
  /-- Rows of any schemas, or the fault for which there are none. -/
  | given (rows : Except Fault (List Row))
  | collector
  | filter (field : String) (test : ValueTest)
  | executor (resource : Canned)
  /-- No operator can be made. -/
  | broken (f : Fault)
  | rejecter (r : Rejecter)
  | script (s : Script)

namespace Recipe

def isCollector : Recipe → Bool
  | collector => true
  | _ => false

def rowsOfFields (fields : List Field) (values : List (List Value)) : Except Fault (List Row) := do
  rowsOf (← Schema.ofFields fields) values

def make : Recipe → Maker
  | .passThrough => fun _ => .ok Operator.passThrough
  | .tolerant => fun _ => .ok { Operator.passThrough with capabilities := { errorHandling := true } }
  | .sequence => fun i => (Sequence.ofInfo i).map Sequence.operator
  | .rows fields values => fun _ => (rowsOfFields fields values).map Operator.rowList
  | .given list => fun _ => list.map Operator.rowList
  | .collector => fun _ => .ok Operator.collector
  | .filter field test => fun _ => .ok (Operator.filterField field test)
  | .executor resource => fun i => (Executor.ofInfo i).map fun e => e.operator resource.resource
  | .broken f => fun _ => .error f
  | .rejecter r => fun i => .ok (r.operator i.name)
  | .script s => fun _ => .ok s.operator

end Recipe

/-- Registers recipes in their order; the first fault ends it. -/
def Registry.registerAll (r : Registry) : List (String × Recipe) → Except Fault Registry
  | [] => .ok r
  | (key, recipe) :: rest =>
    match r.register key recipe.make with
    | .error f => .error f
    | .ok r => r.registerAll rest

end RowFlow
