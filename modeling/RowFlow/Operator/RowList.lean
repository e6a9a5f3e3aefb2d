import RowFlow.Operator.Basic

/-
A source of given rows.  A row leaves the list before it is sent.
-/
namespace RowFlow

/-- The rows of one schema with these values; the first that does not fit decides. -/
def rowsOf (schema : Schema) : List (List Value) → Except Fault (List Row)
  | [] => .ok []
  | vs :: rest => do
    let row ← Row.ofValues schema vs
    return row :: (← rowsOf schema rest)

namespace Operator

def rowList (rows : List Row) : Operator where
  State := List Row
  start := rows
  process
    | [] => Behaviour.finish [] false
    | row :: rest => Behaviour.forward rest row

end Operator
end RowFlow
