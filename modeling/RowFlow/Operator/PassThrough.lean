import RowFlow.Operator.Basic

/-
The operators that hand on what they get: `passThrough` all rows, `filter` those
that pass a test, and `collector` all rows after noting them.
-/
namespace RowFlow

inductive ValueTest where
  | isNull
  | isNotNull
  /-- An integer with this remainder, which is never negative. -/
  | remainder (modulus rest : Int)
  | above (n : Int)
  | below (n : Int)
  | equal (v : Value)
deriving DecidableEq

namespace ValueTest

def holds (t : ValueTest) (v : Value) : Bool :=
  match t, v with
  | isNull, v => v.isNull
  | isNotNull, v => !v.isNull
  | remainder m r, .integer n => n.toInt.emod m == r
  | above m, .integer n => m < n.toInt
  | below m, .integer n => n.toInt < m
  | equal w, v => v.equals w
  | _, _ => false

end ValueTest

namespace Operator

def passThrough : Operator where
  State := Unit
  start := ()
  process s := Behaviour.withRow s fun row => Behaviour.forward s row

/-- Rows that a predicate refuses are dropped; where it fails, the step fails. -/
def filter (keep : Row → Except Fault Bool) : Operator where
  State := Unit
  start := ()
  process s := Behaviour.withRow s fun row =>
    match keep row with
    | .error f => Behaviour.fail s f
    | .ok true => Behaviour.forward s row
    | .ok false => Behaviour.finish s true

def filterField (field : String) (test : ValueTest) : Operator :=
  filter fun row => (row.getByName field).map test.holds

/-- Rows are noted before they are sent on. -/
def collector : Operator where
  State := Unit
  start := ()
  process s := Behaviour.withRow s fun row => do
    Behaviour.note (.collected row)
    Behaviour.forward s row

end Operator
end RowFlow
