import RowFlow.Operator.Basic

/-
A source of consecutive integers.  A sequence whose last number does not fit into
64 bits is refused when it is made.  Counting on never wraps: the next number is
computed only while there is one to come, and it would be a fault if 64 bits could
not hold it.
-/
namespace RowFlow

structure Sequence where
  field : String
  next : Int64
  remaining : Nat
deriving DecidableEq, Repr

namespace Sequence

def make (field : String) (start : Int64) (count : Nat) : Except Fault Sequence :=
  if 0 < count ∧ Int64.maxValue.toInt < start.toInt + (count - 1 : Nat) then
    .error (.config
      s!"sequence of {count} rows starting at {start.toInt} overflows i64")
  else .ok { field, next := start, remaining := count }

/-- A count has to be given; it starts at one and fills the field `id` unless the
parameters say otherwise. -/
def ofInfo (i : StepInfo) : Except Fault Sequence := do
  let _ ← i.requiredParam "count"
  let count ← i.parseParam Text.Numeral.word? "count"
  let start ← i.parseParam Text.Numeral.int64? "start"
  make ((i.param? "field").getD "id") (start.getD 1) ((count.getD 0).toNat)

def schema (s : Sequence) : Schema := ⟨[{ name := s.field, type := .integer }]⟩

def row (s : Sequence) : Row where
  schema := s.schema
  values := [.integer s.next]
  fits := rfl

/-- The number after `n`, if 64 bits can hold it. -/
def after? (n : Int64) : Option Int64 := if n = Int64.maxValue then none else some (n + 1)

/-- What is left when the next number is gone, and whether there may be more. -/
def advance (s : Sequence) : Sequence × Ending Bool :=
  let rest := { s with remaining := s.remaining - 1 }
  if rest.remaining = 0 then (rest, .returned (.ok true))
  else
    match after? s.next with
    | some next => ({ rest with next }, .returned (.ok true))
    | none => (rest, .returned (.error (.config "sequence overflows i64")))

def operator (s : Sequence) : Operator where
  State := Sequence
  start := s
  process s :=
    if s.remaining = 0 then Behaviour.finish s false
    else do
      match ← Behaviour.putRow s.row with
      | .ok () => .done s.advance
      | .error f => Behaviour.fail s f

end Sequence
end RowFlow
