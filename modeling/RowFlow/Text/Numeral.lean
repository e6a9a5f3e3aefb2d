import RowFlow.Text.Blank

/-
Whole numbers in decimal.  A numeral is one or more ASCII digits after an
optional sign; leading zeros are allowed and blanks around it are cut off before
it is read.  Reading never wraps: a number out of range is no numeral of that
range.
-/
namespace RowFlow
namespace Text
namespace Numeral

def digit? (c : Char) : Option Nat :=
  if '0' ≤ c ∧ c ≤ '9' then some (c.toNat - '0'.toNat) else none

def valueFrom (before : Nat) : List Char → Option Nat
  | [] => some before
  | c :: rest => do valueFrom (10 * before + (← digit? c)) rest

def digits? : List Char → Option Nat
  | [] => none
  | cs => valueFrom 0 cs

def unsigned? : List Char → Option Nat
  | '+' :: rest => digits? rest
  | cs => digits? cs

def signed? : List Char → Option Int
  | '-' :: rest => (digits? rest).map fun n => -(n : Int)
  | cs => (unsigned? cs).map fun n => (n : Int)

/-- A word of 64 bits without a sign, between blanks. -/
def word? (s : String) : Option UInt64 := do
  let n ← unsigned? (trim s.toList)
  if n < UInt64.size then some n.toUInt64 else none

/-- A word of 64 bits with a sign, between blanks. -/
def int64? (s : String) : Option Int64 := do
  let n ← signed? (trim s.toList)
  if Int64.minValue.toInt ≤ n ∧ n ≤ Int64.maxValue.toInt then some (Int64.ofInt n) else none

def bool? (s : String) : Option Bool :=
  match String.ofList (trim s.toList) with
  | "true" => some true
  | "false" => some false
  | _ => none

def padded (width n : Nat) : String :=
  let ds := (toString n).toList
  String.ofList (List.replicate (width - ds.length) '0' ++ ds)

end Numeral
end Text
end RowFlow
