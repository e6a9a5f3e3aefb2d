/-
Floating point numbers of 64 bits, held by their bits.  Rows are compared,
stored and printed, and none of that needs arithmetic: with the bits in hand two
rows can be told apart by `DecidableEq`, and what a number is worth is the exact
product `mantissa * 2 ^ scale`.
-/
namespace RowFlow

structure Binary64 where
  bits : UInt64
deriving DecidableEq, Repr

namespace Binary64

def isNegative (x : Binary64) : Bool := x.bits.toNat / Nat.pow 2 63 == 1

def exponentField (x : Binary64) : Nat := x.bits.toNat / Nat.pow 2 52 % Nat.pow 2 11

def fraction (x : Binary64) : Nat := x.bits.toNat % Nat.pow 2 52

def isNaN (x : Binary64) : Bool := x.exponentField == 2047 && x.fraction != 0

def isInfinite (x : Binary64) : Bool := x.exponentField == 2047 && x.fraction == 0

def isZero (x : Binary64) : Bool := x.exponentField == 0 && x.fraction == 0

/-- A finite number is worth `mantissa * 2 ^ scale`, up to its sign. -/
def mantissa (x : Binary64) : Nat :=
  if x.exponentField = 0 then x.fraction else Nat.pow 2 52 + x.fraction

def scale (x : Binary64) : Int :=
  if x.exponentField = 0 then -1074 else (x.exponentField : Int) - 1075

/-- The number below is only half as far away as the number above: the mantissa
is the least of its scale, and a finer scale follows. -/
def nearerBelow (x : Binary64) : Bool := x.fraction == 0 && 1 < x.exponentField

/-- Numeric equality: a NaN equals nothing, and the two zeros are one number. -/
def equals (x y : Binary64) : Bool :=
  !x.isNaN && !y.isNaN && (x == y || (x.isZero && y.isZero))

def ofFields (negative : Bool) (exponentField fraction : Nat) : Binary64 :=
  ⟨((if negative then Nat.pow 2 63 else 0) + exponentField * Nat.pow 2 52 + fraction).toUInt64⟩

/-- `num / den` to the nearest whole number, a half to the even neighbour. -/
def roundHalfEven (num den : Nat) : Nat :=
  let q := num / den
  let r := num % den
  if 2 * r < den then q
  else if den < 2 * r then q + 1
  else q + q % 2

/-- The number nearest to a whole number, for whole numbers of at most 64 bits.
A mantissa that rounds up to the next power of two carries into the exponent. -/
def ofInt (i : Int) : Binary64 :=
  let n := i.natAbs
  if n = 0 then ofFields false 0 0
  else
    let top := Nat.log2 n
    let m :=
      if top ≤ 52 then n * Nat.pow 2 (52 - top) else roundHalfEven n (Nat.pow 2 (top - 52))
    let sign := if i < 0 then Nat.pow 2 63 else 0
    ⟨(sign + (top + 1022) * Nat.pow 2 52 + m).toUInt64⟩

end Binary64
end RowFlow
