import RowFlow.Number.Binary64

/-
The shortest decimal text of a number.  A decimal reads back as `x` when it lies
in the interval of reals that round to `x`; the ends belong to it when the
mantissa is even.  Among the decimal grids the coarsest one with a point in the
interval is taken.  If any point of a grid lies there, so does one of the two
neighbours of `x` on that grid, so only those two are tried; of two hits the
nearer wins, and the upper one when they are equally near.
-/
namespace RowFlow

/-- The number `digits * 10 ^ exponent`. -/
structure Decimal where
  digits : Nat
  exponent : Int
deriving DecidableEq, Repr

/-- The interval that rounds to a number, as natural numbers over one
denominator. -/
structure Rounding where
  low : Nat
  value : Nat
  high : Nat
  den : Nat
  closed : Bool

namespace Rounding

def ofBinary (x : Binary64) : Rounding :=
  let m := 4 * x.mantissa
  let s := x.scale - 2
  let up := Nat.pow 2 s.toNat
  { low := (m - if x.nearerBelow then 1 else 2) * up
    value := m * up
    high := (m + 2) * up
    den := Nat.pow 2 (-s).toNat
    closed := x.mantissa % 2 == 0 }

def above (r : Rounding) (a b : Nat) : Bool := if r.closed then b ≤ a else b < a

/-- The point of the grid with step `10 ^ t` that is the text of the number, if
that grid has one. -/
def onGrid? (r : Rounding) (t : Int) : Option Nat :=
  let up := Nat.pow 10 (-t).toNat
  let step := r.den * Nat.pow 10 t.toNat
  let below := r.value * up / step
  let lowHit := r.above (below * step) (r.low * up)
  let highHit := r.above (r.high * up) ((below + 1) * step)
  let upperNearer := step ≤ 2 * (r.value * up - below * step)
  if lowHit && !(highHit && upperNearer) then some below
  else if highHit then some (below + 1)
  else none

/-- The coarsest grid with a hit among the steps `10 ^ (n - 401)` and finer. -/
def search (r : Rounding) : Nat → Decimal
  | 0 => ⟨0, 0⟩
  | n + 1 =>
    let t := (n : Int) - 400
    match r.onGrid? t with
    | some d => ⟨d, t⟩
    | none => r.search n

/-- No finite number reaches `10 ^ 309`, and `10 ^ (-400)` is finer than all of
them need. -/
def shortest (r : Rounding) : Decimal := r.search 711

end Rounding

namespace Decimal

/-- Positional notation, never an exponent: zeros fill up to the units, and a
point with at least one digit before it divides a fraction. -/
def positional (d : Decimal) : String :=
  let ds := (toString d.digits).toList
  if 0 ≤ d.exponent then String.ofList (ds ++ List.replicate d.exponent.toNat '0')
  else
    let places := (-d.exponent).toNat
    let ds := List.replicate (places + 1 - ds.length) '0' ++ ds
    String.ofList (ds.take (ds.length - places) ++ '.' :: ds.drop (ds.length - places))

end Decimal

namespace Binary64

/-- A NaN has no sign; a zero keeps its own. -/
def text (x : Binary64) : String :=
  if x.isNaN then "NaN"
  else
    let sign := if x.isNegative then "-" else ""
    if x.isInfinite then sign ++ "inf"
    else if x.isZero then sign ++ "0"
    else sign ++ (Rounding.ofBinary x).shortest.positional

end Binary64
end RowFlow
