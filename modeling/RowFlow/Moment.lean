import RowFlow.Text.Numeral

/-
Calendar dates with a time of day.  A leap second is held as second 59 with the
nanoseconds counted on past a billion, and is written as second 60.
-/
namespace RowFlow

structure Moment where
  year : Int
  month : Nat
  day : Nat
  hour : Nat
  minute : Nat
  second : Nat
  nanos : Nat
deriving DecidableEq, Repr

namespace Moment

def nanosPerSecond : Nat := 1000000000

/-- Four digits at least; a sign stands before years outside 0 to 9999. -/
def yearText (year : Int) : String :=
  let digits := Text.Numeral.padded 4 year.natAbs
  if year < 0 then "-" ++ digits
  else if 9999 < year then "+" ++ digits
  else digits

/-- Year, month and day, then the time cut off after the milliseconds. -/
def text (m : Moment) : String :=
  let two := Text.Numeral.padded 2
  let second := m.second + m.nanos / nanosPerSecond
  let millis := m.nanos % nanosPerSecond / 1000000
  yearText m.year ++ "/" ++ two m.month ++ "/" ++ two m.day ++ " " ++ two m.hour ++ ":" ++
    two m.minute ++ ":" ++ two second ++ "." ++ Text.Numeral.padded 3 millis

end Moment
end RowFlow
