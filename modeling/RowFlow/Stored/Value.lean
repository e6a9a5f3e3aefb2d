import RowFlow.Stored.Schema
import RowFlow.Text.Hex

/-
The stored form of values: an object of one member, which is named for the type.  Null
stands for itself.  Numbers are stored by their bits, in which all NaNs are one, and
bytes by their digits; a date is the list of its parts from the year to the nanoseconds.
-/
namespace RowFlow

namespace Binary64

def nan : Binary64 := ⟨0x7ff8000000000000⟩

def toJson (x : Binary64) : Json :=
  let x := if x.isNaN then nan else x
  .string (String.ofList (Text.Hex.digits 16 x.bits.toNat))

end Binary64

namespace Moment

def toJson (d : Moment) : Json :=
  .array (.integer d.year :: [d.month, d.day, d.hour, d.minute, d.second, d.nanos].map .nat)

def ofJson? : Json → Option Moment
  | .array (.integer year :: parts) => do
    match ← parts.mapM (Json.below? UInt32.size) with
    | [month, day, hour, minute, second, nanos] =>
      return { year, month, day, hour, minute, second, nanos }
    | _ => none
  | _ => none

end Moment

namespace Value

def bytesToJson (bytes : List UInt8) : Json := .string (String.ofList (Text.Hex.ofBytes bytes))

def member (t : ValueType) (v : Json) : Json := .object [(t.key, v)]

def toJson : Value → Json
  | null => .null
  | string s => member .string (.string s)
  | integer n => member .integer (.integer n.toInt)
  | number x => member .number x.toJson
  | date d => member .date d.toJson
  | binary bytes => member .binary (bytesToJson bytes)
  | boolean b => member .boolean (.bool b)

def ofJson? : Json → Option Value
  | .null => some .null
  | .object [(key, v)] =>
    match ValueType.ofKey? key, v with
    | some .string, .string s => some (.string s)
    | some .integer, .integer n => some (.integer (Int64.ofInt n))
    | some .number, .string s => some (.number ⟨(Text.Hex.number s.toList).toUInt64⟩)
    | some .date, v => (Moment.ofJson? v).map .date
    | some .binary, .string s => some (.binary (Text.Hex.bytes s.toList))
    | some .boolean, .bool b => some (.boolean b)
    | _, _ => none
  | _ => none

end Value
end RowFlow
