import RowFlow.Moment
import RowFlow.Number.Shortest

/-
The values of a row's fields.  A value carries its own type, except for the null
value, which has none and goes into a field of any type.
-/
namespace RowFlow

inductive ValueType where
  | string
  | integer
  | number
  | date
  | binary
  | boolean
deriving DecidableEq, Repr

namespace ValueType

def all : List ValueType := [string, integer, number, date, binary, boolean]

def text : ValueType → String
  | string => "String"
  | integer => "Integer"
  | number => "Number"
  | date => "Date"
  | binary => "Binary"
  | boolean => "Boolean"

theorem mem_all (t : ValueType) : t ∈ all := by cases t <;> decide

end ValueType

inductive Value where
  | null
  | string (s : String)
  | integer (n : Int64)
  | number (x : Binary64)
  | date (d : Moment)
  | binary (bytes : List UInt8)
  | boolean (b : Bool)
deriving DecidableEq, Repr

namespace Value

def type? : Value → Option ValueType
  | null => none
  | string _ => some .string
  | integer _ => some .integer
  | number _ => some .number
  | date _ => some .date
  | binary _ => some .binary
  | boolean _ => some .boolean

/-- Null goes into a field of any type. -/
def hasType (v : Value) (t : ValueType) : Bool :=
  match v.type? with
  | none => true
  | some own => own == t

def isNull (v : Value) : Bool := v.type?.isNone

def typeText (v : Value) : String :=
  match v.type? with
  | none => "Null"
  | some t => t.text

/-- Equality of values: numbers are compared as numbers. -/
def equals : Value → Value → Bool
  | number x, number y => x.equals y
  | v, w => v == w

def text : Value → String
  | null => "<null>"
  | string s => s
  | integer n => toString n.toInt
  | number x => x.text
  | date d => d.text
  | binary bytes => s!"<{bytes.length} bytes>"
  | boolean b => if b then "Y" else "N"

@[simp] theorem hasType_null (t : ValueType) : null.hasType t = true := rfl

theorem hasType_iff {v : Value} {t : ValueType} :
    v.hasType t = true ↔ v.type? = none ∨ v.type? = some t := by
  unfold hasType
  cases v.type? with
  | none => simp
  | some own => simp

end Value
end RowFlow
