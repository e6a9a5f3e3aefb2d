import RowFlow.Row.Build
import RowFlow.Json.Printer
import RowFlow.Json.Reader
import RowFlow.Json.Record

/-
The stored form of schemas.  Hints that are not given are not written.
-/
namespace RowFlow

namespace ValueType

def key : ValueType → String
  | string => "string"
  | integer => "integer"
  | number => "number"
  | date => "date"
  | binary => "binary"
  | boolean => "boolean"

def ofKey? (key : String) : Option ValueType := all.find? (·.key == key)

def toJson (t : ValueType) : Json := .string t.key

def ofJson? (v : Json) : Option ValueType := v.choice?.bind ofKey?

theorem ofKey?_key (t : ValueType) : ofKey? t.key = some t := by cases t <;> decide

theorem ofJson?_toJson (t : ValueType) : ofJson? t.toJson = some t := ofKey?_key t

end ValueType

/-- A member that is written only when there is something to write. -/
def Json.member? {α : Type} (name : String) (f : α → Json) : Option α → List (String × Json)
  | none => []
  | some a => [(name, f a)]

namespace Field

def toJson (f : Field) : Json :=
  .object ([("name", .string f.name), ("value_type", f.type.toJson)] ++
    Json.member? "length" (fun n => .nat n.toNat) f.length ++
    Json.member? "precision" (fun n => .nat n.toNat) f.precision)

def ofJson? (v : Json) : Option Field := do
  match ← v.slots? ["name", "value_type", "length", "precision"] with
  | [name, type, length, precision] =>
    return {
      name := ← Json.required Json.string? name
      type := ← Json.required ValueType.ofJson? type
      length := ← Json.optional none (Json.nullable? Json.word32?) length
      precision := ← Json.optional none (Json.nullable? Json.word32?) precision }
  | _ => none

end Field

namespace Schema

def toJson (s : Schema) : Json := .object [("fields", .array (s.fields.map Field.toJson))]

/-- The fields are taken as they are; their names are not compared. -/
def ofJson? (v : Json) : Option Schema := do
  match ← v.slots? ["fields"] with
  | [fields] => return ⟨← Json.required (Json.list? Field.ofJson?) fields⟩
  | _ => none

end Schema
end RowFlow
