import RowFlow.Fault

/-
Building schemas and rows, and reading them by type and by name.  Names of a
schema are checked when it is built or extended; values are checked against the
schema when a row is built or extended.
-/
namespace RowFlow

namespace Schema

def ofFields (fields : List Field) : Except Fault Schema :=
  match firstRepeat? [] (fields.map (·.name)) with
  | some name => .error (.schema s!"duplicate field name '{name}'")
  | none => .ok ⟨fields⟩

def extended (s : Schema) (extra : List Field) : Except Fault Schema :=
  ofFields (s.fields ++ extra)

theorem ofFields_eq_ok_iff {fields : List Field} {s : Schema} :
    ofFields fields = .ok s ↔ s = ⟨fields⟩ ∧ (fields.map (·.name)).Nodup := by
  unfold ofFields
  split
  · next n h =>
    have : ¬ (fields.map (·.name)).Nodup := fun hn => by
      rw [firstRepeat?_eq_none_iff.mpr ⟨hn, by simp⟩] at h
      simp at h
    simp [this]
  · next h =>
    have hn := (firstRepeat?_eq_none_iff.mp h).1
    simp only [Except.ok.injEq]
    exact ⟨fun e => ⟨e.symm, hn⟩, fun e => e.1.symm⟩

end Schema

def Misfit.fault : Misfit → Fault
  | count values fields =>
    .schema s!"row has {values} values but schema has {fields} fields"
  | type field value => .typeMismatch field.name field.type.text value.typeText

namespace Row

def ofValues (schema : Schema) (values : List Value) : Except Fault Row :=
  match h : schema.misfit? values with
  | some misfit => .error misfit.fault
  | none => .ok ⟨schema, values, h⟩

/-- The row with further values after its own, held to a schema that has fields
for them. -/
def extend (r : Row) (schema : Schema) (extra : List Value) : Except Fault Row :=
  ofValues schema (r.values ++ extra)

def getByName (r : Row) (name : String) : Except Fault Value :=
  match r.find? name with
  | some v => .ok v
  | none => .error (.fieldNotFound name)

theorem ofValues_eq_ok_iff {schema : Schema} {values : List Value} {r : Row} :
    ofValues schema values = .ok r ↔ r.schema = schema ∧ r.values = values := by
  unfold ofValues
  split
  · next m h =>
    constructor
    · intro e; simp at e
    · rintro ⟨rfl, rfl⟩
      rw [r.fits] at h
      simp at h
  · next h =>
    constructor
    · intro e
      simp only [Except.ok.injEq] at e
      subst e
      exact ⟨rfl, rfl⟩
    · rintro ⟨rfl, rfl⟩
      rfl

end Row

namespace Value

/-- The fault of a value that is not of the type asked for; no field is at fault. -/
def mismatch (v : Value) (expected : ValueType) : Fault :=
  .typeMismatch "" expected.text v.typeText

def asInteger : Value → Except Fault Int64
  | integer n => .ok n
  | v => .error (v.mismatch .integer)

/-- Integers are read as numbers too, rounded to the nearest one. -/
def asNumber : Value → Except Fault Binary64
  | number x => .ok x
  | integer n => .ok (.ofInt n.toInt)
  | v => .error (v.mismatch .number)

def asString : Value → Except Fault String
  | string s => .ok s
  | v => .error (v.mismatch .string)

def asBoolean : Value → Except Fault Bool
  | boolean b => .ok b
  | v => .error (v.mismatch .boolean)

def asBytes : Value → Except Fault (List UInt8)
  | binary bytes => .ok bytes
  | v => .error (v.mismatch .binary)

def asDate : Value → Except Fault Moment
  | date d => .ok d
  | v => .error (v.mismatch .date)

end Value
end RowFlow
