import RowFlow.Schema

/-
Rows: values held to a schema.  A row has one value for each field, of the field's
type or null.  That is part of the type, so whatever reads or moves rows may rely
on it; `misfit?` says what is wrong with values that are no row.
-/
namespace RowFlow

/-- The first thing that keeps values from being a row of a schema. -/
inductive Misfit where
  | count (values fields : Nat)
  | type (field : Field) (value : Value)
deriving DecidableEq, Repr

namespace Schema

def typeMisfit? : List Field → List Value → Option Misfit
  | f :: fs, v :: vs => if v.hasType f.type then typeMisfit? fs vs else some (.type f v)
  | _, _ => none

def misfit? (s : Schema) (values : List Value) : Option Misfit :=
  if s.size = values.length then typeMisfit? s.fields values
  else some (.count values.length s.size)

end Schema

structure Row where
  schema : Schema
  values : List Value
  fits : schema.misfit? values = none
deriving DecidableEq, Repr

namespace Row

def size (r : Row) : Nat := r.values.length

def get? (r : Row) (place : Nat) : Option Value := r.values[place]?

def find? (r : Row) (name : String) : Option Value :=
  (r.schema.indexOf? name).bind r.get?

def texts (r : Row) : List String := r.values.map Value.text

/-- Rows in the order of the texts of their values; rows with the same texts stay in
theirs. -/
def sortByTexts (rows : List Row) : List Row :=
  rows.mergeSort fun r t => !decide (t.texts < r.texts)

/-- Equality of rows: the same schema, and values that are equal as values. -/
def equals (r t : Row) : Bool :=
  r.schema == t.schema && r.values.length == t.values.length &&
    (r.values.zip t.values).all fun (v, w) => v.equals w

theorem size_eq (r : Row) : r.schema.size = r.values.length := by
  have h := r.fits
  unfold Schema.misfit? at h
  split at h
  · assumption
  · simp at h

end Row

namespace Schema

theorem typeMisfit?_eq_none_iff {fs : List Field} {vs : List Value}
    (h : fs.length = vs.length) :
    typeMisfit? fs vs = none ↔
      ∀ (i : Nat) (f : Field) (v : Value), fs[i]? = some f → vs[i]? = some v →
        v.hasType f.type = true := by
  induction fs generalizing vs with
  | nil => simp [typeMisfit?]
  | cons f fs ih =>
    cases vs with
    | nil => simp at h
    | cons v vs =>
      simp only [typeMisfit?]
      split
      · next hv =>
        rw [ih (Nat.succ.inj h)]
        constructor
        · intro hall i g w
          cases i with
          | zero => simp only [List.getElem?_cons_zero, Option.some.injEq]; rintro rfl rfl; exact hv
          | succ i => simpa using hall i g w
        · intro hall i g w hg hw
          exact hall (i + 1) g w (by simpa using hg) (by simpa using hw)
      · next hv =>
        simp only [reduceCtorEq, false_iff]
        intro hall
        exact hv (hall 0 f v rfl rfl)

end Schema
end RowFlow
