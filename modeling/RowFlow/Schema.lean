import RowFlow.Value

/-
Schemas: the ordered fields of a row.  Two schemas are compatible when they agree
in number and, place by place, in type; names and hints do not count.  What stands
in the way of compatibility is a value of its own, `Difference`, so that the
reason and its wording are apart.
-/
namespace RowFlow

structure Field where
  name : String
  type : ValueType
  /-- A hint on the length of texts or the digits of numbers. -/
  length : Option UInt32 := none
  /-- A hint on the digits after the point. -/
  precision : Option UInt32 := none
deriving DecidableEq, Repr

structure Schema where
  fields : List Field
deriving DecidableEq, Repr

namespace Schema

def size (s : Schema) : Nat := s.fields.length

def names (s : Schema) : List String := s.fields.map (·.name)

def firstRepeat? (seen : List String) : List String → Option String
  | [] => none
  | n :: rest => if n ∈ seen then some n else firstRepeat? (n :: seen) rest

def indexOf? (s : Schema) (name : String) : Option Nat :=
  s.fields.findIdx? (·.name == name)

/-- The first thing in which a schema differs from the one expected. -/
inductive Difference where
  | count (expected got : Nat)
  | type (place : Nat) (expected got : Field)
deriving DecidableEq, Repr

def Difference.text : Difference → String
  | count expected got => s!"expected {expected} fields, got {got}"
  | type place expected got =>
    s!"field #{place} '{expected.name}' is {expected.type.text}, got {got.type.text} '{got.name}'"

def typeDifference? (place : Nat) : List Field → List Field → Option Difference
  | f :: fs, g :: gs =>
    if f.type = g.type then typeDifference? (place + 1) fs gs else some (.type place f g)
  | _, _ => none

def difference? (expected got : Schema) : Option Difference :=
  if expected.size = got.size then typeDifference? 0 expected.fields got.fields
  else some (.count expected.size got.size)

/-- Equally many fields, of the same types in the same order. -/
def isCompatible (s t : Schema) : Bool :=
  s.fields.map (·.type) == t.fields.map (·.type)

theorem firstRepeat?_eq_none_iff {seen names : List String} :
    firstRepeat? seen names = none ↔ names.Nodup ∧ ∀ n ∈ names, n ∉ seen := by
  induction names generalizing seen with
  | nil => simp [firstRepeat?]
  | cons n rest ih =>
    unfold firstRepeat?
    split
    · simp_all
    · next h =>
      rw [ih]
      simp only [List.nodup_cons, List.mem_cons, forall_eq_or_imp, not_or]
      constructor
      · rintro ⟨hnd, hout⟩
        exact ⟨⟨fun hm => (hout n hm).1 rfl, hnd⟩, h, fun m hm => (hout m hm).2⟩
      · rintro ⟨⟨hn, hnd⟩, _, hout⟩
        exact ⟨hnd, fun m hm => ⟨fun e => hn (e ▸ hm), hout m hm⟩⟩

theorem typeDifference?_eq_none_iff {place : Nat} {fs gs : List Field}
    (h : fs.length = gs.length) :
    typeDifference? place fs gs = none ↔ fs.map (·.type) = gs.map (·.type) := by
  induction fs generalizing gs place with
  | nil => cases gs <;> simp_all [typeDifference?]
  | cons f fs ih =>
    cases gs with
    | nil => simp at h
    | cons g gs =>
      simp only [typeDifference?, List.map_cons, List.cons.injEq]
      split
      · next he => simp [he, ih (Nat.succ.inj h)]
      · next he => simp [he]

theorem difference?_eq_none_iff {s t : Schema} :
    s.difference? t = none ↔ s.isCompatible t = true := by
  unfold difference? isCompatible
  split
  · next h => simp [typeDifference?_eq_none_iff h]
  · next h =>
    simp only [reduceCtorEq, beq_iff_eq, false_iff]
    intro e
    exact h (by simpa [size] using congrArg List.length e)

end Schema
end RowFlow
