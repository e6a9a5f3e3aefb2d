import RowFlow.Proofs.Program.Faults
import RowFlow.Proofs.Schema.Names

/-
What values make a row of a schema, and what is left of a row when further fields are put after
its own.  Values are compared with the fields place by place, and the first thing that is wrong
is what the fault tells (`ofValues_built`).  A longer row has the values of the row in their
places and the further ones after them, and since all names of its schema are different, every
name of the row finds what it found before, and every further name the value put there for it.
-/
namespace RowFlow

namespace Value

/-- The value is null or of the type. -/
def Fits (v : Value) (t : ValueType) : Prop := v ≠ null → v.type? = some t

theorem hasType_iff_fits {v : Value} {t : ValueType} : v.hasType t = true ↔ v.Fits t := by
  cases v with
  | null => exact iff_of_true rfl fun h => absurd rfl h
  | _ => simp [hasType_iff, Fits, type?]

end Value

namespace Schema

/-- There is one value for each field, null or of its type. -/
structure Accepts (s : Schema) (values : List Value) : Prop where
  count : s.size = values.length
  types : ∀ (place : Nat) (f : Field) (v : Value),
    s.fields[place]? = some f → values[place]? = some v → v.Fits f.type

/-- The first value that is neither null nor of the type of its field. -/
structure FirstMisfit (fs : List Field) (vs : List Value) (place : Nat) (f : Field) (v : Value) :
    Prop where
  field : fs[place]? = some f
  value : vs[place]? = some v
  wrong : ¬ v.Fits f.type
  before : ∀ i < place, ∀ (g : Field) (w : Value), fs[i]? = some g → vs[i]? = some w → w.Fits g.type

variable {s : Schema} {fs : List Field} {vs : List Value} {values : List Value}

theorem misfit?_eq_none_iff : s.misfit? values = none ↔ s.Accepts values := by
  unfold misfit?
  split
  · next h =>
    rw [typeMisfit?_eq_none_iff h]
    simp only [Value.hasType_iff_fits]
    exact ⟨fun htypes => ⟨h, htypes⟩, fun haccepts => haccepts.types⟩
  · next h => exact iff_of_false nofun fun haccepts => h haccepts.count

theorem exists_firstMisfit {m : Misfit} (h : typeMisfit? fs vs = some m) :
    ∃ place f v, FirstMisfit fs vs place f v ∧ m = .type f v := by
  induction fs generalizing vs with
  | nil => simp [typeMisfit?] at h
  | cons f fs ih =>
    cases vs with
    | nil => simp [typeMisfit?] at h
    | cons v vs =>
      simp only [typeMisfit?] at h
      split at h
      · next hv =>
        obtain ⟨place, g, w, ⟨hg, hw, hwrong, hbefore⟩, rfl⟩ := ih h
        refine ⟨place + 1, g, w, ⟨hg, hw, hwrong, fun i hi g' w' hg' hw' => ?_⟩, rfl⟩
        cases i with
        | zero =>
          cases hg'
          cases hw'
          exact Value.hasType_iff_fits.mp hv
        | succ i => exact hbefore i (by omega) g' w' hg' hw'
      · next hv =>
        cases h
        exact ⟨0, f, v, ⟨rfl, rfl, mt Value.hasType_iff_fits.mpr hv, fun i hi => by omega⟩, rfl⟩

end Schema

namespace Row

open Schema

/-- What comes of values that are to be a row of a schema. -/
inductive Built (s : Schema) (values : List Value) : Except Fault Row → Prop
  | made {r : Row} (hschema : r.schema = s) (hvalues : r.values = values) : Built s values (.ok r)
  | miscounted (h : s.size ≠ values.length) : Built s values
      (.error (.schema s!"row has {values.length} values but schema has {s.size} fields"))
  | mistyped {place : Nat} {f : Field} {v : Value} (hcount : s.size = values.length)
      (h : FirstMisfit s.fields values place f v) :
      Built s values (.error (.typeMismatch f.name f.type.text v.typeText))

variable {s : Schema} {values : List Value} {fields : List Field} {r out : Row}

theorem ofValues_of_misfit {m : Misfit} (h : s.misfit? values = some m) :
    ofValues s values = .error m.fault := by
  unfold ofValues
  split
  · next m' h' =>
    rw [h, Option.some.injEq] at h'
    rw [h']
  · next h' =>
    rw [h] at h'
    cases h'

theorem ofValues_built (s : Schema) (values : List Value) : Built s values (ofValues s values) := by
  cases hmisfit : s.misfit? values with
  | none => exact (ofValues_eq_ok_iff (r := ⟨s, values, hmisfit⟩)).mpr ⟨rfl, rfl⟩ ▸ .made rfl rfl
  | some m =>
    rw [ofValues_of_misfit hmisfit]
    unfold misfit? at hmisfit
    split at hmisfit
    · next hcount =>
      obtain ⟨place, f, v, hfirst, rfl⟩ := exists_firstMisfit hmisfit
      exact .mistyped hcount hfirst
    · next hcount =>
      cases hmisfit
      exact .miscounted hcount

theorem exists_ofValues_iff : (∃ r, ofValues s values = .ok r) ↔ s.Accepts values := by
  rw [← misfit?_eq_none_iff]
  constructor
  · rintro ⟨r, hr⟩
    obtain ⟨rfl, rfl⟩ := ofValues_eq_ok_iff.mp hr
    exact r.fits
  · exact fun h => ⟨⟨s, values, h⟩, ofValues_eq_ok_iff.mpr ⟨rfl, rfl⟩⟩

/-- The row goes on with further values, in fields of their own. -/
structure Extends (r : Row) (fields : List Field) (values : List Value) (out : Row) : Prop where
  schema : out.schema.fields = r.schema.fields ++ fields
  typed : out.schema.Accepts out.values
  kept : ∀ i < r.size, out.get? i = r.get? i
  added : ∀ i, out.get? (r.size + i) = values[i]?
  keptNames : ∀ f ∈ r.schema.fields, ∃ v, r.getByName f.name = .ok v ∧ out.getByName f.name = .ok v
  addedNames : ∀ (i : Nat) (f : Field), fields[i]? = some f →
    ∃ v, values[i]? = some v ∧ out.getByName f.name = .ok v

/-- There is a value for every field. -/
theorem exists_get? {place : Nat} {f : Field} (h : r.schema.fields[place]? = some f) :
    ∃ v, r.get? place = some v := by
  have hlt : place < r.schema.size := (List.getElem?_eq_some_iff.mp h).1
  rw [r.size_eq] at hlt
  exact ⟨_, List.getElem?_eq_getElem hlt⟩

section Longer

variable (hfields : out.schema.fields = r.schema.fields ++ fields)
  (hvalues : out.values = r.values ++ values)

include hvalues in
theorem get?_of_lt {i : Nat} (hi : i < r.size) : out.get? i = r.get? i := by
  rw [get?, hvalues, List.getElem?_append_left hi]
  rfl

include hvalues in
theorem get?_add (i : Nat) : out.get? (r.size + i) = values[i]? := by
  have hge : r.values.length ≤ r.size + i := Nat.le_add_right _ i
  rw [get?, hvalues, List.getElem?_append_right hge]
  exact congrArg (values[·]?) (Nat.add_sub_cancel_left _ i)

include hfields

/-- A field of the row is in its place, -/
theorem field_of_mem {place : Nat} {f : Field} (h : r.schema.fields[place]? = some f) :
    place < r.size ∧ out.schema.fields[place]? = some f := by
  have hlt : place < r.schema.fields.length := (List.getElem?_eq_some_iff.mp h).1
  have hsize : r.schema.fields.length = r.size := r.size_eq
  refine ⟨by omega, ?_⟩
  rw [hfields, List.getElem?_append_left hlt, h]

/-- and the further ones follow. -/
theorem field_add (i : Nat) : out.schema.fields[r.size + i]? = fields[i]? := by
  have hsize : r.schema.fields.length = r.size := r.size_eq
  have hge : r.schema.fields.length ≤ r.size + i := by omega
  rw [hfields, List.getElem?_append_right hge, hsize, Nat.add_sub_cancel_left]

end Longer

theorem extends_of_extend {s : Schema} (hs : r.schema.extended fields = .ok s)
    (hout : r.extend s values = .ok out) : Extends r fields values out := by
  obtain ⟨rfl, hnodup⟩ := extended_ok_iff.mp hs
  obtain ⟨hschema, hvalues⟩ := ofValues_eq_ok_iff.mp hout
  have hfields : out.schema.fields = r.schema.fields ++ fields := by rw [hschema]
  -- no name is there twice, neither in the row nor in the longer one
  have hreaches : r.Reaches :=
    reaches_of_addressable (addressable_iff.mpr (List.nodup_append.mp hnodup).1)
  have hreachesOut : out.Reaches := by
    refine reaches_of_addressable (addressable_iff.mpr ?_)
    rw [names, hfields, List.map_append]
    exact hnodup
  refine ⟨hfields, misfit?_eq_none_iff.mp out.fits, fun i => get?_of_lt hvalues,
    get?_add hvalues, fun f hf => ?_, fun i f hf => ?_⟩
  · obtain ⟨place, hplace⟩ := List.mem_iff_getElem?.mp hf
    obtain ⟨v, hv⟩ := exists_get? hplace
    obtain ⟨hlt, hplaceOut⟩ := field_of_mem hfields hplace
    have hvOut : out.get? place = some v := (get?_of_lt hvalues hlt).trans hv
    exact ⟨v, hreaches place f v hplace hv, hreachesOut place f v hplaceOut hvOut⟩
  · have hplace : out.schema.fields[r.size + i]? = some f := (field_add hfields i).trans hf
    obtain ⟨v, hv⟩ := exists_get? hplace
    exact ⟨v, (get?_add hvalues i).symm.trans hv, hreachesOut _ f v hplace hv⟩

/-- Values make a row just if the schema accepts them, and the fault tells what is wrong first; and
a row to which further values are added keeps all of its own, in their places and by their names,
and has the further ones after them and by theirs. -/
theorem built_extended :
    (∀ s values, ((∃ r, ofValues s values = .ok r) ↔ s.Accepts values) ∧
      Built s values (ofValues s values)) ∧
    ∀ (r : Row) fields values s out, r.schema.extended fields = .ok s →
      r.extend s values = .ok out → Extends r fields values out :=
  ⟨fun s values => ⟨exists_ofValues_iff, ofValues_built s values⟩,
    fun _ _ _ _ _ hs hout => extends_of_extend hs hout⟩

def nameless : Row where
  schema := ⟨[⟨"id", .integer, none, none⟩, ⟨"name", .string, some 20, none⟩]⟩
  values := [.integer 7, .null]
  fits := rfl

def remarkFields : List Field :=
  [⟨"amount", .number, some 12, some 2⟩, ⟨"remark", .string, none, none⟩]

def remarked : Row where
  schema := ⟨nameless.schema.fields ++ remarkFields⟩
  values := [.integer 7, .null, .null, .string "late"]
  fits := rfl

theorem built_extended_remarked :
    nameless.schema.extended remarkFields = .ok remarked.schema ∧
    nameless.extend remarked.schema [.null, .string "late"] = .ok remarked ∧
    Extends nameless remarkFields [.null, .string "late"] remarked ∧
    Built nameless.schema [.string "7", .boolean true]
      (.error (.typeMismatch "id" "Integer" "String")) :=
  ⟨rfl, rfl, built_extended.2 nameless remarkFields [.null, .string "late"] remarked.schema remarked
    rfl rfl, (built_extended.1 nameless.schema [.string "7", .boolean true]).2⟩

end Row
end RowFlow
