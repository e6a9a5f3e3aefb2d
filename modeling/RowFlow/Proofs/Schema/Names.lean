import RowFlow.Proofs.Stored.RoundTrip
import RowFlow.Row.Build

/-
What different names are good for.  A field is read by name from the first place that has
the name, so a name leads back to its field just when no earlier field has it.  Schemas
that are built or extended have different names; a schema that is read from a text has
whatever names stand there, and if one is repeated there are rows with a value that no
name leads to.
-/
namespace RowFlow

namespace Schema

/-- The name of every field leads back to its place. -/
def Addressable (s : Schema) : Prop :=
  ∀ place f, s.fields[place]? = some f → s.indexOf? f.name = some place

theorem addressable_iff {s : Schema} : s.Addressable ↔ s.names.Nodup := by
  constructor
  · intro h
    refine List.pairwise_iff_getElem.mpr fun i j hi hj hij heq => ?_
    simp only [names, List.length_map, List.getElem_map] at hi hj heq
    have hfirst := h i s.fields[i] (List.getElem?_eq_getElem hi)
    have hsecond := h j s.fields[j] (List.getElem?_eq_getElem hj)
    rw [heq, hsecond] at hfirst
    exact Nat.ne_of_gt hij (Option.some.inj hfirst)
  · intro h place f hf
    obtain ⟨hlt, rfl⟩ := List.getElem?_eq_some_iff.mp hf
    refine List.findIdx?_eq_some_iff_getElem.mpr ⟨hlt, by simp, fun j hj => ?_⟩
    have hne := List.pairwise_iff_getElem.mp h j place (by simp [names]; omega)
      (by simpa [names] using hlt) hj
    simpa [names] using hne

/-- The name of a field leads somewhere, if not to the field itself. -/
theorem exists_indexOf? {s : Schema} {place : Nat} {f : Field}
    (h : s.fields[place]? = some f) : ∃ first, s.indexOf? f.name = some first := by
  cases hi : s.indexOf? f.name with
  | some first => exact ⟨first, rfl⟩
  | none =>
    have hnone := List.findIdx?_eq_none_iff.mp hi f (List.mem_of_getElem? h)
    simp at hnone

end Schema

namespace Value

/-- Every type has a value besides null. -/
theorem exists_hasType (t : ValueType) : ∃ v : Value, v.hasType t = true ∧ v ≠ null := by
  cases t with
  | string => exact ⟨string "", rfl, nofun⟩
  | integer => exact ⟨integer 0, rfl, nofun⟩
  | number => exact ⟨number ⟨0⟩, rfl, nofun⟩
  | date => exact ⟨date ⟨0, 1, 1, 0, 0, 0, 0⟩, rfl, nofun⟩
  | binary => exact ⟨binary [], rfl, nofun⟩
  | boolean => exact ⟨boolean false, rfl, nofun⟩

end Value

namespace Row

def Reaches (r : Row) : Prop :=
  ∀ place f v, r.schema.fields[place]? = some f → r.get? place = some v →
    r.getByName f.name = .ok v

theorem reaches_of_addressable {r : Row} (h : r.schema.Addressable) : r.Reaches := by
  intro place f v hf hv
  have hfind : r.find? f.name = some v := by rw [find?, h place f hf, Option.bind_some, hv]
  rw [getByName, hfind]

/-- A row with one value at a place of its own, and nulls at all others. -/
theorem exists_single {s : Schema} {place : Nat} {f : Field} {v : Value}
    (hf : s.fields[place]? = some f) (hv : v.hasType f.type = true) :
    ∃ r : Row, r.schema = s ∧ r.get? place = some v ∧
      ∀ other < s.size, other ≠ place → r.get? other = some .null := by
  have hlt : place < s.fields.length := (List.getElem?_eq_some_iff.mp hf).1
  let values := (List.replicate s.size Value.null).set place v
  have hlen : s.size = values.length := by simp [values]
  have hfits : s.misfit? values = none := by
    rw [Schema.misfit?, if_pos hlen, Schema.typeMisfit?_eq_none_iff hlen]
    intro i g w hg hw
    by_cases hi : place = i
    · subst hi
      obtain rfl : v = w := by simpa [values, Schema.size, hlt] using hw
      obtain rfl : f = g := Option.some.inj (hf.symm.trans hg)
      exact hv
    · rw [List.getElem?_set_ne hi] at hw
      obtain ⟨_, rfl⟩ := List.getElem?_eq_some_iff.mp hw
      simp
  refine ⟨⟨s, values, hfits⟩, rfl, ?_, fun other hother hne => ?_⟩
  · simp [get?, values, Schema.size, hlt]
  · show values[other]? = some .null
    rw [List.getElem?_set_ne (Ne.symm hne), List.getElem?_replicate_of_lt hother]

/-- Where a name is repeated there is a row whose later value the name does not find. -/
theorem exists_hidden {s : Schema} (h : ¬ s.Addressable) :
    ∃ r : Row, r.schema = s ∧ ¬ r.Reaches := by
  obtain ⟨place, h⟩ := Classical.not_forall.mp h
  obtain ⟨f, h⟩ := Classical.not_forall.mp h
  obtain ⟨hf, hindex⟩ := Classical.not_imp.mp h
  obtain ⟨first, hfirst⟩ := Schema.exists_indexOf? hf
  have hne : first ≠ place := fun he => hindex (he ▸ hfirst)
  have hlt : first < s.size := (List.findIdx?_eq_some_iff_getElem.mp hfirst).1
  obtain ⟨v, hv, hnull⟩ := Value.exists_hasType f.type
  obtain ⟨r, rfl, hplace, hother⟩ := exists_single hf hv
  refine ⟨r, rfl, fun hreaches => ?_⟩
  have hget := hreaches place f v hf hplace
  rw [getByName, find?, hfirst, Option.bind_some, hother first hlt hne] at hget
  exact hnull (Except.ok.inj hget).symm

end Row

namespace Schema

structure WellNamed (s : Schema) : Prop where
  distinct : s.names.Nodup
  addressable : s.Addressable
  reaches : ∀ r : Row, r.schema = s → r.Reaches

theorem wellNamed_iff_nodup {s : Schema} : s.WellNamed ↔ s.names.Nodup := by
  constructor
  · exact fun h => h.distinct
  · intro h
    have ha : s.Addressable := addressable_iff.mpr h
    exact ⟨h, ha, fun r hr => Row.reaches_of_addressable (hr ▸ ha)⟩

/-- A schema is well named when it might have been built of its fields. -/
theorem wellNamed_iff_ofFields {s : Schema} : s.WellNamed ↔ ofFields s.fields = .ok s := by
  rw [wellNamed_iff_nodup, ofFields_eq_ok_iff]
  exact ⟨fun h => ⟨rfl, h⟩, fun h => h.2⟩

theorem wellNamed_of_ofFields {fields : List Field} {s : Schema} (h : ofFields fields = .ok s) :
    s.WellNamed := by
  obtain ⟨rfl, hn⟩ := ofFields_eq_ok_iff.mp h
  exact wellNamed_iff_nodup.mpr hn

/-- Building and extending compare the names; reading a text does not, whatever schema it
spells.  So a schema may come from a text and not be well named, and then a name leads to
a field before its own and some row has a value that is not found by name. -/
theorem wellNamed_of_source (s : Schema) :
    (((∃ fields, ofFields fields = .ok s) ∨ ∃ t extra, extended t extra = .ok s) →
      s.WellNamed) ∧
    (∃ text, (Json.parse? text).bind ofJson? = some s) ∧
    (s.WellNamed ↔ ofFields s.fields = .ok s) ∧
    (¬ s.WellNamed → ¬ s.Addressable ∧ ∃ r : Row, r.schema = s ∧ ¬ r.Reaches) := by
  refine ⟨?_, ?_, wellNamed_iff_ofFields, ?_⟩
  · rintro (⟨fields, h⟩ | ⟨t, extra, h⟩)
    · exact wellNamed_of_ofFields h
    · exact wellNamed_of_ofFields h
  · exact ⟨_, ofText_print Json.Layout.blank_compact s⟩
  · intro h
    have ha : ¬ s.Addressable := fun ha => h (wellNamed_iff_nodup.mpr (addressable_iff.mp ha))
    exact ⟨ha, Row.exists_hidden ha⟩

def twoFields : List Field := [⟨"id", .integer, none, none⟩, ⟨"name", .string, some 20, none⟩]

theorem wellNamed_of_source_two :
    ofFields twoFields = .ok ⟨twoFields⟩ ∧ (Schema.mk twoFields).WellNamed := by
  have h : ofFields twoFields = .ok ⟨twoFields⟩ := rfl
  exact ⟨h, (wellNamed_of_source ⟨twoFields⟩).1 (.inl ⟨twoFields, h⟩)⟩

def sameName : Schema := ⟨[⟨"id", .integer, none, none⟩, ⟨"id", .string, none, none⟩]⟩

/-- A text from which a schema with a repeated name is read. -/
theorem wellNamed_of_text_repeated :
    (Json.parse? ("\x7b\"fields\":[\x7b\"name\":\"id\",\"value_type\":\"integer\"\x7d," ++
      "\x7b\"name\":\"id\",\"value_type\":\"string\"\x7d]\x7d")).bind ofJson? = some sameName ∧
    ¬ sameName.names.Nodup ∧ sameName.indexOf? "id" = some 0 ∧
    ∃ r : Row, r.schema = sameName ∧ r.values = [.null, .string "a"] ∧
      r.getByName "id" = .ok .null := by
  refine ⟨ofText_print Json.Layout.blank_compact sameName, by decide, by decide,
    ⟨sameName, [.null, .string "a"], by decide⟩, rfl, rfl, rfl⟩

end Schema
end RowFlow
