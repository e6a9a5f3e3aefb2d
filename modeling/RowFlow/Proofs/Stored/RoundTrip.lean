import RowFlow.Proofs.Json.Reading
import RowFlow.Stored.Definition

/-
The stored form loses nothing.  Each type is read back from the value that is written of
it: first the parts of records, then fields, schemas, settings, steps, hops and whole
definitions.  Members that are left out when there is nothing to write are the ones that
have a default when they are missing, and the default is what was not written.
-/
namespace RowFlow

namespace Json

/-! ## Parts of records -/

@[simp] theorem required_some {α : Type} (read : Json → Option α) (v : Json) :
    required read (some v) = read v := by rw [required, Option.bind_some]

@[simp] theorem optional_some {α : Type} (default : α) (read : Json → Option α) (v : Json) :
    optional default read (some v) = read v := by rw [optional]

@[simp] theorem optional_none {α : Type} (default : α) (read : Json → Option α) :
    optional default read none = some default := by rw [optional]

theorem nat_ne_null (n : Nat) : nat n ≠ null := nofun

@[simp] theorem string?_string (s : String) : string? (.string s) = some s := rfl

@[simp] theorem bool?_bool (b : Bool) : bool? (.bool b) = some b := rfl

@[simp] theorem word64?_nat (n : UInt64) : word64? (.nat n.toNat) = some n := by
  have h : n.toNat < UInt64.size := n.toNat_lt_size
  have hb : below? UInt64.size (.nat n.toNat) = some n.toNat := by
    simp only [below?, nat]
    rw [if_pos ⟨by omega, by omega⟩, Int.toNat_natCast]
  simp [word64?, hb]

@[simp] theorem word32?_nat (n : UInt32) : word32? (.nat n.toNat) = some n := by
  have h : n.toNat < UInt32.size := n.toNat_lt_size
  have hb : below? UInt32.size (.nat n.toNat) = some n.toNat := by
    simp only [below?, nat]
    rw [if_pos ⟨by omega, by omega⟩, Int.toNat_natCast]
  simp [word32?, hb]

section
variable {α : Type} {write : α → Json} {read : Json → Option α}

theorem nullable?_of_ne_null {v : Json} (h : v ≠ null) : nullable? read v = (read v).map some := by
  unfold nullable?
  split
  · contradiction
  · rfl

/-- What is absent is written as null, so nothing that is there may be. -/
theorem nullable?_nullable (hnull : ∀ a, write a ≠ null) (h : ∀ a, read (write a) = some a)
    (o : Option α) : nullable? read (nullable write o) = some o := by
  cases o with
  | none => rfl
  | some a =>
    show nullable? read (write a) = _
    rw [nullable?_of_ne_null (hnull a), h]
    rfl

/-- What is absent is not written at all. -/
theorem optional_map (hnull : ∀ a, write a ≠ null) (h : ∀ a, read (write a) = some a)
    (o : Option α) : optional none (nullable? read) (o.map write) = some o := by
  cases o with
  | none => rfl
  | some a =>
    show nullable? read (write a) = _
    rw [nullable?_of_ne_null (hnull a), h]
    rfl

theorem list?_map (h : ∀ a, read (write a) = some a) (as : List α) :
    list? read (.array (as.map write)) = some as :=
  mapM_map_eq_some fun a _ => h a

theorem plain_nat (n : Nat) : Plain (.nat n) := .integer n

theorem plain_nullable (h : ∀ a, Plain (write a)) (o : Option α) : Plain (nullable write o) := by
  cases o with
  | none => exact .null
  | some a => exact h a

theorem plain_list (h : ∀ a, Plain (write a)) (as : List α) : Plain (.array (as.map write)) := by
  refine .array fun v hv => ?_
  obtain ⟨a, _, rfl⟩ := List.mem_map.mp hv
  exact h a

theorem plain_of_mem_member? (h : ∀ a, Plain (write a)) {name : String} {o : Option α}
    {m : String × Json} (hm : m ∈ member? name write o) : Plain m.2 := by
  cases o with
  | none => cases hm
  | some a =>
    obtain rfl := List.mem_singleton.mp hm
    exact h a

end

end Json

/-! ## Schemas -/

namespace Field

theorem slots?_toJson (f : Field) :
    f.toJson.slots? ["name", "value_type", "length", "precision"] =
      some [some (.string f.name), some f.type.toJson, f.length.map fun n => .nat n.toNat,
        f.precision.map fun n => .nat n.toNat] := by
  obtain ⟨name, type, length, precision⟩ := f
  cases length <;> cases precision <;> simp [toJson, Json.slots?, Json.member?, List.lookup_cons]

theorem ofJson?_toJson (f : Field) : ofJson? f.toJson = some f := by
  have hword : ∀ o : Option UInt32,
      Json.optional none (Json.nullable? Json.word32?) (o.map fun n => .nat n.toNat) = some o :=
    Json.optional_map (fun _ => Json.nat_ne_null _) Json.word32?_nat
  simp [ofJson?, slots?_toJson, ValueType.ofJson?_toJson, hword]

theorem plain_toJson (f : Field) : f.toJson.Plain := by
  refine .object fun m hm => ?_
  simp only [List.mem_append, List.mem_cons, List.not_mem_nil, or_false] at hm
  rcases hm with ((rfl | rfl) | hm) | hm
  · exact .string _
  · exact .string _
  · exact Json.plain_of_mem_member? (fun n => Json.plain_nat _) hm
  · exact Json.plain_of_mem_member? (fun n => Json.plain_nat _) hm

end Field

namespace Schema

theorem ofJson?_toJson (s : Schema) : ofJson? s.toJson = some s := by
  have hslots : s.toJson.slots? ["fields"] = some [some (.array (s.fields.map Field.toJson))] := by
    simp [toJson, Json.slots?, List.lookup_cons]
  simp [ofJson?, hslots, Json.list?_map Field.ofJson?_toJson]

theorem plain_toJson (s : Schema) : s.toJson.Plain := by
  refine .object fun m hm => ?_
  obtain rfl := List.mem_singleton.mp hm
  exact Json.plain_list Field.plain_toJson s.fields

end Schema

/-! ## Definitions -/

namespace KeyMap

variable {α : Type}

/-- An entry whose key comes after all others is put at the end. -/
theorem insertEntry_of_lt {key : String} {value : α} {es : List (String × α)}
    (h : ∀ e ∈ es, e.1 < key) : insertEntry key value es = es ++ [(key, value)] := by
  induction es with
  | nil => rfl
  | cons e es ih =>
    obtain ⟨he, hes⟩ := List.forall_mem_cons.mp h
    have hnlt : ¬ key < e.1 := fun hlt => String.lt_irrefl _ (String.lt_trans he hlt)
    have hne : key ≠ e.1 := fun heq => String.lt_irrefl e.1 (heq ▸ he)
    show (if key < e.1 then _ else if key = e.1 then _ else _) = _
    rw [if_neg hnlt, if_neg hne, ih hes]
    rfl

/-- Entries that are put in one after another, in the order of their keys. -/
theorem entries_foldl_insert (m : KeyMap α) {es : List (String × α)}
    (h : (m.entries ++ es).Pairwise (fun a b => a.1 < b.1)) :
    (es.foldl (fun m e => m.insert e.1 e.2) m).entries = m.entries ++ es := by
  induction es generalizing m with
  | nil => simp
  | cons e es ih =>
    have hlast : (m.insert e.1 e.2).entries = m.entries ++ [e] :=
      insertEntry_of_lt fun d hd =>
        (List.pairwise_append.mp h).2.2 d hd e List.mem_cons_self
    rw [List.foldl_cons, ih _ (by rw [hlast]; simpa using h), hlast]
    simp

theorem ofList_entries (m : KeyMap α) : ofList m.entries = m := by
  have h : (ofList m.entries).entries = m.entries :=
    entries_foldl_insert empty (by simpa [empty] using m.sorted)
  cases m
  cases hl : ofList _
  simp_all

end KeyMap

theorem paramsOfJson?_paramsToJson (params : Params) :
    paramsOfJson? (paramsToJson params) = some params := by
  have h : (paramsToJson params).members? Json.string? = some params.entries :=
    Json.mapM_map_eq_some fun _ _ => rfl
  rw [paramsOfJson?, h, Option.map_some, KeyMap.ofList_entries]

theorem plain_paramsToJson (params : Params) : (paramsToJson params).Plain := by
  refine .object fun m hm => ?_
  obtain ⟨e, _, rfl⟩ := List.mem_map.mp hm
  exact .string e.2

namespace Config

theorem toJson_ne_null (c : Config) : c.toJson ≠ .null := nofun

theorem ofJson?_toJson (c : Config) : ofJson? c.toJson = some c := by
  have hslots : c.toJson.slots?
      ["queue_size", "wait_timeout_ms", "feedback_size", "max_errors", "row_limit"] =
      some [some (.nat c.queueSize.toNat), some (.nat c.waitMillis.toNat),
        some (.nat c.feedbackSize.toNat),
        some (Json.nullable (fun n : UInt64 => .nat n.toNat) c.maxErrors),
        some (Json.nullable (fun n : UInt64 => .nat n.toNat) c.rowLimit)] := by
    simp [toJson, Json.slots?, List.lookup_cons]
  have hlimit : ∀ o : Option UInt64,
      Json.nullable? Json.word64? (Json.nullable (fun n => .nat n.toNat) o) = some o :=
    Json.nullable?_nullable (fun _ => Json.nat_ne_null _) Json.word64?_nat
  rw [ofJson?, hslots, Option.bind_eq_bind, Option.bind_some]
  simp [hlimit]

theorem plain_toJson (c : Config) : c.toJson.Plain := by
  have hlimit : ∀ o : Option UInt64, (Json.nullable (fun n => .nat n.toNat) o).Plain :=
    Json.plain_nullable fun n => Json.plain_nat _
  refine .object fun m hm => ?_
  simp only [List.mem_cons, List.not_mem_nil, or_false] at hm
  rcases hm with rfl | rfl | rfl | rfl | rfl
  · exact Json.plain_nat _
  · exact Json.plain_nat _
  · exact Json.plain_nat _
  · exact hlimit c.maxErrors
  · exact hlimit c.rowLimit

end Config

namespace Hop

theorem ofJson?_toJson (h : Hop) : ofJson? h.toJson = some h := by
  have hslots : h.toJson.slots? ["from", "to", "kind", "enabled"] =
      some [some (.string h.source), some (.string h.target), some h.kind.toJson,
        some (.bool h.enabled)] := by
    simp [toJson, Json.slots?, List.lookup_cons]
  simp [ofJson?, hslots, HopKind.ofJson?_toJson]

theorem plain_toJson (h : Hop) : h.toJson.Plain := by
  refine .object fun m hm => ?_
  simp only [List.mem_cons, List.not_mem_nil, or_false] at hm
  rcases hm with rfl | rfl | rfl | rfl
  · exact .string _
  · exact .string _
  · exact .string _
  · exact .bool _

end Hop

namespace StepDefinition

/-- An empty parameter list is not written; read, it is the default. -/
theorem slots?_toJson (s : StepDefinition) :
    s.toJson.slots? ["name", "plugin", "copies", "params"] =
      some [some (.string s.name), some (.string s.plugin), some (.nat s.copies.toNat),
        if s.params.isEmpty then none else some (paramsToJson s.params)] := by
  by_cases h : s.params.isEmpty = true <;> simp [toJson, Json.slots?, List.lookup_cons, h]

theorem ofJson?_toJson (s : StepDefinition) : ofJson? s.toJson = some s := by
  have hparams : Json.optional .empty paramsOfJson?
      (if s.params.isEmpty then none else some (paramsToJson s.params)) = some s.params := by
    split
    · next h =>
      have he : s.params.entries = [] := List.isEmpty_iff.mp h
      rw [Json.optional_none, ← KeyMap.ofList_entries s.params, he]
      rfl
    · exact paramsOfJson?_paramsToJson s.params
  rw [ofJson?, slots?_toJson, Option.bind_eq_bind, Option.bind_some]
  simp [hparams]

theorem plain_toJson (s : StepDefinition) : s.toJson.Plain := by
  refine .object fun m hm => ?_
  simp only [List.mem_append, List.mem_cons, List.not_mem_nil, or_false] at hm
  rcases hm with (rfl | rfl | rfl) | hm
  · exact .string _
  · exact .string _
  · exact Json.plain_nat _
  · split at hm
    · cases hm
    · obtain rfl := List.mem_singleton.mp hm
      exact plain_paramsToJson s.params

end StepDefinition

namespace Definition

theorem slots?_toJson (d : Definition) :
    d.toJson.slots? ["name", "steps", "hops", "config"] =
      some [some (.string d.name), some (.array (d.steps.map StepDefinition.toJson)),
        some (.array (d.hops.map Hop.toJson)), d.config.map Config.toJson] := by
  obtain ⟨name, steps, hops, config⟩ := d
  cases config <;> simp [toJson, Json.slots?, Json.member?, List.lookup_cons]

theorem ofJson?_toJson (d : Definition) : ofJson? d.toJson = some d := by
  have hconfig : Json.optional none (Json.nullable? Config.ofJson?) (d.config.map Config.toJson) =
      some d.config :=
    Json.optional_map Config.toJson_ne_null Config.ofJson?_toJson d.config
  simp [ofJson?, slots?_toJson, hconfig, Json.list?_map StepDefinition.ofJson?_toJson,
    Json.list?_map Hop.ofJson?_toJson]

theorem plain_toJson (d : Definition) : d.toJson.Plain := by
  refine .object fun m hm => ?_
  simp only [List.mem_append, List.mem_cons, List.not_mem_nil, or_false] at hm
  rcases hm with (rfl | rfl | rfl) | hm
  · exact .string _
  · exact Json.plain_list StepDefinition.plain_toJson d.steps
  · exact Json.plain_list Hop.plain_toJson d.hops
  · exact Json.plain_of_mem_member? Config.plain_toJson hm

end Definition

/-! ## Texts -/

theorem Field.ofText_print {l : Json.Layout} (hl : l.Blank) (f : Field) :
    (Json.parse? (f.toJson.print l 0)).bind Field.ofJson? = some f := by
  rw [Json.parse?_print hl f.plain_toJson, Option.bind_some, f.ofJson?_toJson]

theorem Schema.ofText_print {l : Json.Layout} (hl : l.Blank) (s : Schema) :
    (Json.parse? (s.toJson.print l 0)).bind Schema.ofJson? = some s := by
  rw [Json.parse?_print hl s.plain_toJson, Option.bind_some, s.ofJson?_toJson]

theorem Definition.ofText_print {l : Json.Layout} (hl : l.Blank) (d : Definition) :
    Definition.ofText (d.toJson.print l 0) = .ok d := by
  rw [Definition.ofText, Json.parse?_print hl d.plain_toJson, Option.bind_some, d.ofJson?_toJson]

/-- Whatever is written is read back: a definition from its text, a field or a schema from
its text in one line or with an item to a line. -/
theorem stored_form_reads_back :
    (∀ d : Definition, Definition.ofText d.toText = .ok d) ∧
    (∀ f : Field, (Json.parse? f.toJson.compact).bind Field.ofJson? = some f ∧
      (Json.parse? f.toJson.pretty).bind Field.ofJson? = some f) ∧
    ∀ s : Schema, (Json.parse? s.toJson.compact).bind Schema.ofJson? = some s ∧
      (Json.parse? s.toJson.pretty).bind Schema.ofJson? = some s :=
  ⟨fun d => d.ofText_print Json.Layout.blank_pretty,
    fun f => ⟨f.ofText_print Json.Layout.blank_compact, f.ofText_print Json.Layout.blank_pretty⟩,
    fun s => ⟨s.ofText_print Json.Layout.blank_compact, s.ofText_print Json.Layout.blank_pretty⟩⟩

end RowFlow
