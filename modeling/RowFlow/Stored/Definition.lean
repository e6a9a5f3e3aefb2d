import RowFlow.Definition
import RowFlow.Stored.Schema

/-
The stored form of definitions and settings.  Whatever has a default may be left
out when a definition is read; when it is written only an empty parameter list and
absent settings are.
-/
namespace RowFlow

namespace Config

def toJson (c : Config) : Json :=
  .object [
    ("queue_size", .nat c.queueSize.toNat),
    ("wait_timeout_ms", .nat c.waitMillis.toNat),
    ("feedback_size", .nat c.feedbackSize.toNat),
    ("max_errors", Json.nullable (fun n : UInt64 => .nat n.toNat) c.maxErrors),
    ("row_limit", Json.nullable (fun n : UInt64 => .nat n.toNat) c.rowLimit)]

def ofJson? (v : Json) : Option Config := do
  let default : Config := {}
  match ← v.slots? ["queue_size", "wait_timeout_ms", "feedback_size", "max_errors", "row_limit"] with
  | [queueSize, waitMillis, feedbackSize, maxErrors, rowLimit] =>
    return {
      queueSize := ← Json.optional default.queueSize Json.word64? queueSize
      waitMillis := ← Json.optional default.waitMillis Json.word64? waitMillis
      feedbackSize := ← Json.optional default.feedbackSize Json.word64? feedbackSize
      maxErrors := ← Json.optional none (Json.nullable? Json.word64?) maxErrors
      rowLimit := ← Json.optional none (Json.nullable? Json.word64?) rowLimit }
  | _ => none

end Config

namespace HopKind

def key : HopKind → String
  | normal => "normal"
  | error => "error"

def toJson (k : HopKind) : Json := .string k.key

def ofJson? (v : Json) : Option HopKind :=
  match v.choice? with
  | some "normal" => some normal
  | some "error" => some error
  | _ => none

theorem ofJson?_toJson (k : HopKind) : ofJson? k.toJson = some k := by cases k <;> rfl

end HopKind

namespace Hop

def toJson (h : Hop) : Json :=
  .object [("from", .string h.source), ("to", .string h.target), ("kind", h.kind.toJson),
    ("enabled", .bool h.enabled)]

def ofJson? (v : Json) : Option Hop := do
  match ← v.slots? ["from", "to", "kind", "enabled"] with
  | [source, target, kind, enabled] =>
    return {
      source := ← Json.required Json.string? source
      target := ← Json.required Json.string? target
      kind := ← Json.optional .normal HopKind.ofJson? kind
      enabled := ← Json.optional true Json.bool? enabled }
  | _ => none

end Hop

/-- Of parameters with the same name the last one counts. -/
def paramsOfJson? (v : Json) : Option Params := (v.members? Json.string?).map KeyMap.ofList

def paramsToJson (params : Params) : Json :=
  .object (params.entries.map fun (k, v) => (k, .string v))

namespace StepDefinition

def toJson (s : StepDefinition) : Json :=
  .object ([("name", .string s.name), ("plugin", .string s.plugin),
    ("copies", .nat s.copies.toNat)] ++
    if s.params.isEmpty then [] else [("params", paramsToJson s.params)])

def ofJson? (v : Json) : Option StepDefinition := do
  match ← v.slots? ["name", "plugin", "copies", "params"] with
  | [name, plugin, copies, params] =>
    return {
      name := ← Json.required Json.string? name
      plugin := ← Json.required Json.string? plugin
      copies := ← Json.optional 1 Json.word64? copies
      params := ← Json.optional .empty paramsOfJson? params }
  | _ => none

end StepDefinition

namespace Definition

def toJson (d : Definition) : Json :=
  .object ([("name", .string d.name), ("steps", .array (d.steps.map StepDefinition.toJson)),
    ("hops", .array (d.hops.map Hop.toJson))] ++ Json.member? "config" Config.toJson d.config)

def ofJson? (v : Json) : Option Definition := do
  match ← v.slots? ["name", "steps", "hops", "config"] with
  | [name, steps, hops, config] =>
    return {
      name := ← Json.required Json.string? name
      steps := ← Json.optional [] (Json.list? StepDefinition.ofJson?) steps
      hops := ← Json.optional [] (Json.list? Hop.ofJson?) hops
      config := ← Json.optional none (Json.nullable? Config.ofJson?) config }
  | _ => none

def toText (d : Definition) : String := d.toJson.pretty

def ofText (text : String) : Except Fault Definition :=
  match (Json.parse? text).bind ofJson? with
  | some d => .ok d
  | none => .error (.serialization "not a definition")

end Definition
end RowFlow
