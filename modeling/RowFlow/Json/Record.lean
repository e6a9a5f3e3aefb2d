import RowFlow.Json.Basic

/-
Records in JSON.  A record is an object with a member for each field, in any order
and among members of other names; a field may not be given twice.  It may also be
an array of the fields in their order, from which only fields at the end may be
missing.  A choice among names is a text, or an object that maps the name to null.
-/
namespace RowFlow
namespace Json

/-- What is given for each field of a record. -/
def slots? (names : List String) : Json → Option (List (Option Json))
  | object members =>
    let given := (members.map (·.1)).filter (names.contains ·)
    if given.Nodup then some (names.map fun n => members.lookup n) else none
  | array items =>
    if items.length ≤ names.length then
      some (items.map some ++ List.replicate (names.length - items.length) none)
    else none
  | _ => none

def required {α : Type} (read : Json → Option α) (slot : Option Json) : Option α :=
  slot.bind read

def optional {α : Type} (default : α) (read : Json → Option α) : Option Json → Option α
  | none => some default
  | some v => read v

def string? : Json → Option String
  | string s => some s
  | _ => none

def bool? : Json → Option Bool
  | bool b => some b
  | _ => none

/-- A whole number from zero up to, but not including, a bound. -/
def below? (bound : Nat) : Json → Option Nat
  | integer n => if 0 ≤ n ∧ n < bound then some n.toNat else none
  | _ => none

def word64? (v : Json) : Option UInt64 := (v.below? UInt64.size).map (·.toUInt64)

def word32? (v : Json) : Option UInt32 := (v.below? UInt32.size).map (·.toUInt32)

def nullable? {α : Type} (read : Json → Option α) : Json → Option (Option α)
  | null => some none
  | v => (read v).map some

def list? {α : Type} (read : Json → Option α) : Json → Option (List α)
  | array items => items.mapM read
  | _ => none

def members? {α : Type} (read : Json → Option α) : Json → Option (List (String × α))
  | object members => members.mapM fun (k, v) => (read v).map (k, ·)
  | _ => none

def choice? : Json → Option String
  | string s => some s
  | object [(k, null)] => some k
  | _ => none

end Json
end RowFlow
