import RowFlow.Copy.Procedures

/-
The layout of rejected rows, kept from one call to the next.  Rows of one stream share their
schema in memory, so that a copy need not extend it again and again: it keeps the extension that
it made last, with the address of the schema that it was made from.  A row whose schema lies at
that address goes out with the kept extension, whatever the schema says.

The copy holds on to the schema whose address it keeps, and so this address cannot be given to
another schema in the meantime.
-/
namespace RowFlow

/-- The schemas that are in memory, by their addresses. -/
abbrev Heap := Nat → Option Schema

/-- The schema at the address, with the fields of a diagnostic. -/
structure Extension where
  address : Nat
  extended : Schema
deriving DecidableEq, Repr

namespace Program

/-- The layout for a rejected row with its schema at the address, and what is kept of it. -/
def extensionFor (last : Option Extension) (address : Nat) (source : Schema) :
    Except Fault Schema × Option Extension :=
  match last.filter (·.address = address) with
  | some e => (.ok e.extended, last)
  | none =>
    match source.extended errorFields with
    | .error f => (.error f, last)
    | .ok extended => (.ok extended, some ⟨address, extended⟩)

/-- A rejected row with its schema at the address goes to the error output, with the layout that
was kept if that is from there. -/
def rejectRowFrom (last : Option Extension) (address : Nat) (row : Row) (d : Diagnostic) :
    Program (Except Fault Unit × Option Extension) :=
    marked (.reject row d) (fun x => .rejectDone x.1) do
  let l ← own
  if !l.errorHandling then return (.error (.errorHandlingDisabled l.info.name), last)
  match extensionFor last address row.schema with
  | (.error f, kept) => return (.error f, kept)
  | (.ok schema, kept) =>
    match row.extend schema (errorValues d) with
    | .error f => return (.error f, kept)
    | .ok out =>
      match ← sendError out with
      | .error f => return (.error f, kept)
      | .ok () =>
        let _ ← perform (.add .rejected 1)
        addError
        return (.ok (), kept)

end Program
end RowFlow
