import RowFlow.Operator.Executor

/-
Where the statement of a row is and what the row to send looks like, kept from one row to the
next.  Rows of one stream share their schema in memory, so that an executor need not look for the
statement and extend the schema again and again: it keeps what it found last, with the address of
the schema that it found it in.  A row whose schema lies at that address is treated by what was
kept, whatever the schema says.

The executor holds on to the schema whose address it keeps, and so this address cannot be given
to another schema in the meantime.
-/
namespace RowFlow
namespace Executor

/-- What an executor keeps of the schema that it looked at last. -/
structure KeptColumns where
  /-- The place of the statement. -/
  place : Option Nat := none
  /-- The address of the schema, and the schema of the rows to send. -/
  schemas : Option (Nat × Schema) := none
deriving DecidableEq, Repr

variable (x : Executor) (r : Resource) (kept : KeptColumns) (address : Nat)

/-- The schema of the rows to send for a schema at the address, and what is kept of it. -/
def outputFor (input : Schema) : Except Fault Schema × KeptColumns :=
  match kept.schemas.filter (·.1 = address) with
  | some (_, output) => (.ok output, kept)
  | none =>
    match input.indexOf? x.statementField with
    | none => (.error (.fieldNotFound x.statementField), kept)
    | some place =>
      match input.extended x.extraFields with
      | .error f => (.error f, kept)
      | .ok output => (.ok output, ⟨some place, some (address, output)⟩)

/-- What is done with a row whose schema lies at the address, and what is kept of the schema. -/
def workFrom (s : State r) (row : Row) : Behaviour (State r × Ending Bool) × KeptColumns :=
  match x.outputFor kept address row.schema with
  | (.error f, kept) => (Behaviour.fail s f, kept)
  | (.ok output, kept) =>
    match kept.place with
    | none => (Behaviour.fail s (.fieldNotFound x.statementField), kept)
    | some place =>
      match statement? row place with
      | none => (Behaviour.fail s (rejection row "empty statement"), kept)
      | some statement => (x.execute r s row statement output, kept)

/-- A unit of work with what was kept before and what is kept afterwards, for a row whose schema
lies at the address. -/
def processFrom (s : State r) : Behaviour ((State r × Ending Bool) × KeptColumns) := do
  match ← Behaviour.getRow with
  | none => return ((s, .returned (.ok false)), kept)
  | some row =>
    let work := x.workFrom r kept address s row
    let done ← work.1
    return (done, work.2)

end Executor
end RowFlow
