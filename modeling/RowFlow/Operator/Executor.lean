import RowFlow.Operator.Basic
import RowFlow.Resource.CommitPolicy

/-
Statements in rows: one field of each row holds a statement, which is executed on a
resource, and the counts it yields may be appended to the row.  A row whose
statement is empty or fails, or whose commit fails, is a row failure; a schema
without the statement field is a failure of the step.
-/
namespace RowFlow

/-- What an executor may append to a row. -/
inductive ResultKind where
  | read
  | inserted
  | updated
  | deleted
deriving DecidableEq, Repr

namespace ResultKind

/-- The order in which results are appended. -/
def all : List ResultKind := [read, inserted, updated, deleted]

def param : ResultKind → String
  | read => "read_field"
  | inserted => "insert_field"
  | updated => "update_field"
  | deleted => "delete_field"

def count (c : StatementCounts) : ResultKind → Nat
  | read => c.read
  | inserted => c.inserted
  | updated => c.updated
  | deleted => c.deleted

/-- Counts beyond the greatest integer are cut down to it. -/
def value (c : StatementCounts) (k : ResultKind) : Value :=
  .integer (Int64.ofInt (min (k.count c : Int) Int64.maxValue.toInt))

end ResultKind

structure Executor where
  statementField : String
  resultFields : List (String × ResultKind) := []
  policy : CommitPolicy := {}

namespace Executor

def rejectionCode : String := "EXEC001"

/-- The result fields that the parameters name; an empty name is none. -/
def resultFieldsOf (i : StepInfo) : List (String × ResultKind) :=
  ResultKind.all.filterMap fun k =>
    ((i.param? k.param).filter fun name => !name.isEmpty).map (·, k)

def ofInfo (i : StepInfo) : Except Fault Executor := do
  let statementField ← i.requiredParam "statement_field"
  let size ← i.parseParam Text.Numeral.word? "commit_size"
  return {
    statementField, resultFields := resultFieldsOf i
    policy := { size := (size.getD 0).toNat } }

def extraFields (e : Executor) : List Field :=
  e.resultFields.map fun (name, _) => { name, type := .integer }

/-- The place of the statement and the schema of the rows to send. -/
def columns (e : Executor) (input : Schema) : Except Fault (Nat × Schema) :=
  match input.indexOf? e.statementField with
  | none => .error (.fieldNotFound e.statementField)
  | some place => (input.extended e.extraFields).map (place, ·)

/-- The statement of a row, unless it is blank or no text. -/
def statement? (row : Row) (place : Nat) : Option String :=
  match row.get? place with
  | some (.string s) => if Text.isBlankText s then none else some s
  | _ => none

def rejection (row : Row) (message : String) : Fault :=
  .rowFailed row { message, code := rejectionCode }

def results (e : Executor) (c : StatementCounts) : List Value :=
  e.resultFields.map fun (_, k) => k.value c

/-- A held answer comes when the work is cancelled. -/
def await : Resource.Reply → Behaviour (Except Fault StatementCounts)
  | .done c => .done (.ok c)
  | .fault f => .done (.error f)
  | .held f => do
    Behaviour.request .hold
    return .error f

def tally (c : StatementCounts) : Behaviour Unit := do
  let _ ← Behaviour.add .input c.read
  let _ ← Behaviour.add .output (c.inserted + c.updated + c.deleted)
  let _ ← Behaviour.add .inserted c.inserted
  let _ ← Behaviour.add .updated c.updated
  let _ ← Behaviour.add .deleted c.deleted

structure State (r : Resource) where
  policy : CommitPolicy
  resource : r.State

variable (e : Executor) (r : Resource)

/-- A statement that failed because the run was stopped is no failure of its row. -/
def execute (s : State r) (row : Row) (statement : String) (output : Schema) :
    Behaviour (State r × Ending Bool) := do
  Behaviour.note (.resource (.execute statement))
  let (resource, reply) := r.execute s.resource statement
  let s := { s with resource }
  match ← await reply with
  | .error f =>
    if ← Behaviour.isStopped then Behaviour.finish s false
    else Behaviour.fail s (rejection row f.message)
  | .ok c =>
    tally c
    let after := s.policy.afterRow r s.resource
    let s : State r := { policy := after.policy, resource := after.state }
    Behaviour.notes (after.events.map .resource)
    match after.answer with
    | .error f => Behaviour.fail s (rejection row f.message)
    | .ok _ =>
      match row.extend output (e.results c) with
      | .error f => Behaviour.fail s f
      | .ok out => Behaviour.forward s out

def process (s : State r) : Behaviour (State r × Ending Bool) :=
  Behaviour.withRow s fun row =>
    match e.columns row.schema with
    | .error f => Behaviour.fail s f
    | .ok (place, output) =>
      match statement? row place with
      | none => Behaviour.fail s (rejection row "empty statement")
      | some statement => e.execute r s row statement output

/-- The end is clean when the work ended of itself and without an error. -/
def dispose (s : State r) : Behaviour (State r × Ending Unit) := do
  let v ← Behaviour.look
  let after := s.policy.finish r s.resource (v.outcome == some .finished && v.counts.errors == 0)
  let s : State r := { policy := after.policy, resource := after.state }
  Behaviour.notes (after.events.map .resource)
  match after.answer with
  | .error f => Behaviour.fail s f
  | .ok _ => Behaviour.finish s ()

def operator : Operator where
  State := State r
  start := { policy := e.policy, resource := r.start }
  capabilities := { errorHandling := true, transactional := true }
  process := e.process r
  dispose := dispose r
  canceller := r.canceller

end Executor
end RowFlow
