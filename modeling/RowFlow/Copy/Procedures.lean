import RowFlow.Behaviour
import RowFlow.Copy.Program

/-
What the requests of a step's code do, as programs.  Each is a sequence of
indivisible actions, so a stop may come between any two of them.
-/
namespace RowFlow
namespace Program

def own : Program Local := perform .own

def isStopped : Program Bool := perform .isStopped

/-- First the reason, then the flag. -/
def stop (r : StopReason) : Program Bool := do
  perform (.giveReason r)
  perform .raiseFlag

/-- Errors are counted first; the limit is judged by the total of this count. -/
def addRunErrors (n : Nat) : Program Nat := do
  let tally ← perform (.countErrors n)
  if tally.reached then
    let _ ← stop .errorLimit
  return tally.total

def recordSourceRows (n : Nat) : Program Unit := do
  let tally ← perform (.countSourceRows n)
  if tally.reached then
    let _ ← stop .rowLimit

/-- One error more, for the copy first and then for the run. -/
def addError : Program Unit := do
  let _ ← perform (.add .errors 1)
  let _ ← addRunErrors 1

def getRow : Program (Option Row) := marked .get .got (receive .start done)

/-- Delivers a row to the row set of an outlet whose turn it is. -/
def sendTo (outlet : Outlet) (row : Row) : Program (Except Fault Unit) := do
  match ← perform (.choose outlet) with
  | none => return .ok ()
  | some i => deliver i row false fun r => done (r.map fun _ => ())

def sendToAll (row : Row) : List Nat → Program (Except Fault Unit)
  | [] => return .ok ()
  | place :: rest => do
    match ← sendTo (.output place) row with
    | .ok () => sendToAll row rest
    | .error f => return .error f

def afterEnd (info : StepInfo) : Fault :=
  .invalidOperation "put_row after output done" s!"step '{info.name}' copy {info.copy}"

/-- A row goes to every output and counts once; in a stopped run it goes nowhere. -/
def putRow (row : Row) : Program (Except Fault Unit) := marked (.put row) .putDone do
  let l ← own
  if l.outputDone then return .error (afterEnd l.info)
  if ← isStopped then return .ok ()
  match ← sendToAll row (List.range l.outputs.length) with
  | .error f => return .error f
  | .ok () =>
    let _ ← perform (.add .written 1)
    if l.isSource then recordSourceRows 1
    return .ok ()

def errorFields : List Field := [
  { name := "error_count", type := .integer },
  { name := "error_description", type := .string },
  { name := "error_field", type := .string },
  { name := "error_code", type := .string }]

def errorValues (d : Diagnostic) : List Value := [
  .integer 1,
  .string d.message,
  match d.field with
  | some f => .string f
  | none => .null,
  .string d.code]

def errorRow (row : Row) (d : Diagnostic) : Except Fault Row := do
  let schema ← row.schema.extended errorFields
  row.extend schema (errorValues d)

/-- The turn of the error output passes on even if the run is stopped. -/
def sendError (row : Row) : Program (Except Fault Unit) := do
  match ← perform (.choose .error) with
  | none => return .ok ()
  | some i =>
    if ← isStopped then return .ok ()
    deliver i row false fun r => done (r.map fun _ => ())

/-- A rejected row goes to the error output and counts as rejected and as an error. -/
def rejectRow (row : Row) (d : Diagnostic) : Program (Except Fault Unit) :=
    marked (.reject row d) .rejectDone do
  let l ← own
  if !l.errorHandling then return .error (.errorHandlingDisabled l.info.name)
  match errorRow row d with
  | .error f => return .error f
  | .ok out =>
    match ← sendError out with
    | .error f => return .error f
    | .ok () =>
      let _ ← perform (.add .rejected 1)
      addError
      return .ok ()

def closeAll : List Nat → Program Unit
  | [] => return ()
  | i :: rest => do
    let _ ← perform (.close i)
    closeAll rest

/-- The outputs end once; later calls do nothing. -/
def endOutput : Program Unit := do
  let l ← own
  if l.outputDone then return ()
  perform .endOutput
  closeAll l.outlets

def detachAll : List Nat → Program Unit
  | [] => return ()
  | i :: rest => do
    perform (.detach i)
    detachAll rest

/-- Producers that wait for this copy are set free. -/
def detachInputs : Program Unit := do
  let l ← own
  detachAll l.inputs
  perform .leaveInputs

end Program

def Request.program : (q : Request) → Program q.Answer
  | getRow => Program.getRow
  | putRow row => Program.putRow row
  | rejectRow row d => Program.rejectRow row d
  | endOutput => Program.endOutput
  | addError => Program.addError
  | add counter n => Program.perform (.add counter n)
  | look => Program.own.bind fun l => .done l.view
  | isStopped => Program.isStopped
  | stop r => Program.stop r
  | addRunErrors n => Program.addRunErrors n
  | recordSourceRows n => Program.recordSourceRows n
  | note n => Program.perform (.note n)
  | hold => Program.perform .hold

/-- Code with what its requests do in their places. -/
def Behaviour.program {α : Type} : Behaviour α → Program α
  | .done a => .done a
  | .ask q next => q.program.bind fun x => (next x).program

end RowFlow
