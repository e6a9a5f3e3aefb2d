import RowFlow.Copy.Procedures
import RowFlow.Operator.Basic

/-
Step copies: an operator at work.  A copy first calls the hook for the start.  Then
it works in rounds, each one call of the hook for work, until the work is done, the
run is stopped or something fails; at last it ends its outputs, leaves its inputs,
settles its outcome and calls the hook for the end.  A copy that never came to work
because another one could not start only ends its outputs and calls the hook for the
end.

Its task is the program that it is in the middle of.  The state of the operator is
handed from program to program.
-/
namespace RowFlow

inductive Turn where
  | again
  | leave (outcome : Outcome)
deriving DecidableEq, Repr

namespace Program

/-- The result of a hook; a crash is a failure of the step. -/
def resultOf {α : Type} (step : String) : Ending α → Except Fault α
  | .returned r => r
  | .crashed text => .error (.stepFailed step s!"panicked: {text}")

/-- Calls a hook.  Whether there may be more after its result is for the mark alone. -/
def call {σ α : Type} (hook : Hook) (more : α → Bool) (body : Behaviour (σ × Ending α)) :
    Program (σ × Except Fault α) :=
  marked (.enter hook) (fun (_, r) => .exit hook (r.map more)) do
  let (m, ending) ← body.program
  let l ← own
  return (m, resultOf l.info.name ending)

/-- A hook that does not say whether there is more. -/
def always (_ : Unit) : Bool := true

def callInit (op : Operator) (m : op.State) : Program (op.State × Except Fault Unit) :=
  call .init always (op.init m)

def callProcess (op : Operator) (m : op.State) : Program (op.State × Except Fault Bool) :=
  call .process id (op.process m)

def callDispose (op : Operator) (m : op.State) : Program (op.State × Except Fault Unit) :=
  call .dispose always (op.dispose m)

def failStep : Program Turn := do
  addError
  let l ← own
  let _ ← stop (.stepFailed l.info.name)
  return .leave .failed

/-- A row failure is survived where there is an error output for it. -/
def afterFault (f : Fault) : Program Turn := do
  let l ← own
  match f, l.errorHandling with
  | .rowFailed row d, true =>
    match ← rejectRow row d with
    | .ok () => return .again
    | .error _ => failStep
  | _, _ => failStep

def round (op : Operator) (m : op.State) : Program (op.State × Turn) := do
  if ← isStopped then return (m, .leave .stopped)
  let (m, r) ← callProcess op m
  match r with
  | .ok true => return (m, .again)
  | .ok false => return (m, .leave (if ← isStopped then .stopped else .finished))
  | .error f => return (m, ← afterFault f)

/-- The hook for the start.  A failure counts and settles the outcome. -/
def begin (op : Operator) (m : op.State) : Program (op.State × Except Fault Unit) := do
  perform (.allowErrors op.capabilities.errorHandling)
  let (m, r) ← callInit op m
  match r with
  | .ok () =>
    perform (.publish .initialized)
    return (m, .ok ())
  | .error f =>
    addError
    perform (.settle .failed)
    perform (.publish .failed)
    let l ← own
    return (m, .error (.initFailed l.info.name f.message))

/-- The hook for the end.  A failure counts and is not told. -/
def dispose (op : Operator) (m : op.State) : Program Unit := do
  let (_, r) ← callDispose op m
  match r with
  | .ok () => pure ()
  | .error _ => addError
  perform (.publish .disposed)

/-- The end of a copy that has worked. -/
def leave (op : Operator) (m : op.State) (outcome : Outcome) : Program Unit := do
  endOutput
  detachInputs
  perform (.settle outcome)
  perform (.publish outcome.state)
  dispose op m

/-- The end of a copy that never came to work. -/
def abandon (op : Operator) (m : op.State) : Program Unit := do
  let l ← own
  if l.status.state = .initialized then
    perform (.settle .stopped)
    perform (.publish .stopped)
  endOutput
  dispose op m

end Program

inductive Task (op : Operator) where
  | created
  | beginning (p : Program (op.State × Except Fault Unit))
  | ready (m : op.State)
  | refused (m : op.State) (f : Fault)
  | working (p : Program (op.State × Turn))
  | leaving (p : Program Unit)
  | gone

structure Copy where
  op : Operator
  own : Local
  task : Task op := .created

namespace Copy

/-- One action of the copy's task; where a program is done, the next task follows. -/
def step (c : Copy) (s : Shared) : Copy × Shared :=
  match c.task with
  | .beginning (.done (m, .ok ())) => ({ c with task := .ready m }, s)
  | .beginning (.done (m, .error f)) => ({ c with task := .refused m f }, s)
  | .beginning p =>
    let (p, own, s) := p.step c.own s
    ({ c with own, task := .beginning p }, s)
  | .working (.done (m, .again)) => ({ c with task := .working (.round c.op m) }, s)
  | .working (.done (m, .leave o)) => ({ c with task := .leaving (.leave c.op m o) }, s)
  | .working p =>
    let (p, own, s) := p.step c.own s
    ({ c with own, task := .working p }, s)
  | .leaving (.done ()) => ({ c with task := .gone }, s)
  | .leaving p =>
    let (p, own, s) := p.step c.own s
    ({ c with own, task := .leaving p }, s)
  | _ => (c, s)

def toBegin (c : Copy) : Copy :=
  match c.task with
  | .created => { c with task := .beginning (.begin c.op c.op.start) }
  | _ => c

def toWork (c : Copy) : Copy :=
  match c.task with
  | .ready m =>
    { c with task := .working (.act (.publish .running) fun _ => .done (m, .again)) }
  | _ => c

def toAbandon (c : Copy) : Copy :=
  match c.task with
  | .ready m => { c with task := .leaving (.abandon c.op m) }
  | .refused m _ => { c with task := .leaving (.abandon c.op m) }
  | _ => c

def isGone (c : Copy) : Bool :=
  match c.task with
  | .gone => true
  | _ => false

def hasBegun (c : Copy) : Bool :=
  match c.task with
  | .ready _ => true
  | .refused _ _ => true
  | _ => false

def refusal? (c : Copy) : Option Fault :=
  match c.task with
  | .refused _ f => some f
  | _ => none

def isHolding (c : Copy) : Bool :=
  match c.task with
  | .beginning p => p.isHolding c.own
  | .working p => p.isHolding c.own
  | .leaving p => p.isHolding c.own
  | _ => false

/-- The copy can do something other than try again in vain. -/
def canMove (c : Copy) (s : Shared) : Bool :=
  match c.task with
  | .beginning p => !p.isBlocked c.own s
  | .working p => !p.isBlocked c.own s
  | .leaving p => !p.isBlocked c.own s
  | _ => false

end Copy
end RowFlow
