import RowFlow.Net
import RowFlow.Plan.Basic
import RowFlow.Registry
import RowFlow.Run.Result

/-
Runs.  A run is made of a definition: its net is there, and nothing has happened.
It is prepared, when every copy calls its hook for the start; then started, when all
copies go to work; and it is finished when all of them are gone.  If a copy cannot
start, the run is stopped and every copy is given up, one after the other, before
any row has flowed.

A thread can be had for every copy, and it ends with its copy.  So `start` does not fail
half way, with a thread error and the copies that are left abandoned, and `finish` finds
no thread that has ended otherwise, which would count as one more error and stop the run.

Besides the copies two kinds of parties move in a run.  The chief sees the
preparation through.  Each request to stop gives its reason, raises the flag and
then cancels the work of the copies that can be cancelled.  Their moves are as
indivisible as the actions of the copies, and like them they may come in any order.
-/
namespace RowFlow

/-- A step that could not start, and the fault that tells why. -/
structure Refusal where
  step : String
  fault : Fault
deriving DecidableEq

inductive Phase where
  | created
  /-- The hooks for the start are being called. -/
  | preparing
  /-- A copy could not start; next the reason is given for which the run stops. -/
  | refusing (r : Refusal)
  /-- Next the flag is raised. -/
  | halting (r : Refusal)
  /-- The copies are given up; so many are gone. -/
  | abandoning (r : Refusal) (gone : Nat)
  /-- All copies are gone and none has worked. -/
  | refused (r : Refusal)
  | prepared
  | running
  | finished
deriving DecidableEq

namespace Phase

def text : Phase → String
  | prepared => "Prepared"
  | running => "Running"
  | refused _ => "Finished"
  | finished => "Finished"
  | _ => "Created"

end Phase

inductive StopCall where
  | giveReason
  | raiseFlag
  /-- Next it learns which copies can be cancelled. -/
  | lookUp
  | cancel (places : List Nat)
  | done
deriving DecidableEq, Repr

structure Run where
  name : String
  config : Config
  net : Net
  phase : Phase := .created
  /-- The copies that can be cancelled, once the run is prepared. -/
  cancellable : List Nat := []
  stops : List StopCall := []

namespace Run

def infoOf (s : Plan.Step) (copy : Nat) : StepInfo where
  name := s.definition.name
  copy
  copies := s.copies.length
  params := s.definition.params

/-- A step that sends rejected rows somewhere has to be able to reject rows. -/
def cannotReject (s : StepDefinition) : Fault :=
  .config s!"step '{s.name}' ({s.plugin}) does not support error handling but has an error hop"

def makeCopy (registry : Registry) (s : Plan.Step) (copy : Nat) (w : Plan.CopyWiring) :
    Except Fault Copy :=
  match registry.create s.definition.plugin (infoOf s copy) with
  | .error f => .error f
  | .ok op =>
    if s.hasErrorHop && !op.capabilities.errorHandling then .error (cannotReject s.definition)
    else .ok { op, own := Local.fresh (infoOf s copy) w.inputs w.outputs w.errorOutput }

/-- The copies of all steps in the order of the plan; the first fault ends it. -/
def makeCopies (registry : Registry) (p : Plan) : Except Fault (List Copy) :=
  (p.steps.flatMap fun s => s.copies.zipIdx.map fun (w, copy) => (s, copy, w)).mapM
    fun (s, copy, w) => makeCopy registry s copy w

def controlOf (c : Config) : Control where
  maxErrors := c.maxErrors.map (·.toNat)
  rowLimit := c.rowLimit.map (·.toNat)

/-- A run of a definition.  The settings are checked first, then the definition, and
then the operators are made. -/
def make (d : Definition) (registry : Registry) (config : Config) : Except Fault Run :=
  match config.problem? with
  | some p => .error p.fault
  | none =>
    match Plan.ofDefinition d config.queueSize.toNat with
    | .error p => .error p.fault
    | .ok plan =>
      match makeCopies registry plan with
      | .error f => .error f
      | .ok copies =>
        let shared : Shared := { rowSets := plan.rowSets, control := controlOf config }
        .ok { name := d.name, config, net := { copies, shared } }

/-- A run of a definition as a caller asks for it; the plan may be too large. -/
def create (d : Definition) (registry : Registry) (config : Config) : Ending Run :=
  if config.problem?.isNone && Plan.overflows d config.queueSize.toNat then .overflow
  else .returned (make d registry config)

def outOfPhase (r : Run) (operation : String) : Fault :=
  .invalidOperation s!"{operation} not allowed in phase {r.phase.text}"
    s!"transformation '{r.name}'"

def beginPreparation (r : Run) : Except Fault Run :=
  if r.phase = .created then
    .ok { r with phase := .preparing, net := r.net.modifyAll Copy.toBegin }
  else .error (r.outOfPhase "prepare_execution")

def start (r : Run) : Except Fault Run :=
  if r.phase = .prepared then
    .ok { r with phase := .running, net := r.net.modifyAll Copy.toWork }
  else .error (r.outOfPhase "start_threads")

def requestStop (r : Run) : Run := { r with stops := r.stops ++ [.giveReason] }

/-- A run can be waited for once it was started or refused. -/
def waitProblem? (r : Run) : Option Fault :=
  if r.phase = .created ∨ r.phase = .prepared then some (r.outOfPhase "wait_until_finished")
  else none

/-- Whoever waits for the run finds all copies gone. -/
def finish (r : Run) : Run :=
  if r.phase = .running ∧ r.net.allGone then { r with phase := .finished } else r

def setControl (r : Run) (f : Control → Control) : Run :=
  { r with net := { r.net with shared := { r.net.shared with control := f r.net.shared.control } } }

def refusal? (r : Run) : Option Refusal :=
  r.net.copies.findSome? fun c => c.refusal?.map fun fault => { step := c.own.info.name, fault }

def cancellers (r : Run) : List Nat :=
  (r.net.copies.zipIdx.filter fun (c, _) => c.op.canceller.isSome).map (·.2)

/-- A move of the chief; while copies are busy with what was asked of them there is
none. -/
def chief? (r : Run) : Option Run :=
  match r.phase with
  | .preparing =>
    if r.net.haveAllBegun then
      match r.refusal? with
      | some refusal => some { r with phase := .refusing refusal }
      | none => some { r with phase := .prepared, cancellable := r.cancellers }
    else none
  | .refusing refusal =>
    some { r.setControl (·.giveReason (.stepFailed refusal.step)) with phase := .halting refusal }
  | .halting refusal =>
    some { r.setControl (·.raiseFlag.1) with phase := .abandoning refusal 0 }
  | .abandoning refusal gone =>
    match r.net.copies[gone]? with
    | none => some { r with phase := .refused refusal }
    | some c =>
      if c.isGone then some { r with phase := .abandoning refusal (gone + 1) }
      else if c.hasBegun then some { r with net := r.net.modify gone Copy.toAbandon }
      else none
  | _ => none

def cancelCopy (r : Run) (place : Nat) : Run :=
  { r with net := r.net.modify place fun c => { c with own := { c.own with cancelled := true } } }

/-- A move of a request to stop: what it does, and how far it has come then. -/
def stopCall? (r : Run) : StopCall → Option (Run × StopCall)
  | .giveReason => some (r.setControl (·.giveReason .external), .raiseFlag)
  | .raiseFlag => some (r.setControl (·.raiseFlag.1), .lookUp)
  | .lookUp => some (r, .cancel r.cancellable)
  | .cancel [] => some (r, .done)
  | .cancel (place :: rest) => some (r.cancelCopy place, .cancel rest)
  | .done => none

inductive Move where
  | copy (place : Nat)
  | chief
  | stop (place : Nat)
deriving DecidableEq, Repr

def move? (r : Run) : Move → Option Run
  | .copy place => if r.net.canMove place then some { r with net := r.net.step place } else none
  | .chief => r.chief?
  | .stop place =>
    match r.stops[place]? with
    | none => none
    | some call => (r.stopCall? call).map fun (r, call) => { r with stops := r.stops.set place call }

def moves (r : Run) : List Move :=
  .chief :: ((List.range r.stops.length).map .stop ++ (List.range r.net.copies.length).map .copy)

def control (r : Run) : Control := r.net.shared.control

def rowSets (r : Run) : List RowSet := r.net.shared.rowSets

def copy? (r : Run) (step : String) (copy : Nat) : Option Copy :=
  r.net.copies.find? fun c => c.own.info.name == step && c.own.info.copy == copy

def stepState? (r : Run) (step : String) (copy : Nat) : Option StepState :=
  (r.copy? step copy).map (·.own.status.state)

def isFinished (r : Run) : Bool :=
  match r.phase with
  | .finished => true
  | .refused _ => true
  | .running => r.net.copies.all (·.own.status.isDisposed)
  | _ => false

def stepResults (r : Run) : List StepResult :=
  r.net.copies.map fun c => {
    step := c.own.info.name
    copy := c.own.info.copy
    state := c.own.status.state
    outcome := c.own.status.outcome.map (·.state)
    counts := c.own.counts }

def result (r : Run) : RunResult :=
  RunResult.ofSteps r.control.errors r.control.reason r.stepResults

end Run
end RowFlow
