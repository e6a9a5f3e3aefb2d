import RowFlow.Copy.Basic
import RowFlow.Operator.Script
import RowFlow.RowSet.Call

/-
A step copy at the bench.  Its hooks are called by hand, one at a time, and so are the
acts of a script.  Something may be done to the row sets or to the control meanwhile, late
enough for the call to have come back or to have come to where it can only wait; then it
goes on.  A call that still waits has no answer.
-/
namespace RowFlow

/-- The row sets that a step copy reads and, target by target, those that it writes. -/
structure Fitting where
  inputs : List RowSet := []
  outputs : List (String × List RowSet) := []
  errorOutput : Option (String × List RowSet) := none
deriving DecidableEq, Repr

namespace Fitting

def branchesFrom (next : Nat) : List (String × List RowSet) → List Branch
  | [] => []
  | (target, sets) :: rest =>
    { target, rowSets := List.range' next sets.length } :: branchesFrom (next + sets.length) rest

/-- The inputs come first and the error output last. -/
def rowSets (f : Fitting) : List RowSet :=
  f.inputs ++ (f.outputs ++ f.errorOutput.toList).flatMap (·.2)

def wire (f : Fitting) (info : StepInfo) : Local :=
  let branches := branchesFrom f.inputs.length (f.outputs ++ f.errorOutput.toList)
  Local.fresh info (List.range f.inputs.length) (branches.take f.outputs.length)
    branches[f.outputs.length]?

end Fitting

structure Bench where
  op : Operator
  state : op.State
  own : Local
  shared : Shared
  /-- The last row that an act has taken. -/
  last : Option Row := none

structure Trial (α β : Type) where
  /-- What came of the call, if it came back. -/
  result : Option α
  /-- What came of what was done meanwhile. -/
  aside : β
  /-- The control when the call came back; what is done later is not in it. -/
  control : Control
  bench : Bench

namespace Bench

variable {α β γ : Type}

def new (op : Operator) (info : StepInfo) (f : Fitting) (control : Control) : Bench :=
  { op, state := op.start, own := f.wire info, shared := { rowSets := f.rowSets, control } }

def outlets (b : Bench) : List (List Nat) :=
  (b.own.outputs ++ b.own.errorOutput.toList).map (·.rowSets)

/-- So many actions of a program at most, up to where it can only wait. -/
def settle : Nat → Program α → Local → Shared → Program α × Local × Shared
  | 0, p, l, s => (p, l, s)
  | actions + 1, p, l, s =>
    if p.isDone || p.isBlocked l s then (p, l, s)
    else
      match p.step l s with
      | (p, l, s) => settle actions p l s

/-- The number of actions after which a program is left. -/
def patience : Nat := 1000000000000

/-- Runs a program, and once more after something was done meanwhile.  What it has come to
is taken to the bench by `keep`. -/
def attempt (b : Bench) (p : Program α) (keep : α → Bench × γ)
    (meanwhile : Shared → Shared × β) : Trial γ β :=
  let (p, l, before) := settle patience p b.own b.shared
  let (s, aside) := meanwhile before
  let early := p.isDone
  let (p, own, shared) := settle patience p l s
  let kept := p.value?.map keep
  { result := kept.map (·.2)
    aside
    control := if early then before.control else shared.control
    bench := { (kept.map (·.1)).getD b with own, shared } }

def call (b : Bench) (hook : Program (b.op.State × α)) :
    (Shared → Shared × β) → Trial α β :=
  b.attempt hook fun (state, r) => ({ b with state }, r)

def init (b : Bench) : (Shared → Shared × β) → Trial (Except Fault Unit) β :=
  b.call (Program.callInit b.op b.state)

def process (b : Bench) : (Shared → Shared × β) → Trial (Except Fault Bool) β :=
  b.call (Program.callProcess b.op b.state)

def dispose (b : Bench) : (Shared → Shared × β) → Trial (Except Fault Unit) β :=
  b.call (Program.callDispose b.op b.state)

def act (b : Bench) (a : Script.Act) : (Shared → Shared × β) → Trial Answer β :=
  b.attempt (Script.perform b.last a).program fun (last, r) => ({ b with last }, r)

def answer (b : Bench) (a : α) : (Shared → Shared × β) → Trial α β :=
  b.attempt (.done a) fun a => (b, a)

/-- Works until there is no more to do; the answer is how often there was more, counted
on from `n`, and the fault that ended it. -/
def workOff (op : Operator) (n : Nat) :
    Nat → op.State → Program (op.State × Nat × Option Fault)
  | 0, m => .done (m, n, none)
  | calls + 1, m => do
    let (m, r) ← Program.callProcess op m
    match r with
    | .ok true => workOff op (n + 1) calls m
    | .ok false => return (m, n, none)
    | .error f => return (m, n, some f)

def drain (b : Bench) : (Shared → Shared × β) → Trial (Nat × Option Fault) β :=
  b.call (workOff b.op 0 patience b.state)

def askAt (s : Shared) (place : Nat) (c : RowSet.Call) : Shared × RowSet.Reply :=
  match s.rowSets[place]? with
  | none => (s, .waiting)
  | some rs => ({ s with rowSets := s.rowSets.set place (rs.ask c).1 }, (rs.ask c).2)

/-- Asks something of a row set, and does something so many milliseconds later.  A call
that still waits then is replied to after that. -/
def ask (b : Bench) (place : Nat) (c : RowSet.Call) (time : Nat)
    (meanwhile : Shared → Shared × β) : Trial RowSet.Reply β :=
  if (b.shared.rowSets[place]?.map (·.waits c time)).getD false then
    let (s, aside) := meanwhile b.shared
    let (shared, reply) := askAt s place c
    { result := some reply, aside, control := shared.control, bench := { b with shared } }
  else
    let (shared, reply) := askAt b.shared place c
    answer { b with shared } reply meanwhile

def cancel (b : Bench) : Option (Except Fault Unit) × Bench :=
  match b.op.canceller with
  | none => (none, b)
  | some r => (some r, { b with own := { b.own with cancelled := true } })

/-- A row would be asked for in vain: no input holds one, and one is still open. -/
def lacksRows (b : Bench) : Bool :=
  let inputs := b.own.inputs.filterMap fun i => b.shared.rowSets[i]?
  !b.shared.control.stopped && inputs.all (·.buffer.isEmpty) && inputs.any (!·.closed)

end Bench
end RowFlow
