import RowFlow.Run.Basic

/-
Runs that are seen through by turns: in each round everything that can move makes
one move.  No copy is passed over, so a row that can get anywhere gets there.  The
rounds end when nothing can move any more; runs that would go on for ever are left
after a great many rounds.
-/
namespace RowFlow
namespace Run

/-- A round: each of the moves that is possible when its turn comes. -/
def sweep (r : Run) : List Move → Run × Bool
  | [] => (r, false)
  | m :: rest =>
    match r.move? m with
    | none => r.sweep rest
    | some r => ((r.sweep rest).1, true)

/-- Rounds until the goal is reached or nothing moves. -/
def drive (goal : Run → Bool) : Nat → Run → Run
  | 0, r => r
  | rounds + 1, r =>
    if goal r then r
    else
      match r.sweep r.moves with
      | (r, true) => drive goal rounds r
      | (r, false) => r

def patience : Nat := 1000000000000

def driveUntil (r : Run) (goal : Run → Bool) : Run := r.drive goal patience

def isSettled (r : Run) : Bool :=
  match r.phase with
  | .preparing => false
  | .refusing _ => false
  | .halting _ => false
  | .abandoning _ _ => false
  | _ => true

def preparationAnswer (r : Run) : Except Fault Unit :=
  match r.phase with
  | .refused refusal => .error refusal.fault
  | _ => .ok ()

def prepare (r : Run) : Run × Except Fault Unit :=
  match r.beginPreparation with
  | .error f => (r, .error f)
  | .ok r =>
    let r := r.driveUntil isSettled
    (r, r.preparationAnswer)

def startWork (r : Run) : Run × Except Fault Unit :=
  match r.start with
  | .error f => (r, .error f)
  | .ok r => (r, .ok ())

def execute (r : Run) : Run × Except Fault Unit :=
  match r.prepare with
  | (r, .error f) => (r, .error f)
  | (r, .ok ()) => r.startWork

def await (r : Run) : Run × Except Fault RunResult :=
  match r.waitProblem? with
  | some f => (r, .error f)
  | none =>
    let r := (r.driveUntil (·.net.allGone)).finish
    (r, .ok r.result)

def complete (r : Run) : Run × Except Fault RunResult :=
  match r.execute with
  | (r, .error f) => (r, .error f)
  | (r, .ok ()) => r.await

/-- Stops the run; whoever asks for it does nothing else in between. -/
def stopAll (r : Run) : Run :=
  let place := r.stops.length
  let moves := List.replicate (r.cancellable.length + 4) (Move.stop place)
  (r.requestStop.sweep moves).1

def settling : Nat := 100000

/-- Until some copy waits for its work to be cancelled, and the others have nothing more to
do, unless they go on and on. -/
def awaitHolding (r : Run) : Run :=
  (r.driveUntil (·.net.isAnyHolding)).drive (fun _ => false) settling

def awaitGone (r : Run) : Run × Bool :=
  let r := r.driveUntil (·.net.allGone)
  (r, r.isFinished)

/-- A run before and after each of its phases; a phase that fails ends it. -/
def phases (r : Run) : Except Fault (List Run) :=
  match r.prepare with
  | (_, .error f) => .error f
  | (prepared, .ok _) =>
    match prepared.startWork with
    | (_, .error f) => .error f
    | (started, .ok _) =>
      match started.await with
      | (_, .error f) => .error f
      | (finished, .ok _) => .ok [r, prepared, started, finished]

end Run
end RowFlow
