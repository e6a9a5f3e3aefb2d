import RowFlow.Operator.Basic

/-
Operators that follow a script.  A scene is a list of acts and an end; the acts are
done in order, their answers are noted, and none of them ends the scene early.  A
script has a scene for each call of the hook for work, and may have one for the
start and one for the end.
-/
namespace RowFlow

namespace Script

/-- The row an act is about: the last row that was taken, or a given one, which may
turn out to be no row. -/
inductive Source where
  | last
  | given (row : Except Fault Row)

inductive Act where
  | getRow
  | putRow (row : Source)
  | rejectRow (row : Source) (diagnostic : Diagnostic)
  | addError
  | endOutput
  | stop (reason : StopReason)
  | info (params : List String)

inductive End where
  | result (more : Bool)
  /-- There is more to do if there is a last row. -/
  | moreIfRow
  | fault (f : Fault)
  /-- The last row fails and is gone; without one there is no more to do. -/
  | rejectLast (diagnostic : Diagnostic)
  | crash (text : String)

structure Scene where
  acts : List Act := []
  ending : End := .result true

def Source.row (last : Option Row) : Source → Except Answer Row
  | .last => match last with
    | some row => .ok row
    | none => .error .noRow
  | .given (.ok row) => .ok row
  | .given (.error f) => .error (.fault f)

def answerOf : Except Fault Unit → Answer
  | .ok () => .ok
  | .error f => .fault f

/-- One act: the last row afterwards, and the answer. -/
def perform (last : Option Row) : Act → Behaviour (Option Row × Answer)
  | .getRow => do
    let row ← Behaviour.getRow
    return (row, .row row)
  | .putRow source =>
    match source.row last with
    | .error a => return (last, a)
    | .ok row => do
      return (last, answerOf (← Behaviour.putRow row))
  | .rejectRow source diagnostic =>
    match source.row last with
    | .error a => return (last, a)
    | .ok row => do
      return (last, answerOf (← Behaviour.rejectRow row diagnostic))
  | .addError => do
    Behaviour.request .addError
    let v ← Behaviour.look
    return (last, .count v.counts.errors)
  | .endOutput => do
    Behaviour.request .endOutput
    let v ← Behaviour.look
    return (last, .flag v.outputDone)
  | .stop reason => do
    let raised ← Behaviour.request (.stop reason)
    return (last, .flag raised)
  | .info params => do
    let stopped ← Behaviour.isStopped
    let v ← Behaviour.look
    return (last, .view v stopped (params.map v.info.param?))

/-- Acts in their order, with their answers noted unless that is not wanted. -/
def performAll (quiet : Bool) (last : Option Row) : List Act → Behaviour (Option Row)
  | [] => return last
  | a :: rest => do
    let (last, answer) ← perform last a
    if !quiet then Behaviour.note (.answer answer)
    performAll quiet last rest

def endScene (last : Option Row) : End → Option Row × Ending Bool
  | .result more => (last, .returned (.ok more))
  | .moreIfRow => (last, .returned (.ok last.isSome))
  | .fault f => (last, .returned (.error f))
  | .rejectLast diagnostic =>
    match last with
    | some row => (none, .returned (.error (.rowFailed row diagnostic)))
    | none => (none, .returned (.ok false))
  | .crash text => (last, .crashed text)

end Script

structure Script where
  errorHandling : Bool := false
  init : Script.Scene := {}
  scenes : List Script.Scene := []
  dispose : Script.Scene := {}
  /-- The scenes start over after the last one. -/
  repeats : Bool := false
  quiet : Bool := false

namespace Script

structure State where
  last : Option Row := none
  played : Nat := 0

def next? (s : Script) (played : Nat) : Option Scene :=
  if s.repeats then s.scenes[played % s.scenes.length]? else s.scenes[played]?

def play (s : Script) (state : State) (scene : Scene) : Behaviour (State × Ending Bool) := do
  let last ← performAll s.quiet state.last scene.acts
  let (last, ending) := endScene last scene.ending
  return ({ state with last }, ending)

def dropResult : Ending Bool → Ending Unit
  | .returned (.ok _) => .returned (.ok ())
  | .returned (.error f) => .returned (.error f)
  | .crashed text => .crashed text

def operator (s : Script) : Operator where
  State := State
  start := {}
  capabilities := { errorHandling := s.errorHandling }
  init state := do
    let (state, ending) ← s.play state s.init
    return (state, dropResult ending)
  process state :=
    match s.next? state.played with
    | none => Behaviour.finish state false
    | some scene => s.play { state with played := state.played + 1 } scene
  dispose state := do
    let v ← Behaviour.look
    Behaviour.note (.disposing v.outcome)
    let (state, ending) ← s.play state s.dispose
    return (state, dropResult ending)

end Script
end RowFlow
