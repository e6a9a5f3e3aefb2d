import RowFlow.Operator.PassThrough
import RowFlow.Operator.Sequence

/-
Registries: makers of operators under the keys that definitions use.  A maker is
called once for each step copy.
-/
namespace RowFlow

abbrev Maker := StepInfo → Except Fault Operator

abbrev Registry := KeyMap Maker

namespace Registry

def passThroughKey : String := "Dummy"

def sequenceKey : String := "Sequence"

def builtins : Registry :=
  KeyMap.ofList [
    (passThroughKey, fun _ => .ok Operator.passThrough),
    (sequenceKey, fun i => (Sequence.ofInfo i).map Sequence.operator)]

def register (r : Registry) (key : String) (maker : Maker) : Except Fault Registry :=
  if r.contains key then .error (.duplicatePlugin key) else .ok (r.insert key maker)

def unregister (r : Registry) (key : String) : Except Fault Registry :=
  if r.contains key then .ok (r.erase key) else .error (.pluginNotFound key)

def create (r : Registry) (key : String) (i : StepInfo) : Except Fault Operator :=
  match r.find? key with
  | some maker => maker i
  | none => .error (.pluginNotFound key)

end Registry
end RowFlow
