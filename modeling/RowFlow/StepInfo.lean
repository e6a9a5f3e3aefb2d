import RowFlow.Definition

/-
What a step copy knows about itself from the start: its name, its number among the
copies of its step, and its parameters.
-/
namespace RowFlow

structure StepInfo where
  name : String
  copy : Nat := 0
  copies : Nat := 1
  params : Params := .empty
deriving DecidableEq

namespace StepInfo

inductive Problem where
  | missing (key : String)
  | badValue (raw key : String)
deriving DecidableEq, Repr

def Problem.fault (step : String) : Problem → Fault
  | missing key => .config s!"step '{step}': parameter '{key}' is required"
  | badValue raw key => .config s!"step '{step}': invalid value '{raw}' for parameter '{key}'"

def param? (i : StepInfo) (key : String) : Option String := i.params.find? key

/-- A parameter that has to be given and may not be empty. -/
def requiredParam (i : StepInfo) (key : String) : Except Fault String :=
  match i.param? key with
  | some v => if v.isEmpty then .error (Problem.fault i.name (.missing key)) else .ok v
  | none => .error (Problem.fault i.name (.missing key))

def parseParam {α : Type} (i : StepInfo) (read : String → Option α) (key : String) :
    Except Fault (Option α) :=
  match i.param? key with
  | none => .ok none
  | some raw =>
    match read raw with
    | some a => .ok (some a)
    | none => .error (Problem.fault i.name (.badValue raw key))

end StepInfo
end RowFlow
