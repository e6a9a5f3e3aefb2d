import RowFlow.Config
import RowFlow.KeyMap

/-
Definitions of pipelines: named steps, and hops between them along which rows
flow.  A definition says nothing yet about whether it makes sense; that is checked
when a plan is made of it.
-/
namespace RowFlow

/-- Rows flow along a normal hop, rejected rows along an error hop. -/
inductive HopKind where
  | normal
  | error
deriving DecidableEq, Repr

abbrev Params := KeyMap String

structure StepDefinition where
  name : String
  /-- The key of the step's plugin. -/
  plugin : String
  copies : UInt64 := 1
  params : Params := .empty
deriving DecidableEq

structure Hop where
  source : String
  target : String
  kind : HopKind := .normal
  enabled : Bool := true
deriving DecidableEq, Repr

structure Definition where
  name : String
  steps : List StepDefinition := []
  hops : List Hop := []
  config : Option Config := none
deriving DecidableEq

namespace Definition

def findStep? (d : Definition) (name : String) : Option StepDefinition :=
  d.steps.find? (·.name == name)

/-- The settings that come with the definition, or the defaults. -/
def effectiveConfig (d : Definition) : Config := d.config.getD {}

end Definition
end RowFlow
