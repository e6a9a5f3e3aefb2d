import RowFlow.Definition

/-
What can be wrong with a definition.  Steps are looked at first, then all hops, then
the hops that are enabled; the first thing found is the one that is told.
-/
namespace RowFlow
namespace Plan

inductive Problem where
  | unnamedStep
  | duplicateStep (name : String)
  | noCopies (name : String)
  | unknownStep (name : String)
  | selfHop (name : String)
  | duplicateHop (source target : String)
  | secondErrorHop (source : String)
  /-- The steps that no order reaches. -/
  | cycle (steps : List String)
deriving DecidableEq, Repr

def Problem.fault : Problem → Fault
  | unnamedStep => .config "step name must not be empty"
  | duplicateStep name => .duplicateStep name
  | noCopies name => .config s!"step '{name}': copies must be at least 1"
  | unknownStep name => .stepNotFound name
  | selfHop name => .config s!"hop from '{name}' to itself"
  | duplicateHop source target => .config s!"duplicate hop from '{source}' to '{target}'"
  | secondErrorHop source => .config s!"step '{source}' has more than one error hop"
  | cycle steps => .cycle (", ".intercalate steps)

/-- Steps have different names, none empty, and a copy each at least. -/
def stepProblem? (seen : List String) : List StepDefinition → Option Problem
  | [] => none
  | s :: rest =>
    if s.name.isEmpty then some .unnamedStep
    else if s.name ∈ seen then some (.duplicateStep s.name)
    else if s.copies = 0 then some (.noCopies s.name)
    else stepProblem? (s.name :: seen) rest

def hopProblem? (names : List String) : List Hop → Option Problem
  | [] => none
  | h :: rest =>
    if h.source ∉ names then some (.unknownStep h.source)
    else if h.target ∉ names then some (.unknownStep h.target)
    else if h.source = h.target then some (.selfHop h.source)
    else hopProblem? names rest

/-- No two enabled hops join the same steps, and a step has one error hop at most. -/
def enabledProblem? (pairs : List (String × String)) (sources : List String) :
    List Hop → Option Problem
  | [] => none
  | h :: rest =>
    if (h.source, h.target) ∈ pairs then some (.duplicateHop h.source h.target)
    else if h.kind = .error then
      if h.source ∈ sources then some (.secondErrorHop h.source)
      else enabledProblem? ((h.source, h.target) :: pairs) (h.source :: sources) rest
    else enabledProblem? ((h.source, h.target) :: pairs) sources rest

/-- What is wrong with a definition, whether its hops are enabled or not. -/
def problem? (d : Definition) : Option Problem :=
  (stepProblem? [] d.steps).or (hopProblem? (d.steps.map (·.name)) d.hops)

/-- A step is unused when hops leave it, all of them disabled, and no hop enters it. -/
def isUnused (d : Definition) (name : String) : Bool :=
  d.hops.any (·.source == name) && d.hops.all (fun h => h.source != name || !h.enabled) &&
    d.hops.all (·.target != name)

def usedSteps (d : Definition) : List StepDefinition :=
  d.steps.filter fun s => !isUnused d s.name

/-- The hops that are planned.  An unused step has no enabled hop. -/
def enabledHops (d : Definition) : List Hop := d.hops.filter (·.enabled)

end Plan
end RowFlow
