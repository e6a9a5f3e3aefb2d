/-
The state that all step copies of a run share: the stop flag with its reason, the
error count and the count of rows from sources.

To stop takes two indivisible steps, first the reason and then the flag, and to
count takes one more before them; between the steps other copies may do theirs.
`stop`, `addErrors` and `recordSourceRows` are the whole operations as one caller
does them alone.

The counts are natural numbers, and so they are those of counters of 64 bits as long as
the sums fit.  What becomes of a count that does not fit is told in `Proofs.Control.Calls`.
-/
namespace RowFlow

inductive StopReason where
  | stepFailed (step : String)
  | external
  | errorLimit
  | rowLimit
deriving DecidableEq, Repr

structure Control where
  maxErrors : Option Nat := none
  rowLimit : Option Nat := none
  stopped : Bool := false
  reason : Option StopReason := none
  errors : Nat := 0
  sourceRows : Nat := 0
deriving DecidableEq, Repr

namespace Control

/-- Only the first reason is kept. -/
def giveReason (c : Control) (r : StopReason) : Control :=
  { c with reason := c.reason.or (some r) }

/-- Raises the flag; the answer is whether it was down before. -/
def raiseFlag (c : Control) : Control × Bool := ({ c with stopped := true }, !c.stopped)

def countErrors (c : Control) (n : Nat) : Control := { c with errors := c.errors + n }

def countSourceRows (c : Control) (n : Nat) : Control :=
  { c with sourceRows := c.sourceRows + n }

def reaches (limit : Option Nat) (total : Nat) : Bool :=
  match limit with
  | none => false
  | some l => l ≤ total

def stop (c : Control) (r : StopReason) : Control × Bool := (c.giveReason r).raiseFlag

def addErrors (c : Control) (n : Nat) : Control × Nat :=
  let c := c.countErrors n
  (if reaches c.maxErrors c.errors then (c.stop .errorLimit).1 else c, c.errors)

def recordSourceRows (c : Control) (n : Nat) : Control :=
  let c := c.countSourceRows n
  if reaches c.rowLimit c.sourceRows then (c.stop .rowLimit).1 else c

theorem giveReason_of_some {c : Control} {r : StopReason} (h : c.reason = some r)
    (r' : StopReason) : (c.giveReason r').reason = some r := by
  simp [giveReason, h]

@[simp] theorem stopped_stop (c : Control) (r : StopReason) : (c.stop r).1.stopped = true := rfl

end Control
end RowFlow
