/-
An order of steps in which every hop goes forward.  Steps are numbers below `n` and
hops are pairs of them.  A step is ready when nothing that enters it is left; ready
steps wait in a queue, and the first of them is taken next.  Taking a step takes its
hops away in their order.  Each step is queued at most once, so `n` turns are enough.
-/
namespace RowFlow
namespace Plan

structure Ordering where
  /-- How many hops into each step are left. -/
  entering : List Nat
  ready : List Nat
  /-- The steps taken so far, in order. -/
  taken : List Nat := []
deriving DecidableEq, Repr

namespace Ordering

def start (n : Nat) (hops : List (Nat × Nat)) : Ordering :=
  let entering := (List.range n).map fun i => hops.countP (·.2 == i)
  { entering, ready := (List.range n).filter fun i => entering[i]? == some 0 }

/-- A hop into a step is gone; the last one makes the step ready. -/
def release (o : Ordering) (target : Nat) : Ordering :=
  let left := o.entering.getD target 0 - 1
  { o with
    entering := o.entering.set target left
    ready := if left = 0 then o.ready ++ [target] else o.ready }

def turn (hops : List (Nat × Nat)) (o : Ordering) : Ordering :=
  match o.ready with
  | [] => o
  | i :: rest =>
    ((hops.filter (·.1 == i)).map (·.2)).foldl release
      { o with ready := rest, taken := o.taken ++ [i] }

def turns (hops : List (Nat × Nat)) : Nat → Ordering → Ordering
  | 0, o => o
  | k + 1, o => turns hops k (turn hops o)

def run (n : Nat) (hops : List (Nat × Nat)) : Ordering := turns hops n (start n hops)

/-- The steps that something still enters. -/
def stuck (o : Ordering) : List Nat :=
  (List.range o.entering.length).filter fun i => 0 < o.entering.getD i 0

end Ordering

/-- The steps in order, or else those that were never ready. -/
def order (n : Nat) (hops : List (Nat × Nat)) : Except (List Nat) (List Nat) :=
  let o := Ordering.run n hops
  if o.taken.length = n then .ok o.taken else .error o.stuck

end Plan
end RowFlow
