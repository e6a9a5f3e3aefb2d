import RowFlow.Copy.Basic

/-
Nets: the copies of all steps with what they share.  A net moves one copy at a time
and by one action at a time; in which order its copies move is not its own choice,
and `walk` takes the order as it comes.
-/
namespace RowFlow

structure Net where
  copies : List Copy
  shared : Shared := {}

namespace Net

def step (n : Net) (place : Nat) : Net :=
  match n.copies[place]? with
  | none => n
  | some c =>
    match c.step n.shared with
    | (c, shared) => { copies := n.copies.set place c, shared }

def walk (n : Net) (places : List Nat) : Net := places.foldl step n

def canMove (n : Net) (place : Nat) : Bool :=
  match n.copies[place]? with
  | none => false
  | some c => c.canMove n.shared

def modify (n : Net) (place : Nat) (f : Copy → Copy) : Net :=
  { n with copies := n.copies.modify place f }

def modifyAll (n : Net) (f : Copy → Copy) : Net := { n with copies := n.copies.map f }

def allGone (n : Net) : Bool := n.copies.all Copy.isGone

def haveAllBegun (n : Net) : Bool := n.copies.all Copy.hasBegun

def isAnyHolding (n : Net) : Bool := n.copies.any Copy.isHolding

@[simp] theorem walk_nil (n : Net) : n.walk [] = n := rfl

@[simp] theorem walk_cons (n : Net) (place : Nat) (rest : List Nat) :
    n.walk (place :: rest) = (n.step place).walk rest := rfl

@[simp] theorem length_copies_step (n : Net) (place : Nat) :
    (n.step place).copies.length = n.copies.length := by
  unfold step
  split <;> simp

/-- An action of one copy leaves the others as they are. -/
theorem getElem?_copies_step_of_ne (n : Net) {place other : Nat} (h : other ≠ place) :
    (n.step place).copies[other]? = n.copies[other]? := by
  unfold step
  split
  · rfl
  · simp [List.getElem?_set_ne (Ne.symm h)]

end Net
end RowFlow
