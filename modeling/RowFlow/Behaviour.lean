import RowFlow.Control
import RowFlow.Journal

/-
What a step's own code does: it makes requests of its surroundings, one after the
other, and each next one may depend on the answers so far.  A behaviour is the tree
of all such courses.  It is finite in depth, so code that is a behaviour comes to
its end whatever the answers are.  Code that need not end is cut off
(`Proofs.Program.CutOff`), and no run that moves less often can tell.
-/
namespace RowFlow

inductive Request where
  /-- The next row of any input; none at the end. -/
  | getRow
  /-- A row for each target. -/
  | putRow (row : Row)
  /-- A rejected row for the error output. -/
  | rejectRow (row : Row) (diagnostic : Diagnostic)
  /-- The end of all outputs. -/
  | endOutput
  /-- One error more, for the copy and for the run. -/
  | addError
  | add (counter : Counter) (n : Nat)
  | look
  | isStopped
  | stop (reason : StopReason)
  /-- Errors for the run alone. -/
  | addRunErrors (n : Nat)
  /-- Source rows for the run alone. -/
  | recordSourceRows (n : Nat)
  | note (n : Note)
  /-- To wait until the work is cancelled. -/
  | hold

namespace Request

@[reducible] def Answer : Request → Type
  | getRow => Option Row
  | putRow _ => Except Fault Unit
  | rejectRow _ _ => Except Fault Unit
  | endOutput => Unit
  | addError => Unit
  | add _ _ => Nat
  | look => View
  | isStopped => Bool
  | stop _ => Bool
  | addRunErrors _ => Nat
  | recordSourceRows _ => Unit
  | note _ => Unit
  | hold => Unit

end Request

inductive Behaviour (α : Type) : Type where
  | done (value : α)
  | ask (q : Request) (next : q.Answer → Behaviour α)

namespace Behaviour

variable {α β : Type}

def bind : Behaviour α → (α → Behaviour β) → Behaviour β
  | done a, f => f a
  | ask q next, f => ask q fun x => (next x).bind f

instance : Monad Behaviour where
  pure := done
  bind := bind

def request (q : Request) : Behaviour q.Answer := ask q done

def getRow : Behaviour (Option Row) := request .getRow

def putRow (row : Row) : Behaviour (Except Fault Unit) := request (.putRow row)

def rejectRow (row : Row) (d : Diagnostic) : Behaviour (Except Fault Unit) :=
  request (.rejectRow row d)

def add (c : Counter) (n : Nat) : Behaviour Nat := request (.add c n)

def look : Behaviour View := request .look

def isStopped : Behaviour Bool := request .isStopped

def note (n : Note) : Behaviour Unit := request (.note n)

def notes : List Note → Behaviour Unit
  | [] => done ()
  | n :: rest => (note n).bind fun _ => notes rest

@[simp] theorem done_bind (a : α) (f : α → Behaviour β) : (done a).bind f = f a := rfl

theorem bind_assoc {γ : Type} (b : Behaviour α) (f : α → Behaviour β) (g : β → Behaviour γ) :
    (b.bind f).bind g = b.bind fun a => (f a).bind g := by
  induction b with
  | done a => rfl
  | ask q next ih => simp only [bind]; congr 1; funext x; exact ih x

end Behaviour
end RowFlow
