import RowFlow.Control
import RowFlow.Copy.Local
import RowFlow.RowSet

/-
Programs of step copies: trees of indivisible actions.  An action touches at most
one row set, or the control, or only what is the copy's own; what other copies do
in between is up to them.  Two things a program does may have to be tried again and
again, and are nodes of their own that keep how far they have come: `receive` takes
a row from any input, and `deliver` puts a row into a row set.

`receive` looks at each pending input once, then once more at the next one, and
starts over; it ends without a row when the run is stopped or no input is pending.
`deliver` offers the row, and when it is handed back looks at the stop flag before it
offers the row again.
-/
namespace RowFlow

/-- What all step copies have in common. -/
structure Shared where
  rowSets : List RowSet := []
  control : Control := {}
  journal : Journal := []
deriving DecidableEq

inductive Hook where
  | init
  | process
  | dispose
deriving DecidableEq, Repr

/-- Where a program has come to, for an observer: it calls a hook and comes back, with
the result if there may be more; it asks for a row, sends a row or rejects one, and is
done with that. -/
inductive Mark where
  | enter (hook : Hook)
  | exit (hook : Hook) (result : Except Fault Bool)
  | get
  | got (row : Option Row)
  | put (row : Row)
  | putDone (result : Except Fault Unit)
  | reject (row : Row) (diagnostic : Diagnostic)
  | rejectDone (result : Except Fault Unit)

inductive Action where
  /-- Changes nothing. -/
  | mark (m : Mark)
  | isStopped
  | own
  | add (counter : Counter) (n : Nat)
  | choose (outlet : Outlet)
  | close (rowSet : Nat)
  | detach (rowSet : Nat)
  | countErrors (n : Nat)
  | countSourceRows (n : Nat)
  | giveReason (reason : StopReason)
  | raiseFlag
  | endOutput
  | leaveInputs
  | allowErrors (allowed : Bool)
  | settle (outcome : Outcome)
  | publish (state : StepState)
  | note (n : Note)
  | hold

structure Tally where
  total : Nat
  reached : Bool
deriving DecidableEq, Repr

namespace Action

@[reducible] def Answer : Action → Type
  | isStopped => Bool
  | own => Local
  | add _ _ => Nat
  | choose _ => Option Nat
  | close _ => Bool
  | countErrors _ => Tally
  | countSourceRows _ => Tally
  | raiseFlag => Bool
  | _ => Unit

end Action

inductive Scan where
  | start
  /-- So many inputs in a row had nothing. -/
  | looking (seen : Nat)
  /-- All had nothing; one is looked at once more. -/
  | waiting
deriving DecidableEq, Repr

/-- What became of a delivered row; it is dropped when the run is stopped while there
is no space. -/
inductive Delivery where
  | accepted
  | discarded
  | dropped
deriving DecidableEq, Repr

inductive Program (α : Type) : Type where
  | done (value : α)
  | act (a : Action) (next : a.Answer → Program α)
  | receive (scan : Scan) (next : Option Row → Program α)
  | deliver (rowSet : Nat) (row : Row) (refused : Bool)
      (next : Except Fault Delivery → Program α)

namespace Shared

/-- An indivisible operation on a row set; a row set that does not exist has ended
and takes everything. -/
def poll (s : Shared) (i : Nat) : Shared × Poll :=
  match s.rowSets[i]? with
  | none => (s, .done)
  | some rs => ({ s with rowSets := s.rowSets.set i rs.poll.1 }, rs.poll.2)

def offer (s : Shared) (i : Nat) (row : Row) : Shared × Except Fault Offer :=
  match s.rowSets[i]? with
  | none => (s, .ok .discarded)
  | some rs => ({ s with rowSets := s.rowSets.set i (rs.offer row).1 }, (rs.offer row).2)

/-- The answer is whether this closed the row set. -/
def close (s : Shared) (i : Nat) : Shared × Bool :=
  match s.rowSets[i]? with
  | none => (s, false)
  | some rs => ({ s with rowSets := s.rowSets.set i rs.close.1 }, rs.close.2.isOk)

def detach (s : Shared) (i : Nat) : Shared :=
  { s with rowSets := s.rowSets.modify i RowSet.detach }

def blocksPoll (s : Shared) (i : Nat) : Bool := (s.rowSets[i]?.map RowSet.blocksPoll).getD false

def blocksOffer (s : Shared) (i : Nat) : Bool := (s.rowSets[i]?.map RowSet.blocksOffer).getD false

end Shared

/-- One action: its answer and what it changes.  Only `hold` may have no answer yet. -/
def Action.perform (l : Local) (s : Shared) : (a : Action) → Option a.Answer × Local × Shared
  | mark _ => (some (), l, s)
  | isStopped => (some s.control.stopped, l, s)
  | own => (some l, l, s)
  | add counter n =>
    let counts := l.counts.add n counter
    (some (counts.get counter), { l with counts }, s)
  | choose outlet => (some (l.choose outlet).2, (l.choose outlet).1, s)
  | close i => (some (s.close i).2, l, (s.close i).1)
  | detach i => (some (), l, s.detach i)
  | countErrors n =>
    let c := s.control.countErrors n
    (some ⟨c.errors, Control.reaches c.maxErrors c.errors⟩, l, { s with control := c })
  | countSourceRows n =>
    let c := s.control.countSourceRows n
    (some ⟨c.sourceRows, Control.reaches c.rowLimit c.sourceRows⟩, l, { s with control := c })
  | giveReason r => (some (), l, { s with control := s.control.giveReason r })
  | raiseFlag => (some s.control.raiseFlag.2, l, { s with control := s.control.raiseFlag.1 })
  | endOutput => (some (), { l with outputDone := true }, s)
  | leaveInputs => (some (), { l with pending := [] }, s)
  | allowErrors allowed =>
    (some (), { l with errorHandling := allowed && l.errorOutput.isSome }, s)
  | settle outcome => (some (), { l with outcome := some outcome }, s)
  | publish state => (some (), { l with status := l.status.set state }, s)
  | note n => (some (), l, { s with journal := ⟨l.info.name, l.info.copy, n⟩ :: s.journal })
  | hold => (if l.cancelled then some () else none, l, s)

namespace Program

variable {α β : Type}

def bind : Program α → (α → Program β) → Program β
  | done a, f => f a
  | act a next, f => act a fun x => (next x).bind f
  | receive scan next, f => receive scan fun x => (next x).bind f
  | deliver i row refused next, f => deliver i row refused fun x => (next x).bind f

instance : Monad Program where
  pure := done
  bind := bind

def isDone : Program α → Bool
  | done _ => true
  | _ => false

def value? : Program α → Option α
  | done a => some a
  | _ => none

def perform (a : Action) : Program a.Answer := act a done

def marked (before : Mark) (after : α → Mark) (p : Program α) : Program α := do
  perform (.mark before)
  let a ← p
  perform (.mark (after a))
  return a

/-- Where a search goes on after an input had nothing, or had ended. -/
def scanOn (seen : Nat) (l : Local) (next : Option Row → Program α) : Program α :=
  if seen < l.pending.length then receive (.looking seen) next
  else if l.pending.isEmpty then next none
  else receive .waiting next

/-- One look at the input that the cursor points at. -/
def look (l : Local) (s : Shared) : Shared × Poll :=
  match l.pending[l.place]? with
  | some i => s.poll i
  | none => (s, .done)

/-- The first action of a program.  A program that is done stays so. -/
def step (p : Program α) (l : Local) (s : Shared) : Program α × Local × Shared :=
  match p with
  | done a => (done a, l, s)
  | act a next =>
    match a.perform l s with
    | (some x, l, s) => (next x, l, s)
    | (none, l, s) => (act a next, l, s)
  | receive .start next =>
    if s.control.stopped || l.pending.isEmpty then (next none, l, s)
    else (receive (.looking 0) next, l, s)
  | receive (.looking seen) next =>
    match look l s with
    | (s, .row row) => (next (some row), l.taken row, s)
    | (s, .done) => (scanOn seen l.drop next, l.drop, s)
    | (s, .pending) => (scanOn (seen + 1) l.pass next, l.pass, s)
  | receive .waiting next =>
    match look l s with
    | (s, .row row) => (next (some row), l.taken row, s)
    | (s, .done) => (receive .start next, l.drop, s)
    | (s, .pending) => (receive .start next, l, s)
  | deliver i row false next =>
    match s.offer i row with
    | (s, .ok .accepted) => (next (.ok .accepted), l, s)
    | (s, .ok .discarded) => (next (.ok .discarded), l, s)
    | (s, .ok (.full row)) => (deliver i row true next, l, s)
    | (s, .error f) => (next (.error f), l, s)
  | deliver i row true next =>
    if s.control.stopped then (next (.ok .dropped), l, s)
    else (deliver i row false next, l, s)

/-- A program is blocked when all it can do is to try again in vain: the run goes on,
and every pending input is empty and open, or there is no space to write. -/
def isBlocked (p : Program α) (l : Local) (s : Shared) : Bool :=
  match p with
  | receive _ _ => !s.control.stopped && !l.pending.isEmpty && l.pending.all s.blocksPoll
  | deliver i _ _ _ => !s.control.stopped && s.blocksOffer i
  | act .hold _ => !l.cancelled
  | _ => false

def isHolding (p : Program α) (l : Local) : Bool :=
  match p with
  | act .hold _ => !l.cancelled
  | _ => false

@[simp] theorem done_bind (a : α) (f : α → Program β) : (done a).bind f = f a := rfl

theorem bind_assoc {γ : Type} (p : Program α) (f : α → Program β) (g : β → Program γ) :
    (p.bind f).bind g = p.bind fun a => (f a).bind g := by
  induction p with
  | done a => rfl
  | act a next ih => simp only [bind]; congr 1; funext x; exact ih x
  | receive scan next ih => simp only [bind]; congr 1; funext x; exact ih x
  | deliver i row refused next ih => simp only [bind]; congr 1; funext x; exact ih x

@[simp] theorem step_done (a : α) (l : Local) (s : Shared) : (done a).step l s = (done a, l, s) :=
  rfl

end Program
end RowFlow
