import RowFlow.Proofs.Run.Course

/-
Copies on their own.  `Program.alone` runs the program of a copy by itself, on the list
of all rows that come to it and with row sets that take every row; nobody waits, nobody
stops the run and no other copy does anything.  `evaluate` does this for the copies one
after the other, in the order of the plan, and hands to each what those before it have
put for it.

A ledger is a run with what each copy has had to do with row sets.  A row that was put is
one that the row set has accepted, or discarded because the consumer had left.
-/
namespace RowFlow

inductive Trade where
  | took (row : Row)
  | put (rowSet : Nat) (row : Row)
  | refused (rowSet : Nat) (row : Row) (f : Fault)
  | ended (rowSet : Nat)
deriving DecidableEq

namespace Trade

def taken? : Trade → Option Row
  | took row => some row
  | _ => none

def putOn? (rowSets : List Nat) : Trade → Option Row
  | put i row => if i ∈ rowSets then some row else none
  | _ => none

end Trade

def rowsTaken (log : List Trade) : List Row := log.filterMap Trade.taken?

def rowsPut (rowSets : List Nat) (log : List Trade) : List Row :=
  log.filterMap (Trade.putOn? rowSets)

def Action.trade? : Action → Option Trade
  | close i => some (.ended i)
  | _ => none

namespace Program

variable {α : Type}

def trade? : Program α → Local → Shared → Option Trade
  | act a _, _, _ => a.trade?
  | receive .start _, _, _ => none
  | receive _ _, l, s =>
    match (look l s).2 with
    | .row row => some (.took row)
    | _ => none
  | deliver i row false _, _, s =>
    match (s.offer i row).2 with
    | .ok .accepted => some (.put i row)
    | .ok .discarded => some (.put i row)
    | .ok (.full _) => none
    | .error f => some (.refused i row f)
  | _, _, _ => none

end Program

def Copy.trade? (c : Copy) (s : Shared) : Option Trade :=
  match c.task with
  | .beginning p => p.trade? c.own s
  | .working p => p.trade? c.own s
  | .leaving p => p.trade? c.own s
  | _ => none

def entered (log : Nat → List Trade) (place : Nat) (d : Option Trade) (a : Nat) : List Trade :=
  if a = place then log a ++ d.toList else log a

/-- A run with the trades of each of its copies, the first ones first. -/
structure Ledger where
  run : Run
  log : Nat → List Trade := fun _ => []

namespace Ledger

def trade? (t : Ledger) (place : Nat) : Option Trade :=
  t.run.net.copies[place]?.bind fun c => c.trade? t.run.net.shared

def happen (t : Ledger) (e : Run.Event) : Ledger where
  run := t.run.happen e
  log := match e with
    | .copy place => entered t.log place (t.trade? place)
    | _ => t.log

def after (t : Ledger) (events : List Run.Event) : Ledger := events.foldl happen t

@[simp] theorem after_nil (t : Ledger) : t.after [] = t := rfl

@[simp] theorem after_cons (t : Ledger) (e : Run.Event) (events : List Run.Event) :
    t.after (e :: events) = (t.happen e).after events := rfl

@[simp] theorem run_after (t : Ledger) (events : List Run.Event) :
    (t.after events).run = t.run.after events := by
  induction events generalizing t with
  | nil => rfl
  | cons e rest ih => exact ih (t.happen e)

end Ledger

def Run.ledger (r : Run) (events : List Run.Event) : Ledger := ({ run := r } : Ledger).after events

/-- The copy without the place where its search for rows stands, which nothing but the
search depends on. -/
def Local.still (l : Local) : Local := { l with cursor := 0 }

/-- A copy on its own: the rows it has not read, and what it has had to do with row sets. -/
structure Solo where
  own : Local
  rows : List Row := []
  log : List Trade := []
deriving DecidableEq

def Action.raises : Action → Bool
  | raiseFlag => true
  | _ => false

namespace Solo

def takes (x : Solo) (row : Row) (rest : List Row) : Solo where
  own := (x.own.taken row).still
  rows := rest
  log := x.log ++ [.took row]

def dries (x : Solo) : Solo := { x with own := { x.own with pending := [] } }

def trades (x : Solo) (d : Trade) : Solo := { x with log := x.log ++ [d] }

def acts (x : Solo) (a : Action) : Solo :=
  { x with own := (a.perform x.own {}).2.1, log := x.log ++ a.trade?.toList }

end Solo

namespace Program

variable {α : Type}

/-- Runs a program on its own.  It has no result if it stops the run or waits for its
work to be cancelled.  `names` are the names of the row sets. -/
def alone (names : Nat → String) : Program α → Solo → Option (α × Solo)
  | done a, x => some (a, x)
  | act a next, x =>
    if a.raises then none
    else match (a.perform x.own {}).1 with
      | some answer => (next answer).alone names (x.acts a)
      | none => none
  | receive _ next, x =>
    if x.own.pending = [] then (next none).alone names x
    else match x.rows with
      | [] => (next none).alone names x.dries
      | row :: rest => (next (some row)).alone names (x.takes row rest)
  | deliver i row _ next, x =>
    if .ended i ∈ x.log then
      (next (.error (.rowSetClosed (names i)))).alone names
        (x.trades (.refused i row (.rowSetClosed (names i))))
    else (next (.ok .accepted)).alone names (x.trades (.put i row))

end Program

section Alone

variable (names : Nat → String) {op : Operator}

/-- What follows a round: more rounds, so many at most, or the end. -/
def Operator.turned (op : Operator) : Nat → (op.State × Turn) × Solo → Option Solo
  | _, ((m, .leave o), x) => ((Program.leave op m o).alone names x).map (·.2)
  | 0, ((_, .again), _) => none
  | rounds + 1, ((m, .again), x) => ((Program.round op m).alone names x).bind (turned op rounds)

def Operator.ready (op : Operator) (rounds : Nat) (m : op.State) (x : Solo) : Option Solo :=
  op.turned names rounds ((m, .again), x.acts (.publish .running))

def Operator.begun (op : Operator) (rounds : Nat) :
    (op.State × Except Fault Unit) × Solo → Option Solo
  | ((m, .ok ()), x) => op.ready names rounds m x
  | ((_, .error _), _) => none

/-- What is left of a task, on its own, with so many more rounds at most.  A copy that
could not start has nothing to do. -/
def Task.alone (rounds : Nat) : Task op → Solo → Option Solo
  | .created, x => ((Program.begin op op.start).alone names x).bind (op.begun names rounds)
  | .beginning p, x => (p.alone names x).bind (op.begun names rounds)
  | .ready m, x => op.ready names rounds m x
  | .refused _ _, _ => none
  | .working p, x => (p.alone names x).bind (op.turned names rounds)
  | .leaving p, x => (p.alone names x).map (·.2)
  | .gone, x => some x

def Copy.alone (rounds : Nat) (c : Copy) (x : Solo) : Option Solo := c.task.alone names rounds x

/-- The copies on their own, one after the other; `before` is what those before them have
had to do with row sets. -/
def evaluate (rounds : Nat) : List Copy → List Trade → Option (List Solo)
  | [], _ => some []
  | c :: rest, before =>
    match c.alone names rounds { own := c.own.still, rows := rowsPut c.own.inputs before } with
    | none => none
    | some x => (evaluate rounds rest (before ++ x.log)).map (x :: ·)

end Alone

/-- What a copy has read, what it has put on each of its row sets, and how it has ended. -/
structure Share where
  read : List Row
  put : List (List Row)
  counts : Counts
  outcome : Option Outcome
deriving DecidableEq

def shareOf (l : Local) (log : List Trade) : Share where
  read := rowsTaken log
  put := l.outlets.map fun i => rowsPut [i] log
  counts := l.counts
  outcome := l.outcome

def Solo.share (x : Solo) : Share := shareOf x.own x.log

def Ledger.shares (t : Ledger) : List Share :=
  t.run.net.copies.zipIdx.map fun (c, place) => shareOf c.own (t.log place)

end RowFlow
