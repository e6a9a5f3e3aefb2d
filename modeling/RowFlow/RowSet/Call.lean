import RowFlow.RowSet

/-
What can be asked of a row set, as data.  A call that finds no space or no row waits:
`put` and `get` until there is one, `offer` and `poll` for so many milliseconds.  Time
itself is no part of this.  `ask` replies as to a caller that has waited enough, and
`waits` says whether a caller would still be waiting by then.
-/
namespace RowFlow
namespace RowSet

inductive Call where
  | offer (row : Row) (time : Nat)
  | put (row : Row)
  | poll (time : Nat)
  | get
  | close
  | detach
  | layout
  /-- Nothing is asked, for the row to be sent could not be made. -/
  | refuse (f : Fault)
deriving DecidableEq, Repr

inductive Reply where
  | offered (r : Except Fault Offer)
  | polled (p : Poll)
  | got (row : Option Row)
  | finished (r : Except Fault Unit)
  | layout (schema : Option Schema)
  | waiting

/-- A call can only wait now, and does so for longer than this. -/
def waits (s : RowSet) (c : Call) (time : Nat) : Bool :=
  match c with
  | .offer _ limit => s.blocksOffer && time < limit
  | .put _ => s.blocksOffer
  | .poll limit => s.blocksPoll && time < limit
  | .get => s.blocksPoll
  | _ => false

def ask (s : RowSet) : Call → RowSet × Reply
  | .offer row _ => ((s.offer row).1, .offered (s.offer row).2)
  | .put row =>
    match s.put row with
    | (s, some r) => (s, .finished r)
    | (s, none) => (s, .waiting)
  | .poll _ => (s.poll.1, .polled s.poll.2)
  | .get =>
    match s.get with
    | (s, some row) => (s, .got row)
    | (s, none) => (s, .waiting)
  | .close => (s.close.1, .finished s.close.2)
  | .detach => (s.detach, .finished (.ok ()))
  | .layout => (s, .layout s.layout)
  | .refuse f => (s, .finished (.error f))

end RowSet
end RowFlow
