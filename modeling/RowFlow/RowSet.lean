import RowFlow.Row.Build

/-
Row sets: bounded queues of rows between one producer and one consumer.  Each
operation here is indivisible.  Waiting for space or for a row is no part of it:
an offer to a full row set hands the row back and a poll of an empty one answers
that nothing is there yet, and whoever wants to wait tries again.

A row set takes storage for all its rows when it is made (`create`); with more rows
than there are addresses this crashes.  Storage that is smaller than that is there.

The producer ends the stream with `close`; what is in the buffer can still be
read.  The consumer leaves with `detach`; rows offered later are discarded.  The
first row accepted fixes the layout that all others must be compatible with.
-/
namespace RowFlow

/-- One piece of storage has at most so many bytes. -/
def storageLimit : Nat := 0x7fffffffffffffff

inductive Offer where
  | accepted
  | discarded
  | full (row : Row)
deriving DecidableEq, Repr

/-- What a consumer finds: a row, nothing yet, or the end of the stream. -/
inductive Poll where
  | row (row : Row)
  | pending
  | done
deriving DecidableEq, Repr

structure RowSet where
  name : String
  capacity : Nat
  buffer : List Row := []
  closed : Bool := false
  detached : Bool := false
  layout : Option Schema := none
deriving DecidableEq, Repr

namespace RowSet

/-- A row set has room for one row at least. -/
def new (name : String) (capacity : Nat) : RowSet := { name, capacity := max capacity 1 }

/-- The bytes of a row in the buffer: the address of its schema and its list of values. -/
def rowBytes : Nat := 32

def isStorable (capacity : Nat) : Bool := max capacity 1 * rowBytes ≤ storageLimit

def create (name : String) (capacity : Nat) : Ending RowSet :=
  if isStorable capacity then .returned (.ok (new name capacity)) else .overflow

def isFull (s : RowSet) : Bool := s.capacity ≤ s.buffer.length

def isDone (s : RowSet) : Bool := s.closed && s.buffer.isEmpty

def refusal? (s : RowSet) (schema : Schema) : Option Schema.Difference :=
  s.layout.bind fun fixed => fixed.difference? schema

/-- The end of the stream is checked first, then the consumer, then the space, and
the layout last. -/
def offer (s : RowSet) (row : Row) : RowSet × Except Fault Offer :=
  if s.closed then (s, .error (.rowSetClosed s.name))
  else if s.detached then (s, .ok .discarded)
  else if s.isFull then (s, .ok (.full row))
  else
    match s.refusal? row.schema with
    | some difference => (s, .error (.incompatible s.name difference.text))
    | none =>
      ({ s with buffer := s.buffer ++ [row], layout := s.layout.or (some row.schema) },
        .ok .accepted)

def blocksOffer (s : RowSet) : Bool := !s.closed && !s.detached && s.isFull

/-- Rows come before the end of the stream. -/
def poll (s : RowSet) : RowSet × Poll :=
  match s.buffer with
  | row :: rest => ({ s with buffer := rest }, .row row)
  | [] => (s, if s.closed then .done else .pending)

def blocksPoll (s : RowSet) : Bool := !s.closed && s.buffer.isEmpty

/-- The end of the stream is posted once. -/
def close (s : RowSet) : RowSet × Except Fault Unit :=
  if s.closed then (s, .error (.rowSetClosed s.name)) else ({ s with closed := true }, .ok ())

def detach (s : RowSet) : RowSet := { s with detached := true, buffer := [] }

/-- Puts a row; there is no answer yet while there is no space. -/
def put (s : RowSet) (row : Row) : RowSet × Option (Except Fault Unit) :=
  match s.offer row with
  | (s, .ok (.full _)) => (s, none)
  | (s, .ok _) => (s, some (.ok ()))
  | (s, .error f) => (s, some (.error f))

/-- Gets the next row, or none at the end; there is no answer yet while there is
neither. -/
def get (s : RowSet) : RowSet × Option (Option Row) :=
  match s.poll with
  | (s, .row row) => (s, some (some row))
  | (s, .done) => (s, some none)
  | (s, .pending) => (s, none)

def fill (s : RowSet) : List Row → Except Fault RowSet
  | [] => .ok s
  | row :: rest =>
    match s.offer row with
    | (s, .ok _) => s.fill rest
    | (_, .error f) => .error f

@[simp] theorem offer_of_closed {s : RowSet} (h : s.closed = true) (row : Row) :
    s.offer row = (s, .error (.rowSetClosed s.name)) := by
  simp [offer, h]

@[simp] theorem poll_nil {s : RowSet} (h : s.buffer = []) :
    s.poll = (s, if s.closed then .done else .pending) := by
  simp [poll, h]

@[simp] theorem buffer_detach (s : RowSet) : s.detach.buffer = [] := rfl

end RowSet
end RowFlow
