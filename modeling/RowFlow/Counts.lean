/-
The nine counters of a step copy, and their sums.
-/
namespace RowFlow

inductive Counter where
  | read
  | written
  | input
  | output
  | updated
  | inserted
  | deleted
  | rejected
  | errors
deriving DecidableEq, Repr

def Counter.all : List Counter :=
  [.read, .written, .input, .output, .updated, .inserted, .deleted, .rejected, .errors]

structure Counts where
  /-- Rows taken from inputs. -/
  read : Nat := 0
  /-- Rows sent to outputs; a row sent to several targets counts once. -/
  written : Nat := 0
  /-- Rows read from outside. -/
  input : Nat := 0
  /-- Rows written to the outside. -/
  output : Nat := 0
  updated : Nat := 0
  inserted : Nat := 0
  deleted : Nat := 0
  /-- Rows sent to the error output. -/
  rejected : Nat := 0
  errors : Nat := 0
deriving DecidableEq, Repr

namespace Counts

def get (c : Counts) : Counter → Nat
  | .read => c.read
  | .written => c.written
  | .input => c.input
  | .output => c.output
  | .updated => c.updated
  | .inserted => c.inserted
  | .deleted => c.deleted
  | .rejected => c.rejected
  | .errors => c.errors

def add (c : Counts) (n : Nat) : Counter → Counts
  | .read => { c with read := c.read + n }
  | .written => { c with written := c.written + n }
  | .input => { c with input := c.input + n }
  | .output => { c with output := c.output + n }
  | .updated => { c with updated := c.updated + n }
  | .inserted => { c with inserted := c.inserted + n }
  | .deleted => { c with deleted := c.deleted + n }
  | .rejected => { c with rejected := c.rejected + n }
  | .errors => { c with errors := c.errors + n }

def plus (c d : Counts) : Counts where
  read := c.read + d.read
  written := c.written + d.written
  input := c.input + d.input
  output := c.output + d.output
  updated := c.updated + d.updated
  inserted := c.inserted + d.inserted
  deleted := c.deleted + d.deleted
  rejected := c.rejected + d.rejected
  errors := c.errors + d.errors

def sum (cs : List Counts) : Counts := cs.foldl plus {}

def summary (c : Counts) : String :=
  s!"I={c.input}, O={c.output}, R={c.read}, W={c.written}, U={c.updated}, E={c.errors}"

@[simp] theorem get_add_self (c : Counts) (n : Nat) (k : Counter) :
    (c.add n k).get k = c.get k + n := by cases k <;> rfl

theorem get_add_of_ne (c : Counts) (n : Nat) {k l : Counter} (h : l ≠ k) :
    (c.add n k).get l = c.get l := by
  cases k <;> cases l <;> first | rfl | exact absurd rfl h

@[simp] theorem get_plus (c d : Counts) (k : Counter) :
    (c.plus d).get k = c.get k + d.get k := by cases k <;> rfl

end Counts
end RowFlow
