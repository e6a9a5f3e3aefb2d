import RowFlow.Resource.Basic

/-
When to commit: after every so many rows, and once more at the end if all went
well.  With size zero only the end decides.  A row is counted before the commit it
may call for, so a commit that fails leaves the row counted.
-/
namespace RowFlow

structure CommitPolicy where
  size : Nat := 0
  rows : Nat := 0
  commits : Nat := 0
deriving DecidableEq, Repr

namespace CommitPolicy

inductive Finish where
  | committed
  | rolledBack
  | nothing
deriving DecidableEq, Repr

/-- The policy and the resource after an operation, what the resource saw of it, and
its answer. -/
structure After (r : Resource) (α : Type) where
  policy : CommitPolicy
  state : r.State
  events : List Resource.Event := []
  answer : Except Fault α

def isDue (p : CommitPolicy) : Bool := p.size != 0 && p.rows % p.size == 0

def commit {α : Type} (p : CommitPolicy) (r : Resource) (s : r.State) (a : α) : After r α :=
  match r.commit s with
  | (s, .ok ()) =>
    { policy := { p with commits := p.commits + 1 }, state := s, events := [.commit], answer := .ok a }
  | (s, .error f) => { policy := p, state := s, events := [.commitFailed], answer := .error f }

/-- Counts a row; the answer is whether a commit was made. -/
def afterRow (p : CommitPolicy) (r : Resource) (s : r.State) : After r Bool :=
  let p := { p with rows := p.rows + 1 }
  if p.isDue && !r.autoCommit then p.commit r s true
  else { policy := p, state := s, answer := .ok false }

/-- The last decision: a clean end is committed, any other is rolled back. -/
def finish (p : CommitPolicy) (r : Resource) (s : r.State) (clean : Bool) : After r Finish :=
  if r.autoCommit then { policy := p, state := s, answer := .ok .nothing }
  else if clean then p.commit r s .committed
  else
    match r.rollback s with
    | (s, .ok ()) => { policy := p, state := s, events := [.rollback], answer := .ok .rolledBack }
    | (s, .error f) => { policy := p, state := s, events := [.rollbackFailed], answer := .error f }

/-- A policy at work on a resource, with what the resource saw so far. -/
structure Ledger (r : Resource) where
  policy : CommitPolicy
  state : r.State
  events : List Resource.Event := []

namespace Ledger

variable {r : Resource}

def enter {α : Type} (l : Ledger r) (x : After r α) : Except Fault α × Ledger r :=
  (x.answer, { policy := x.policy, state := x.state, events := l.events ++ x.events })

def afterRow (l : Ledger r) : Except Fault Bool × Ledger r :=
  l.enter (l.policy.afterRow r l.state)

def finish (l : Ledger r) (clean : Bool) : Except Fault Finish × Ledger r :=
  l.enter (l.policy.finish r l.state clean)

end Ledger
end CommitPolicy
end RowFlow
