import RowFlow.Fault

/-
Transactional resources: statements are executed on them, and what was executed is
made durable by a commit or undone by a rollback.  A resource is given by its
states and its answers; an answer may be held back until the work is cancelled.
-/
namespace RowFlow

/-- What a statement did, in rows. -/
structure StatementCounts where
  read : Nat := 0
  inserted : Nat := 0
  updated : Nat := 0
  deleted : Nat := 0
deriving DecidableEq, Repr

namespace Resource

inductive Reply where
  | done (counts : StatementCounts)
  | fault (f : Fault)
  /-- No answer until the work is cancelled, and the fault then. -/
  | held (f : Fault)
deriving DecidableEq, Repr

inductive Event where
  | execute (statement : String)
  | commit
  | commitFailed
  | rollback
  | rollbackFailed
deriving DecidableEq, Repr

end Resource

structure Resource where
  State : Type
  start : State
  /-- Every statement is durable at once, and commits are not asked for. -/
  autoCommit : Bool
  execute : State → String → State × Resource.Reply
  commit : State → State × Except Fault Unit
  rollback : State → State × Except Fault Unit
  /-- The answer to a request to cancel, if the resource takes such requests. -/
  canceller : Option (Except Fault Unit)

end RowFlow
