import RowFlow.Resource.Basic

/-
A resource with canned answers: each statement is answered by the first response
whose beginning it has, and chosen commits fail.  It stands in for a database where
one wants to know beforehand what the database will say.
-/
namespace RowFlow

structure Canned where
  autoCommit : Bool := false
  /-- Beginnings of statements with their answers. -/
  responses : List (String × Resource.Reply) := []
  /-- The numbers, from one, of the commits that fail. -/
  failingCommits : List Nat := []
  rollbackFails : Bool := false
  cancellable : Bool := true
  cancelFails : Bool := false

namespace Canned

def reply (c : Canned) (statement : String) : Resource.Reply :=
  match c.responses.find? fun (start, _) => start.toList.isPrefixOf statement.toList with
  | some (_, r) => r
  | none => .done {}

/-- The state is the number of commits asked for. -/
def resource (c : Canned) : Resource where
  State := Nat
  start := 0
  autoCommit := c.autoCommit
  execute s statement := (s, c.reply statement)
  commit s :=
    (s + 1, if c.failingCommits.contains (s + 1) then .error (.resource "commit" "connection lost")
      else .ok ())
  rollback s :=
    (s, if c.rollbackFails then .error (.resource "rollback" "connection lost") else .ok ())
  canceller :=
    if c.cancellable then
      some (if c.cancelFails then .error (.cancelled "cancel refused") else .ok ())
    else none

end Canned
end RowFlow
