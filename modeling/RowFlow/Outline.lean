import RowFlow.Run.Basic
import RowFlow.Text.Quoted

/-
Outlines of row sets, registries and runs, in one line each, for messages to whoever
runs them.
-/
namespace RowFlow
namespace Outline

def record (name : String) (fields : List (String × String)) : String :=
  name ++ " \x7b " ++ ", ".intercalate (fields.map fun (k, v) => k ++ ": " ++ v) ++ " \x7d"

def truth (b : Bool) : String := if b then "true" else "false"

def texts (ss : List String) : String :=
  "[" ++ ", ".intercalate (ss.map Text.Quoted.encode) ++ "]"

def ofRowSet (s : RowSet) : String :=
  record "RowSet" [("name", Text.Quoted.encode s.name), ("capacity", toString s.capacity),
    ("len", toString s.buffer.length), ("closed", truth s.closed)]

def ofRegistry (r : Registry) : String := record "StepRegistry" [("plugins", texts r.keys)]

def ofRun (r : Run) : String :=
  record "Trans" [("name", Text.Quoted.encode r.name),
    ("steps", toString r.net.copies.length), ("rowsets", toString r.rowSets.length),
    ("phase", r.phase.text)]

end Outline
end RowFlow
