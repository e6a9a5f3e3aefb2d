import RowFlow.Json.Basic
import RowFlow.Json.Token

/-
Reading JSON: one pass over the tokens with a stack of the brackets still open.
Each token either fits the state or ends the reading, so reading needs no measure
and no limit on nesting.
-/
namespace RowFlow
namespace Json

/-- An open bracket with what stands before the value that is being read, last
first. -/
inductive Frame where
  | array (before : List Json)
  | object (before : List (Option String × Json)) (key : Option String)

inductive Reading where
  /-- A value has to follow. -/
  | value (frames : List Frame)
  /-- A value or the closing bracket has to follow. -/
  | items (frames : List Frame)
  /-- A key or the closing brace has to follow. -/
  | members (frames : List Frame)
  /-- A key has to follow. -/
  | key (before : List (Option String × Json)) (frames : List Frame)
  /-- A colon has to follow. -/
  | colon (before : List (Option String × Json)) (key : Option String) (frames : List Frame)
  /-- A value is complete. -/
  | complete (v : Json) (frames : List Frame)

/-- An object with a key that names nothing can only be skipped. -/
def ofMembers (members : List (Option String × Json)) : Json :=
  match members.mapM fun (k, v) => k.map (·, v) with
  | some ms => object ms
  | none => other

namespace Reading

def readValue (frames : List Frame) : Token → Option Reading
  | .openArray => some (items frames)
  | .openObject => some (members frames)
  | .null => some (complete .null frames)
  | .bool b => some (complete (.bool b) frames)
  | .integer n => some (complete (.integer n) frames)
  | .otherNumber => some (complete .other frames)
  | .text (some s) => some (complete (.string s) frames)
  | .text none => some (complete .other frames)
  | _ => none

def step : Reading → Token → Option Reading
  | value frames, t => readValue frames t
  | items frames, .closeArray => some (complete (.array []) frames)
  | items frames, t => readValue (.array [] :: frames) t
  | members frames, .closeObject => some (complete (.object []) frames)
  | members frames, .text k => some (colon [] k frames)
  | key before frames, .text k => some (colon before k frames)
  | colon before k frames, .colon => some (value (.object before k :: frames))
  | complete v (.array before :: frames), .comma => some (value (.array (v :: before) :: frames))
  | complete v (.array before :: frames), .closeArray =>
    some (complete (.array (v :: before).reverse) frames)
  | complete v (.object before k :: frames), .comma => some (key ((k, v) :: before) frames)
  | complete v (.object before k :: frames), .closeObject =>
    some (complete (ofMembers ((k, v) :: before).reverse) frames)
  | _, _ => none

def result? : Reading → Option Json
  | complete v [] => some v
  | _ => none

end Reading

def ofTokens? (ts : List Token) : Option Json :=
  (ts.foldlM Reading.step (.value [])).bind Reading.result?

def parse? (text : String) : Option Json :=
  (Token.lex text.toList).bind ofTokens?

end Json
end RowFlow
