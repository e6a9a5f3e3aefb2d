/-
JSON values.  Definitions hold texts, truth values and whole numbers, so those are
what a value can be.  A value that is well formed and yet can be none of them, a
fraction for instance or a text with half a surrogate pair, is `other`: nothing
can be read from it, and it matters only that it may be skipped.
-/
namespace RowFlow

inductive Json where
  | null
  | bool (b : Bool)
  | integer (n : Int)
  | string (s : String)
  | array (items : List Json)
  | object (members : List (String × Json))
  | other
deriving Repr, Inhabited

namespace Json

def nat (n : Nat) : Json := integer n

def nullable {α : Type} (f : α → Json) : Option α → Json
  | none => null
  | some a => f a

end Json
end RowFlow
