import RowFlow.Json.Basic

/-
Writing JSON, in one line or with each item on a line of its own.
-/
namespace RowFlow
namespace Json

def hexDigit (n : Nat) : Char := Nat.digitChar (n % 16)

/-- Quotes, backslashes and control characters are escaped, all else stands as it
is. -/
def escape (c : Char) : List Char :=
  if c = '"' then ['\\', '"']
  else if c = '\\' then ['\\', '\\']
  else if c = '\x08' then ['\\', 'b']
  else if c = '\x0c' then ['\\', 'f']
  else if c = '\n' then ['\\', 'n']
  else if c = '\r' then ['\\', 'r']
  else if c = '\t' then ['\\', 't']
  else if c.toNat < 0x20 then ['\\', 'u', '0', '0', hexDigit (c.toNat / 16), hexDigit c.toNat]
  else [c]

def quoted (s : String) : String :=
  String.ofList ('"' :: s.toList.flatMap escape ++ ['"'])

/-- The layout of brackets: what opens the line of an item at a depth. -/
structure Layout where
  newline : Nat → String
  afterColon : String

namespace Layout

def compact : Layout := ⟨fun _ => "", ""⟩

def pretty : Layout := ⟨fun depth => String.ofList ('\n' :: List.replicate (2 * depth) ' '), " "⟩

end Layout

mutual

def print (l : Layout) (depth : Nat) : Json → String
  | null => "null"
  | bool b => if b then "true" else "false"
  | integer n => toString n
  | string s => quoted s
  | array [] => "[]"
  | array (v :: vs) =>
    "[" ++ l.newline (depth + 1) ++ print l (depth + 1) v ++ printItems l (depth + 1) vs ++
      l.newline depth ++ "]"
  | object [] => "\x7b\x7d"
  | object ((k, v) :: ms) =>
    "\x7b" ++ l.newline (depth + 1) ++ quoted k ++ ":" ++ l.afterColon ++
      print l (depth + 1) v ++ printMembers l (depth + 1) ms ++ l.newline depth ++ "\x7d"
  | other => "null"

def printItems (l : Layout) (depth : Nat) : List Json → String
  | [] => ""
  | v :: vs => "," ++ l.newline depth ++ print l depth v ++ printItems l depth vs

def printMembers (l : Layout) (depth : Nat) : List (String × Json) → String
  | [] => ""
  | (k, v) :: ms =>
    "," ++ l.newline depth ++ quoted k ++ ":" ++ l.afterColon ++ print l depth v ++
      printMembers l depth ms

end

def compact (v : Json) : String := v.print .compact 0

def pretty (v : Json) : String := v.print .pretty 0

end Json
end RowFlow
