/-
The tokens of JSON.  Between tokens there may be spaces, tabs and line ends.  The
characters of a number are taken in one run and judged together.  A text whose
escapes name no character is still a token, `text none`.
-/
namespace RowFlow
namespace Json

inductive Token where
  | openArray
  | closeArray
  | openObject
  | closeObject
  | comma
  | colon
  | null
  | bool (b : Bool)
  | integer (n : Int)
  /-- A number with a fraction, an exponent, or a sign before zero. -/
  | otherNumber
  | text (s : Option String)
deriving DecidableEq, Repr

namespace Token

def isSpace (c : Char) : Bool := c == ' ' || c == '\t' || c == '\n' || c == '\r'

/-! ## Numbers -/

def isNumberChar (c : Char) : Bool :=
  c.isDigit || c == '-' || c == '+' || c == '.' || c == 'e' || c == 'E'

def natOf (digits : List Char) : Nat :=
  digits.foldl (fun n c => 10 * n + (c.toNat - '0'.toNat)) 0

def allDigits (cs : List Char) : Bool := !cs.isEmpty && cs.all Char.isDigit

/-- The digits of a whole number: no zero leads another digit. -/
def isWhole (cs : List Char) : Bool := allDigits cs && (cs.length == 1 || cs.head? != some '0')

/-- An exponent after its letter: digits with an optional sign. -/
def isExponent : List Char → Bool
  | '+' :: rest => allDigits rest
  | '-' :: rest => allDigits rest
  | cs => allDigits cs

/-- What follows the whole part: a fraction, an exponent, both or neither. -/
def isTail : List Char → Bool
  | [] => true
  | '.' :: rest =>
    allDigits (rest.takeWhile Char.isDigit) &&
      match rest.dropWhile Char.isDigit with
      | [] => true
      | c :: exponent => (c == 'e' || c == 'E') && isExponent exponent
  | c :: exponent => (c == 'e' || c == 'E') && isExponent exponent

def unsigned? (negative : Bool) (cs : List Char) : Option Token :=
  let whole := cs.takeWhile Char.isDigit
  let tail := cs.dropWhile Char.isDigit
  if isWhole whole && isTail tail then
    if tail.isEmpty && !(negative && natOf whole == 0) then
      some (.integer (if negative then -(natOf whole : Int) else natOf whole))
    else some .otherNumber
  else none

def number? : List Char → Option Token
  | '-' :: rest => unsigned? true rest
  | cs => unsigned? false cs

/-! ## Texts -/

def hexDigit? (c : Char) : Option Nat :=
  if c.isDigit then some (c.toNat - '0'.toNat)
  else if 'a' ≤ c ∧ c ≤ 'f' then some (c.toNat - 'a'.toNat + 10)
  else if 'A' ≤ c ∧ c ≤ 'F' then some (c.toNat - 'A'.toNat + 10)
  else none

def hexUnit? (a b c d : Char) : Option Nat := do
  return (← hexDigit? a) * 4096 + (← hexDigit? b) * 256 + (← hexDigit? c) * 16 + (← hexDigit? d)

/-- The character after a backslash, other than a `u`. -/
def escaped? : Char → Option Char
  | '"' => some '"'
  | '\\' => some '\\'
  | '/' => some '/'
  | 'b' => some '\x08'
  | 'f' => some '\x0c'
  | 'n' => some '\n'
  | 'r' => some '\r'
  | 't' => some '\t'
  | _ => none

def isHighUnit (u : Nat) : Bool := 0xD800 ≤ u && u < 0xDC00

def isLowUnit (u : Nat) : Bool := 0xDC00 ≤ u && u < 0xE000

def joinUnits (high low : Nat) : Char :=
  Char.ofNat (0x10000 + (high - 0xD800) * 0x400 + (low - 0xDC00))

/-- The rest of a text up to its closing quote, and what follows.  `before` is the
text so far in reverse; `high` is the first unit of a pair whose second has to
come next; once `good` is lost the text names no characters. -/
def scanText (good : Bool) (high : Option Nat) (before : List Char) :
    List Char → Option (Option String × List Char)
  | [] => none
  | '"' :: rest =>
    some (if good && high.isNone then some (String.ofList before.reverse) else none, rest)
  | '\\' :: 'u' :: a :: b :: c :: d :: rest =>
    match hexUnit? a b c d with
    | none => none
    | some u =>
      match high with
      | some h =>
        if isLowUnit u then scanText good none (joinUnits h u :: before) rest
        else scanText false none before rest
      | none =>
        if isHighUnit u then scanText good (some u) before rest
        else if isLowUnit u then scanText false none before rest
        else scanText good none (Char.ofNat u :: before) rest
  | '\\' :: e :: rest =>
    match escaped? e with
    | none => none
    | some c => scanText (good && high.isNone) none (c :: before) rest
  | c :: rest =>
    if c.toNat < 0x20 || c == '\\' then none
    else scanText (good && high.isNone) none (c :: before) rest

theorem length_of_scanText {good : Bool} {high : Option Nat} {before cs rest : List Char}
    {t : Option String} (h : scanText good high before cs = some (t, rest)) :
    rest.length < cs.length := by
  fun_induction scanText good high before cs <;> simp_all <;> omega

/-! ## The token list -/

def lex : List Char → Option (List Token)
  | [] => some []
  | '[' :: rest => (lex rest).map (openArray :: ·)
  | ']' :: rest => (lex rest).map (closeArray :: ·)
  | '{' :: rest => (lex rest).map (openObject :: ·)
  | '}' :: rest => (lex rest).map (closeObject :: ·)
  | ',' :: rest => (lex rest).map (comma :: ·)
  | ':' :: rest => (lex rest).map (colon :: ·)
  | 'n' :: 'u' :: 'l' :: 'l' :: rest => (lex rest).map (null :: ·)
  | 't' :: 'r' :: 'u' :: 'e' :: rest => (lex rest).map (bool true :: ·)
  | 'f' :: 'a' :: 'l' :: 's' :: 'e' :: rest => (lex rest).map (bool false :: ·)
  | '"' :: rest =>
    match h : scanText true none [] rest with
    | none => none
    | some (t, rest') =>
      have := length_of_scanText h
      (lex rest').map (text t :: ·)
  | c :: rest =>
    if isSpace c then lex rest
    else
      match number? (c :: rest.takeWhile isNumberChar) with
      | none => none
      | some t =>
        have := (List.dropWhile_sublist isNumberChar (l := rest)).length_le
        (lex (rest.dropWhile isNumberChar)).map (t :: ·)
termination_by cs => cs.length
decreasing_by all_goals simp only [List.length_cons]; omega

end Token
end Json
end RowFlow
