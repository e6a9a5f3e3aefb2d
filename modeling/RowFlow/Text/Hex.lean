/-
Hexadecimal digits, in small letters: words of a fixed number of digits, and bytes of
two digits each.
-/
namespace RowFlow
namespace Text
namespace Hex

def digit (n : Nat) : Char := Nat.digitChar (n % 16)

def value (c : Char) : Nat :=
  if c.isDigit then c.toNat - '0'.toNat else c.toNat - 'a'.toNat + 10

def digits : Nat → Nat → List Char
  | 0, _ => []
  | count + 1, n => digits count (n / 16) ++ [digit n]

def number (cs : List Char) : Nat := cs.foldl (fun n c => n * 16 + value c) 0

def ofBytes (bytes : List UInt8) : List Char := bytes.flatMap fun b => digits 2 b.toNat

/-- The bytes of pairs of digits; a single digit at the end is dropped. -/
def bytes : List Char → List UInt8
  | a :: b :: rest => (number [a, b]).toUInt8 :: bytes rest
  | _ => []

@[simp] theorem length_digits (count n : Nat) : (digits count n).length = count := by
  induction count generalizing n with
  | zero => rfl
  | succ count ih => simp [digits, ih]

end Hex
end Text
end RowFlow
