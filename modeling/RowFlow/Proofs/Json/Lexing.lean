import Mathlib.Data.List.TakeWhile
import RowFlow.Json.Printer
import RowFlow.Json.Token

/-
What is printed falls into the tokens that were meant.  A token is read off the front
of a text whatever follows it, with one exception: the characters of a number are taken
in one run, so a number is only read back when no further character of a number
follows.  After a value there is always a comma, a bracket, a blank or nothing.
-/
namespace RowFlow
namespace Json
namespace Token

/-! ## Numerals -/

theorem natOf_toDigits (n : Nat) : natOf (Nat.toDigits 10 n) = n := by
  have h := Nat.ofDigitChars_ten_toDigits (n := n)
  rwa [Nat.ofDigitChars_eq_foldl] at h

theorem isDigit_of_mem_toDigits {n : Nat} {c : Char} (h : c ∈ Nat.toDigits 10 n) :
    c.isDigit = true :=
  Nat.isDigit_of_mem_toDigits (by decide) (by decide) h

theorem allDigits_toDigits (n : Nat) : allDigits (Nat.toDigits 10 n) = true := by
  have hall : (Nat.toDigits 10 n).all Char.isDigit = true :=
    List.all_eq_true.mpr fun c hc => isDigit_of_mem_toDigits hc
  simp [allDigits, hall, Nat.toDigits_ne_nil]

/-- Nothing but zero starts with a zero. -/
theorem head?_toDigits_ne_zero {n : Nat} (h : 0 < n) :
    (Nat.toDigits 10 n).head? ≠ some '0' := by
  induction n using Nat.strongRecOn with
  | ind n ih =>
    by_cases hlt : n < 10
    · simp [Nat.toDigits_of_lt_base hlt]
      omega
    · rw [Nat.toDigits_of_base_le (by decide) (by omega), List.head?_append,
        List.head?_eq_some_head Nat.toDigits_ne_nil, Option.some_or,
        ← List.head?_eq_some_head Nat.toDigits_ne_nil]
      exact ih (n / 10) (by omega) (by omega)

theorem isWhole_toDigits (n : Nat) : isWhole (Nat.toDigits 10 n) = true := by
  rcases Nat.eq_zero_or_pos n with rfl | h
  · simp [isWhole, allDigits]
  · simp [isWhole, allDigits_toDigits, head?_toDigits_ne_zero h]

theorem unsigned?_toDigits {negative : Bool} {n : Nat} (h : negative = true → 0 < n) :
    unsigned? negative (Nat.toDigits 10 n) =
      some (.integer (if negative then -(n : Int) else n)) := by
  have hdigits : ∀ c ∈ Nat.toDigits 10 n, c.isDigit = true := fun _ => isDigit_of_mem_toDigits
  have htake := List.takeWhile_eq_self_iff.mpr hdigits
  have hdrop := List.dropWhile_eq_nil_iff.mpr hdigits
  have hsign : (negative && n == 0) = false := by
    cases negative with
    | false => rfl
    | true => simpa using Nat.ne_of_gt (h rfl)
  simp [unsigned?, htake, hdrop, isWhole_toDigits, natOf_toDigits, hsign, isTail]

/-- The digits of a number, after a sign if it is negative. -/
theorem toList_toString (n : Int) :
    (toString n).toList =
      if n < 0 then '-' :: Nat.toDigits 10 n.natAbs else Nat.toDigits 10 n.natAbs := by
  cases n with
  | ofNat n =>
    show (toString n).toList = _
    rw [Nat.toString_eq_ofList_toDigits, String.toList_ofList, if_neg (by simp)]
    rfl
  | negSucc n =>
    show ("-" ++ Nat.repr (n + 1)).toList = _
    rw [String.toList_append, Nat.toList_repr, if_pos (Int.negSucc_lt_zero n)]
    rfl

theorem number?_toString (n : Int) : number? (toString n).toList = some (.integer n) := by
  rw [toList_toString]
  split
  · next h =>
    have habs : -(n.natAbs : Int) = n := by omega
    show unsigned? true _ = _
    rw [unsigned?_toDigits (by omega), if_pos rfl, habs]
  · next h =>
    have hd : (Nat.toDigits 10 n.natAbs).head? ≠ some '-' := by
      intro hh
      exact absurd (isDigit_of_mem_toDigits (List.mem_of_head? hh)) (by decide)
    have hn : number? (Nat.toDigits 10 n.natAbs) = unsigned? false (Nat.toDigits 10 n.natAbs) := by
      unfold number?
      split
      · next hc => rw [hc] at hd; simp at hd
      · rfl
    have habs : (n.natAbs : Int) = n := by omega
    rw [hn, unsigned?_toDigits (by simp), if_neg (by simp), habs]

theorem isNumberChar_of_mem_toString {n : Int} {c : Char} (h : c ∈ (toString n).toList) :
    isNumberChar c = true := by
  rw [toList_toString] at h
  have hdigit : c ∈ Nat.toDigits 10 n.natAbs → isNumberChar c = true := fun hc => by
    simp [isNumberChar, isDigit_of_mem_toDigits hc]
  split at h
  · rcases List.mem_cons.mp h with rfl | h
    · decide
    · exact hdigit h
  · exact hdigit h

def EndsNumber (rest : List Char) : Prop := ∀ c ∈ rest.head?, isNumberChar c = false

/-- A character that may stand in a number starts one: no other token and no blank does. -/
theorem lex_number {c : Char} {rest : List Char} (h : isNumberChar c = true) :
    lex (c :: rest) = (number? (c :: rest.takeWhile isNumberChar)).bind fun t =>
      (lex (rest.dropWhile isNumberChar)).map (t :: ·) := by
  have hspace : isSpace c = false := by
    refine Bool.eq_false_iff.mpr fun hs => ?_
    simp only [isSpace, Bool.or_eq_true, beq_iff_eq, or_assoc] at hs
    rcases hs with rfl | rfl | rfl | rfl <;> exact absurd h (by decide)
  rw [lex.eq_def]
  split
  all_goals first
    | contradiction
    | next heq => injection heq with hc; subst hc; exact absurd h (by decide)
    | skip
  next c' rest' _ _ _ _ _ _ _ _ _ _ heq =>
    injection heq with hc hr
    subst hc hr
    rw [hspace]
    cases number? (c :: rest.takeWhile isNumberChar) <;> rfl

theorem lex_toString {n : Int} {rest : List Char} (h : EndsNumber rest) :
    lex ((toString n).toList ++ rest) = (lex rest).map (.integer n :: ·) := by
  have hall : ∀ c ∈ (toString n).toList, isNumberChar c = true :=
    fun c => isNumberChar_of_mem_toString
  have hnum := number?_toString n
  match hcs : (toString n).toList with
  | [] =>
    rw [hcs] at hnum
    exact absurd hnum nofun
  | c :: ds =>
    rw [hcs] at hnum hall
    obtain ⟨hc, hds⟩ := List.forall_mem_cons.mp hall
    have htake : rest.takeWhile isNumberChar = [] := by
      cases rest with
      | nil => rfl
      | cons d rest => exact List.takeWhile_cons_of_neg (by simp [h d rfl])
    have hdrop : rest.dropWhile isNumberChar = rest := by
      cases rest with
      | nil => rfl
      | cons d rest => exact List.dropWhile_cons_of_neg (by simp [h d rfl])
    rw [List.cons_append, lex_number hc, List.takeWhile_append_of_pos hds,
      List.dropWhile_append_of_pos hds, htake, hdrop, List.append_nil, hnum, Option.bind_some]

/-! ## Texts -/

theorem hexUnit?_hexDigit : ∀ n < 32,
    hexUnit? '0' '0' (hexDigit (n / 16)) (hexDigit n) = some n := by
  decide

/-- Reading one character as it was written adds it to the text so far. -/
theorem scanText_escape (c : Char) (before rest : List Char) :
    scanText true none before (escape c ++ rest) = scanText true none (c :: before) rest := by
  unfold escape
  -- The characters that have an escape of their own come first.
  iterate 7
    split
    · next h => subst h; rfl
  split
  · next h =>
    have hu := hexUnit?_hexDigit c.toNat h
    have hhigh : isHighUnit c.toNat = false := by simp [isHighUnit]; omega
    have hlow : isLowUnit c.toNat = false := by simp [isLowUnit]; omega
    show scanText true none before
      ('\\' :: 'u' :: '0' :: '0' :: hexDigit (c.toNat / 16) :: hexDigit c.toNat :: rest) = _
    rw [scanText, hu]
    simp [hhigh, hlow, Char.ofNat_toNat]
  · next hq hb _ _ _ _ _ hc =>
    show scanText true none before (c :: rest) = _
    rw [scanText]
    · simp [hc, hb]
    · exact hq
    · exact fun _ _ _ _ _ h _ => hb h
    · exact fun _ _ h _ => hb h

theorem scanText_escapes (cs before rest : List Char) :
    scanText true none before (cs.flatMap escape ++ '"' :: rest) =
      some (some (String.ofList (before.reverse ++ cs)), rest) := by
  induction cs generalizing before with
  | nil => simp [scanText]
  | cons c cs ih => simp [scanText_escape, ih]

theorem lex_quote {cs rest : List Char} {t : Option String}
    (h : scanText true none [] cs = some (t, rest)) :
    lex ('"' :: cs) = (lex rest).map (.text t :: ·) := by
  rw [lex]
  split
  · next hn => rw [h] at hn; contradiction
  · next hs =>
    rw [h] at hs
    obtain ⟨rfl, rfl⟩ := hs
    rfl

theorem lex_quoted (s : String) (rest : List Char) :
    lex ((quoted s).toList ++ rest) = (lex rest).map (.text (some s) :: ·) := by
  have hs : (quoted s).toList ++ rest = '"' :: (s.toList.flatMap escape ++ '"' :: rest) := by
    simp [quoted]
  rw [hs, lex_quote (scanText_escapes s.toList [] rest)]
  simp

/-! ## Blanks and brackets -/

theorem lex_blank {c : Char} {rest : List Char} (h : isSpace c = true) :
    lex (c :: rest) = lex rest := by
  have hc : c = ' ' ∨ c = '\t' ∨ c = '\n' ∨ c = '\r' := by
    simpa [isSpace, or_assoc] using h
  rcases hc with rfl | rfl | rfl | rfl <;> rw [lex] <;> simp [isSpace]

theorem lex_blanks {bs rest : List Char} (h : bs.all isSpace = true) :
    lex (bs ++ rest) = lex rest := by
  induction bs with
  | nil => rfl
  | cons b bs ih =>
    simp only [List.all_cons, Bool.and_eq_true] at h
    rw [List.cons_append, lex_blank h.1, ih h.2]

theorem endsNumber_cons {c : Char} {rest : List Char} (h : isNumberChar c = false) :
    EndsNumber (c :: rest) := by
  intro d hd
  obtain rfl : c = d := by simpa using hd
  exact h

theorem endsNumber_blanks {bs rest : List Char} (hb : bs.all isSpace = true)
    (h : EndsNumber rest) : EndsNumber (bs ++ rest) := by
  cases bs with
  | nil => exact h
  | cons b bs =>
    have hs : isSpace b = true := (List.all_eq_true.mp hb) b List.mem_cons_self
    have hc : b = ' ' ∨ b = '\t' ∨ b = '\n' ∨ b = '\r' := by
      simpa [isSpace, or_assoc] using hs
    refine endsNumber_cons ?_
    rcases hc with rfl | rfl | rfl | rfl <;> decide

end Token

/-! ## Printed values -/

/-- The layout puts nothing but blanks between tokens. -/
structure Layout.Blank (l : Layout) : Prop where
  newline : ∀ depth, (l.newline depth).toList.all Token.isSpace = true
  afterColon : l.afterColon.toList.all Token.isSpace = true

theorem Layout.blank_compact : Layout.compact.Blank := ⟨fun _ => rfl, rfl⟩

theorem Layout.blank_pretty : Layout.pretty.Blank := by
  constructor
  · intro depth
    simp [Layout.pretty, Token.isSpace]
  · rfl

mutual

def tokens : Json → List Token
  | null => [.null]
  | bool b => [.bool b]
  | integer n => [.integer n]
  | string s => [.text (some s)]
  | array [] => [.openArray, .closeArray]
  | array (v :: vs) => .openArray :: tokens v ++ itemTokens vs ++ [.closeArray]
  | object [] => [.openObject, .closeObject]
  | object ((k, v) :: ms) =>
    .openObject :: .text (some k) :: .colon :: tokens v ++ memberTokens ms ++ [.closeObject]
  | other => [.null]

def itemTokens : List Json → List Token
  | [] => []
  | v :: vs => .comma :: tokens v ++ itemTokens vs

def memberTokens : List (String × Json) → List Token
  | [] => []
  | (k, v) :: ms => .comma :: .text (some k) :: .colon :: tokens v ++ memberTokens ms

end

section
variable {l : Layout}

open Token

theorem endsNumber_printItems (l : Layout) (depth : Nat) (vs : List Json) {rest : List Char}
    (h : EndsNumber rest) : EndsNumber ((printItems l depth vs).toList ++ rest) := by
  cases vs with
  | nil => simpa [printItems] using h
  | cons v vs =>
    simp only [printItems, String.toList_append, List.append_assoc]
    exact endsNumber_cons (by decide)

theorem endsNumber_printMembers (l : Layout) (depth : Nat) (ms : List (String × Json))
    {rest : List Char} (h : EndsNumber rest) :
    EndsNumber ((printMembers l depth ms).toList ++ rest) := by
  cases ms with
  | nil => simpa [printMembers] using h
  | cons m ms =>
    simp only [printMembers, String.toList_append, List.append_assoc]
    exact endsNumber_cons (by decide)

mutual

theorem lex_print (hl : l.Blank) : ∀ (v : Json) (depth : Nat) (rest : List Char),
    EndsNumber rest →
      lex ((v.print l depth).toList ++ rest) = (lex rest).map (v.tokens ++ ·)
  | null, depth, rest, _ => by simp [print, tokens, lex]
  | bool true, depth, rest, _ => by simp [print, tokens, lex]
  | bool false, depth, rest, _ => by simp [print, tokens, lex]
  | integer n, depth, rest, h => by simpa [print, tokens] using lex_toString h
  | string s, depth, rest, _ => by simpa [print, tokens] using lex_quoted s rest
  | array [], depth, rest, _ => by simp [print, tokens, lex, Function.comp_def]
  | array (v :: vs), depth, rest, h => by
    have hend : EndsNumber ((l.newline depth).toList ++ ']' :: rest) :=
      endsNumber_blanks (hl.newline depth) (endsNumber_cons (by decide))
    have hv := lex_print hl v (depth + 1) _ (endsNumber_printItems l (depth + 1) vs hend)
    have hvs := lex_printItems hl vs (depth + 1) _ hend
    simp [print, tokens, lex, lex_blanks, hl.newline, hv, hvs, Function.comp_def]
  | object [], depth, rest, _ => by simp [print, tokens, lex, Function.comp_def]
  | object ((k, v) :: ms), depth, rest, h => by
    have hend : EndsNumber ((l.newline depth).toList ++ '\x7d' :: rest) :=
      endsNumber_blanks (hl.newline depth) (endsNumber_cons (by decide))
    have hv := lex_print hl v (depth + 1) _ (endsNumber_printMembers l (depth + 1) ms hend)
    have hms := lex_printMembers hl ms (depth + 1) _ hend
    simp [print, tokens, lex, lex_blanks, lex_quoted, hl.newline, hl.afterColon, hv, hms,
      Function.comp_def]
  | other, depth, rest, _ => by simp [print, tokens, lex]

theorem lex_printItems (hl : l.Blank) : ∀ (vs : List Json) (depth : Nat) (rest : List Char),
    EndsNumber rest →
      lex ((printItems l depth vs).toList ++ rest) = (lex rest).map (itemTokens vs ++ ·)
  | [], depth, rest, _ => by simp [printItems, itemTokens]
  | v :: vs, depth, rest, h => by
    have hv := lex_print hl v depth _ (endsNumber_printItems l depth vs h)
    have hvs := lex_printItems hl vs depth rest h
    simp [printItems, itemTokens, lex, lex_blanks, hl.newline, hv, hvs, Function.comp_def]

theorem lex_printMembers (hl : l.Blank) : ∀ (ms : List (String × Json)) (depth : Nat)
    (rest : List Char), EndsNumber rest →
      lex ((printMembers l depth ms).toList ++ rest) = (lex rest).map (memberTokens ms ++ ·)
  | [], depth, rest, _ => by simp [printMembers, memberTokens]
  | (k, v) :: ms, depth, rest, h => by
    have hv := lex_print hl v depth _ (endsNumber_printMembers l depth ms h)
    have hms := lex_printMembers hl ms depth rest h
    simp [printMembers, memberTokens, lex, lex_blanks, lex_quoted, hl.newline, hl.afterColon, hv,
      hms, Function.comp_def]

end

end

end Json
end RowFlow
