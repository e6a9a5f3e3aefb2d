import Mathlib.Data.List.TakeWhile
import RowFlow.Text.Numeral

/-
Which texts are numerals without a sign, and of which numbers.  A text reads as a number when
digits of that value are left once the blanks at its ends and a plus sign are gone
(`Numeral.Reads`), and that is what is read from it, as far as 64 bits go
(`word?_eq_some_iff`).  However a number is spelt, with zeros before it, a sign and blanks, the
text reads as that number (`reads_of_spells`).
-/
namespace RowFlow
namespace Text

/-- Between blanks stands what has none. -/
theorem trim_between {before core after : List Char} (hbefore : ∀ c ∈ before, isBlank c = true)
    (hcore : ∀ c ∈ core, isBlank c = false) (hafter : ∀ c ∈ after, isBlank c = true) :
    trim (before ++ core ++ after) = core := by
  have hkeep : ∀ cs : List Char, (∀ c ∈ cs, isBlank c = false) → cs.dropWhile isBlank = cs := by
    intro cs hcs
    cases cs with
    | nil => rfl
    | cons c cs => rw [List.dropWhile_cons, hcs c List.mem_cons_self, if_neg Bool.false_ne_true]
  have hfront :
      (before ++ core ++ after).dropWhile isBlank = (core ++ after).dropWhile isBlank := by
    rw [List.append_assoc, List.dropWhile_append_of_pos hbefore]
  unfold trim
  rw [hfront, List.dropWhile_append, hkeep core hcore]
  cases core with
  | nil =>
    rw [List.isEmpty_nil, if_pos rfl, List.dropWhile_eq_nil_iff.mpr hafter]
    rfl
  | cons c core =>
    rw [List.isEmpty_cons, if_neg Bool.false_ne_true, List.reverse_append,
      List.dropWhile_append_of_pos fun c hc => hafter c (List.mem_reverse.mp hc),
      hkeep _ fun c hc => hcore c (List.mem_reverse.mp hc), List.reverse_reverse]

theorem isBlank_of_isDigit {c : Char} (h : c.isDigit = true) : isBlank c = false := by
  obtain ⟨hlow, hhigh⟩ : 48 ≤ c.toNat ∧ c.toNat ≤ 57 := by
    simpa [Char.isDigit, UInt32.le_iff_toNat_le] using h
  unfold isBlank
  simp only [Bool.or_eq_false_iff, Bool.and_eq_false_iff, decide_eq_false_iff_not,
    beq_eq_false_iff_ne]
  omega

namespace Numeral

/-- One or more ASCII digits of this value. -/
structure Digits (cs : List Char) (n : Nat) : Prop where
  nonempty : cs ≠ []
  digit : ∀ c ∈ cs, c.isDigit = true
  value : Nat.ofDigitChars 10 cs 0 = n

/-- The text is a numeral of the number: between blanks, a plus sign or none, and digits. -/
def Reads (s : String) (n : Nat) : Prop :=
  ∃ sign digits, trim s.toList = sign ++ digits ∧ (sign = [] ∨ sign = ['+']) ∧ Digits digits n

/-- The text is the decimal text of the number, with zeros, a plus sign and blanks around it or
none. -/
def Spells (s : String) (n : Nat) : Prop :=
  ∃ before sign zeros after, s.toList =
      before ++ (sign ++ List.replicate zeros '0' ++ (toString n).toList) ++ after ∧
    (∀ c ∈ before, isBlank c = true) ∧ (sign = [] ∨ sign = ['+']) ∧
    (∀ c ∈ after, isBlank c = true)

variable {c : Char} {cs : List Char} {s : String} {d n m : Nat} {w : UInt64}

theorem digit?_eq_some_iff :
    digit? c = some d ↔ c.isDigit = true ∧ c.toNat - '0'.toNat = d := by
  have hdigit : c.isDigit = true ↔ '0' ≤ c ∧ c ≤ '9' := by
    simp [Char.isDigit, Char.le_def]
  unfold digit?
  split
  · next h => simp [hdigit.mpr h]
  · next h => simp [mt hdigit.mp h]

theorem valueFrom_eq_some_iff {before : Nat} : valueFrom before cs = some n ↔
    (∀ c ∈ cs, c.isDigit = true) ∧ Nat.ofDigitChars 10 cs before = n := by
  induction cs generalizing before with
  | nil => simp [valueFrom, Nat.ofDigitChars]
  | cons c cs ih =>
    simp only [valueFrom, Option.bind_eq_bind, Option.bind_eq_some_iff, digit?_eq_some_iff, ih,
      List.forall_mem_cons, Nat.ofDigitChars_cons]
    constructor
    · rintro ⟨d, ⟨hc, rfl⟩, hcs, hn⟩
      exact ⟨⟨hc, hcs⟩, hn⟩
    · rintro ⟨⟨hc, hcs⟩, hn⟩
      exact ⟨_, ⟨hc, rfl⟩, hcs, hn⟩

theorem digits?_eq_some_iff : digits? cs = some n ↔ Digits cs n := by
  cases cs with
  | nil => exact ⟨fun h => (by cases h), fun h => absurd rfl h.nonempty⟩
  | cons c cs =>
    show valueFrom 0 (c :: cs) = some n ↔ _
    rw [valueFrom_eq_some_iff]
    exact ⟨fun h => ⟨List.cons_ne_nil c cs, h.1, h.2⟩, fun h => ⟨h.digit, h.value⟩⟩

theorem unsigned?_eq_some_iff : unsigned? cs = some n ↔
    ∃ sign digits, cs = sign ++ digits ∧ (sign = [] ∨ sign = ['+']) ∧ Digits digits n := by
  unfold unsigned?
  split
  · next rest =>
    rw [digits?_eq_some_iff]
    constructor
    · exact fun h => ⟨['+'], rest, rfl, .inr rfl, h⟩
    · rintro ⟨sign, digits, hcs, rfl | rfl, hdigits⟩
      · -- a plus sign is no digit
        rw [List.nil_append] at hcs
        exact absurd (hdigits.digit '+' (hcs ▸ List.mem_cons_self)) (by decide)
      · cases hcs
        exact hdigits
  · next hplus =>
    rw [digits?_eq_some_iff]
    constructor
    · exact fun h => ⟨[], cs, rfl, .inl rfl, h⟩
    · rintro ⟨sign, digits, rfl, rfl | rfl, hdigits⟩
      · exact hdigits
      · exact absurd rfl (hplus digits)

/-- What is read from a text is the number that it is a numeral of. -/
theorem word?_eq_some_iff : word? s = some w ↔ Reads s w.toNat := by
  simp only [word?, Option.bind_eq_bind, Option.bind_eq_some_iff, Reads, ← unsigned?_eq_some_iff]
  constructor
  · rintro ⟨n, hn, hw⟩
    split at hw
    · next hlt =>
      cases hw
      rw [hn, Nat.toUInt64_eq, UInt64.toNat_ofNat_of_lt' hlt]
    · cases hw
  · intro h
    refine ⟨w.toNat, h, ?_⟩
    rw [if_pos w.toNat_lt, Nat.toUInt64_eq, UInt64.ofNat_toNat]

/-- A text is a numeral of one number at most. -/
theorem Reads.unique (hn : Reads s n) (hm : Reads s m) : n = m :=
  Option.some.inj ((unsigned?_eq_some_iff.mpr hn).symm.trans (unsigned?_eq_some_iff.mpr hm))

/-- Zeros before a number change nothing. -/
theorem digits_padded (zeros n : Nat) :
    Digits (List.replicate zeros '0' ++ (toString n).toList) n := by
  have htext : (toString n).toList = Nat.toDigits 10 n := Nat.toList_repr
  have hzeros : Nat.ofDigitChars 10 (List.replicate zeros '0') 0 = 0 := by
    induction zeros with
    | zero => rfl
    | succ zeros ih => rw [List.replicate_succ, Nat.ofDigitChars_cons]; exact ih
  rw [htext]
  refine ⟨by simp [Nat.toDigits_ne_nil], fun c hc => ?_, ?_⟩
  · rcases List.mem_append.mp hc with hc | hc
    · rw [List.eq_of_mem_replicate hc]
      rfl
    · exact Nat.isDigit_of_mem_toDigits (by decide) (by decide) hc
  · rw [Nat.ofDigitChars_append, hzeros, Nat.ofDigitChars_ten_toDigits]

/-- However it is spelt, a number reads as itself. -/
theorem reads_of_spells (h : Spells s n) : Reads s n := by
  obtain ⟨before, sign, zeros, after, htext, hbefore, hsign, hafter⟩ := h
  have hdigits := digits_padded zeros n
  refine ⟨sign, _, ?_, hsign, hdigits⟩
  rw [htext, List.append_assoc sign]
  refine trim_between hbefore (fun c hc => ?_) hafter
  rcases List.mem_append.mp hc with hc | hc
  · rcases hsign with rfl | rfl
    · cases hc
    · rw [List.mem_singleton.mp hc]
      decide
  · exact isBlank_of_isDigit (hdigits.digit c hc)

end Numeral
end Text
end RowFlow
