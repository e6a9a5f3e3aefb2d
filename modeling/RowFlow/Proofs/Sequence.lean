import Mathlib.Data.List.Forall2
import RowFlow.Proofs.Program.Asked

/-
What a sequence emits.  Each call of the hook for a unit of work puts the row of the next number
and counts on, until none is left; as long as all numbers that are left fit into 64 bits
(`Fits`), counting on does not fail and leaves a sequence of which the same holds
(`advance_of_fits`).  A sequence that was made fits, so it emits its range, number by number, and
nothing after it (`emits_of_calls`).
-/
namespace RowFlow

namespace Operator

/-- A call of the hook for a unit of work: what was asked for, with the answers, and the end. -/
structure Call where
  replies : List Reply
  ending : Ending Bool

def puts (calls : List Call) : List Row :=
  calls.flatMap fun c => c.replies.filterMap Reply.put?

/-- Calls one after the other, each of them in the state that the one before has left, whatever
they are answered, but to put a row never fails.  What a copy asks for when it runs the hook is
such a course, too (`Program.asked_behaviour`). -/
inductive Calls (op : Operator) : op.State → List Call → op.State → Prop
  | nil (m : op.State) : Calls op m [] m
  | cons {m m' last : op.State} {c : Call} {calls : List Call}
      (h : (op.process m).Course c.replies (m', c.ending))
      (hput : ∀ answer ∈ c.replies.filterMap Reply.putAnswer?, answer = .ok ())
      (hr : Calls op m' calls last) : Calls op m (c :: calls) last

theorem Calls.uncons {op : Operator} {m last : op.State} {c : Call} {calls : List Call}
    (h : op.Calls m (c :: calls) last) :
    ∃ m', (op.process m).Course c.replies (m', c.ending) ∧
      (∀ answer ∈ c.replies.filterMap Reply.putAnswer?, answer = .ok ()) ∧
      op.Calls m' calls last := by
  cases h with
  | cons hc hput hr => exact ⟨_, hc, hput, hr⟩

end Operator

namespace Sequence

/-- A row that was built of this number alone, for a field of this name. -/
structure Holds (field : String) (n : Int) (row : Row) : Prop where
  schema : Schema.ofFields [{ name := field, type := .integer }] = .ok row.schema
  value : ∃ v : Int64, v.toInt = n ∧ Row.ofValues row.schema [.integer v] = .ok row

/-- These calls emit the first of `count` numbers from `start` on, and all of them if there are
enough calls. -/
structure Emits (field : String) (start : Int) (count : Nat) (calls : List Operator.Call) :
    Prop where
  /-- No call fails: the first `count` say that there may be more, and all others that there is
  nothing. -/
  endings : calls.map (·.ending) =
    (List.range calls.length).map fun i => .returned (.ok (decide (i < count)))
  /-- The numbers are emitted in their order, as they are. -/
  rows : List.Forall₂ (Holds field)
    ((List.range (min count calls.length)).map fun i => start + (i : Nat)) (Operator.puts calls)

def Fits (s : Sequence) : Prop :=
  s.remaining = 0 ∨ s.next.toInt + s.remaining - 1 ≤ Int64.maxValue.toInt

variable {field : String} {start : Int64} {count : Nat} {s m m' : Sequence} {k : Nat}
  {calls : List Operator.Call}

theorem make_eq_ok_iff :
    make field start count = .ok s ↔ s = ⟨field, start, count⟩ ∧ s.Fits := by
  unfold make
  split
  · next hover =>
    refine iff_of_false nofun ?_
    rintro ⟨rfl, hnone | hfits⟩
    · exact absurd hnone (Nat.ne_of_gt hover.1)
    · simp only at hfits
      omega
  · next hfits =>
    constructor
    · intro h
      cases h
      refine ⟨rfl, ?_⟩
      simp only [Fits]
      omega
    · rintro ⟨rfl, -⟩
      rfl

theorem holds_row (s : Sequence) : Holds s.field s.next.toInt s.row where
  schema := Schema.ofFields_eq_ok_iff.mpr ⟨rfl, List.pairwise_singleton ..⟩
  value := ⟨s.next, rfl, Row.ofValues_eq_ok_iff.mpr ⟨rfl, rfl⟩⟩

theorem exists_after? {n : Int64} (h : n.toInt < Int64.maxValue.toInt) :
    ∃ next, after? n = some next ∧ next.toInt = n.toInt + 1 := by
  have hne : n ≠ Int64.maxValue := by
    rintro rfl
    exact absurd h (Int.lt_irrefl _)
  refine ⟨n + 1, if_neg hne, ?_⟩
  have hlow := n.le_toInt
  rw [Int64.toInt_maxValue] at h
  rw [Int64.toInt_add, show (1 : Int64).toInt = 1 from rfl]
  exact Int.bmod_eq_of_le (by omega) (by omega)

/-- Counting on never fails, and goes up by one while there are numbers to come. -/
theorem advance_of_fits (h : s.Fits) (hk : s.remaining = k + 1) :
    ∃ next, s.advance = (⟨s.field, next, k⟩, .returned (.ok true)) ∧
      (⟨s.field, next, k⟩ : Sequence).Fits ∧ (0 < k → next.toInt = s.next.toInt + 1) := by
  simp only [advance, hk, Nat.add_sub_cancel]
  by_cases hlast : k = 0
  · subst hlast
    exact ⟨s.next, if_pos rfl, .inl rfl, fun h => absurd h (lt_irrefl 0)⟩
  · have hfits : s.next.toInt + (k + 1 : Nat) - 1 ≤ Int64.maxValue.toInt := by
      rcases h with hnone | hfits
      · omega
      · rwa [hk] at hfits
    obtain ⟨next, hnext, hsucc⟩ := exists_after? (n := s.next) (by omega)
    refine ⟨next, ?_, .inr ?_, fun _ => hsucc⟩
    · rw [if_neg hlast, hnext]
    · simp only
      omega

/-- Nothing is asked for when no number is left. -/
theorem course_over (hover : m.remaining = 0) {replies : List Reply} {e : Ending Bool}
    (h : (s.operator.process m).Course replies (m', e)) :
    replies = [] ∧ m' = m ∧ e = .returned (.ok false) := by
  simp only [operator, if_pos hover] at h
  cases h
  exact ⟨rfl, rfl, rfl⟩

/-- While numbers are left, the next one is put. -/
theorem course_next (hleft : m.remaining ≠ 0) {replies : List Reply} {e : Ending Bool}
    (h : (s.operator.process m).Course replies (m', e))
    (hput : ∀ answer ∈ replies.filterMap Reply.putAnswer?, answer = .ok ()) :
    replies = [⟨.putRow m.row, .ok ()⟩] ∧ (m', e) = m.advance := by
  simp only [operator, if_neg hleft] at h
  obtain ⟨x, rest, hrest, rfl⟩ := Behaviour.course_request h
  obtain rfl : x = .ok () := hput x (List.mem_cons_self ..)
  generalize m.advance = after at hrest
  cases hrest
  exact ⟨rfl, rfl⟩

namespace Emits

variable {start next : Int}

theorem map_ending_cons {c : Operator.Call} {f : Nat → Ending Bool} (hc : c.ending = f 0)
    (hcalls : calls.map (·.ending) = (List.range calls.length).map fun i => f (i + 1)) :
    (c :: calls).map (·.ending) = (List.range (c :: calls).length).map f := by
  rw [List.map_cons, hc, hcalls, List.length_cons, List.range_succ_eq_map, List.map_cons,
    List.map_map]
  rfl

theorem nil : Emits field start count [] where
  endings := rfl
  rows := by
    rw [List.length_nil, Nat.min_zero]
    exact .nil

theorem spent (h : Emits field start 0 calls) :
    Emits field start 0 (⟨[], .returned (.ok false)⟩ :: calls) where
  endings := map_ending_cons rfl h.endings
  rows := by
    have hrows := h.rows
    rw [Nat.zero_min] at hrows ⊢
    exact hrows

theorem cons {row : Row} (hrow : Holds field start row) (h : Emits field next k calls)
    (hnext : 0 < k → next = start + 1) :
    Emits field start (k + 1)
      (⟨[⟨.putRow row, .ok ()⟩], .returned (.ok true)⟩ :: calls) where
  endings := by
    refine map_ending_cons ?_ ?_
    · rw [decide_eq_true (Nat.succ_pos k)]
    · simp only [Nat.add_lt_add_iff_right]
      exact h.endings
  rows := by
    -- the numbers that follow are counted from this one, unless it is the last
    have hshift : ((List.range (min k calls.length)).map fun i => next + (i : Nat)) =
        (List.range (min k calls.length)).map fun i => start + (i + 1 : Nat) := by
      refine List.map_congr_left fun i hi => ?_
      have hi := List.mem_range.mp hi
      rw [hnext (by omega)]
      omega
    have hrows := h.rows
    rw [hshift] at hrows
    rw [List.length_cons, Nat.add_min_add_right, List.range_succ_eq_map, List.map_cons,
      List.map_map]
    exact .cons (by simpa using hrow) hrows

end Emits

/-- What the calls emit, told from the state in which they begin. -/
theorem emits_of_calls (h : s.operator.Calls m calls m') (hfits : m.Fits) :
    Emits m.field m.next.toInt m.remaining calls := by
  induction calls generalizing m with
  | nil => exact .nil
  | cons c calls ih =>
    obtain ⟨replies, e⟩ := c
    obtain ⟨m₁, hc, hput, hcalls⟩ := h.uncons
    by_cases hover : m.remaining = 0
    · obtain ⟨rfl, rfl, rfl⟩ := course_over hover hc
      rw [hover]
      have ih := ih hcalls hfits
      rw [hover] at ih
      exact ih.spent
    · obtain ⟨rfl, hadvance⟩ := course_next hover hc hput
      obtain ⟨k, hk⟩ := Nat.exists_eq_succ_of_ne_zero hover
      obtain ⟨next, hnext, hrest, hsucc⟩ := advance_of_fits hfits hk
      rw [hnext] at hadvance
      cases hadvance
      rw [hk]
      exact (ih hcalls hrest).cons m.holds_row hsucc

/-- Whatever is left, there can be any number of calls. -/
theorem exists_calls (s m : Sequence) (n : Nat) :
    ∃ calls m', s.operator.Calls m calls m' ∧ calls.length = n := by
  induction n generalizing m with
  | zero => exact ⟨[], m, @Operator.Calls.nil s.operator m, rfl⟩
  | succ n ih =>
    by_cases hover : m.remaining = 0
    · obtain ⟨calls, m', hcalls, hlength⟩ := ih m
      refine ⟨⟨[], .returned (.ok false)⟩ :: calls, m', .cons ?_ nofun hcalls, ?_⟩
      · simp only [operator, if_pos hover]
        exact .done _
      · rw [List.length_cons, hlength]
    · obtain ⟨calls, m', hcalls, hlength⟩ := ih m.advance.1
      refine ⟨⟨[⟨.putRow m.row, .ok ()⟩], m.advance.2⟩ :: calls, m', .cons ?_ ?_ hcalls, ?_⟩
      · simp only [operator, if_neg hover]
        exact .ask (.done _)
      · intro answer hanswer
        exact List.mem_singleton.mp hanswer
      · rw [List.length_cons, hlength]

/-- A sequence is made just if its last number fits into 64 bits, and then its calls, of which
there can be any number, emit its numbers and nothing else. -/
theorem emits_range (field : String) (start : Int64) (count : Nat) :
    ((∃ s, make field start count = .ok s) ↔
      count = 0 ∨ start.toInt + count - 1 ≤ Int64.maxValue.toInt) ∧
    ∀ s, make field start count = .ok s →
      (∀ n, ∃ calls m, s.operator.Calls s.operator.start calls m ∧ calls.length = n) ∧
      ∀ calls m, s.operator.Calls s.operator.start calls m →
        Emits field start.toInt count calls := by
  refine ⟨⟨?_, fun h => ⟨_, make_eq_ok_iff.mpr ⟨rfl, h⟩⟩⟩, fun s hs => ?_⟩
  · rintro ⟨s, hs⟩
    obtain ⟨rfl, hfits⟩ := make_eq_ok_iff.mp hs
    exact hfits
  · obtain ⟨rfl, hfits⟩ := make_eq_ok_iff.mp hs
    exact ⟨fun n => exists_calls _ _ n, fun calls m hcalls => emits_of_calls hcalls hfits⟩

/-- Two numbers up to the last one that 64 bits hold; a third one is refused, and all but the last
of the numbers from the first one on are not. -/
theorem emits_range_maxValue :
    (∃ s calls m, make "id" (Int64.maxValue - 1) 2 = .ok s ∧
      s.operator.Calls s.operator.start calls m ∧
      calls.map (·.ending) = [.returned (.ok true), .returned (.ok true), .returned (.ok false),
        .returned (.ok false)] ∧
      List.Forall₂ (Holds "id") [9223372036854775806, 9223372036854775807] (Operator.puts calls)) ∧
    (¬ ∃ s, make "id" (Int64.maxValue - 1) 3 = .ok s) ∧
    ∃ s, make "id" Int64.minValue (2 ^ 64 - 1) = .ok s := by
  refine ⟨?_, fun h => absurd ((emits_range _ _ _).1.mp h) (by decide),
    (emits_range _ _ _).1.mpr (by decide)⟩
  obtain ⟨s, hs⟩ := (emits_range "id" (Int64.maxValue - 1) 2).1.mpr (by decide)
  obtain ⟨hmany, hemits⟩ := (emits_range _ _ _).2 s hs
  obtain ⟨calls, m, hcalls, hlength⟩ := hmany 4
  have hrows := (hemits calls m hcalls).rows
  have hendings := (hemits calls m hcalls).endings
  rw [hlength] at hrows hendings
  exact ⟨s, calls, m, hs, hcalls, hendings, hrows⟩

end Sequence
end RowFlow
