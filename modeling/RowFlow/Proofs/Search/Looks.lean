import Mathlib.Data.List.Perm.Basic
import Mathlib.Data.List.Rotate
import RowFlow.Proofs.Program.Runs

/-
How a copy looks for a row while nobody else does anything.  Each pending input holds a
row, has ended, or has nothing yet (`Shared.input_cases`), and a look finds out which of
them is so at the head of the queue: the pending inputs in the order in which the copy
comes to them.  An input that has nothing yet goes to the end of the queue, and one that
has ended leaves it.

The queue is a view of the list of pending inputs and of the cursor, and the two do not
stay in step when an input leaves: the cursor may then point further on, so that a pass
meets some inputs twice and others not at all.  What is still true of every step is in
`Local.Sifts`: no input leaves that has not ended.
-/
namespace RowFlow

namespace Shared

def holds (s : Shared) (i : Nat) : Bool := (s.rowSets[i]?.map (!·.buffer.isEmpty)).getD false

/-- The row is the oldest one of the row set, and without it `s'` is left. -/
def Yields (s : Shared) (i : Nat) (row : Row) (s' : Shared) : Prop :=
  ∃ rs rest, s.rowSets[i]? = some rs ∧ rs.buffer = row :: rest ∧
    s' = { s with rowSets := s.rowSets.set i { rs with buffer := rest } }

variable {s s' : Shared} {i : Nat} {row : Row}

theorem Yields.holds (h : s.Yields i row s') : s.holds i = true := by
  obtain ⟨rs, rest, hrs, hbuffer, -⟩ := h
  simp [Shared.holds, hrs, hbuffer]

theorem Yields.poll (h : s.Yields i row s') : s.poll i = (s', .row row) := by
  obtain ⟨rs, rest, hrs, hbuffer, rfl⟩ := h
  simp [Shared.poll, hrs, RowSet.poll, hbuffer]

theorem exists_yields (h : s.holds i = true) : ∃ row s', s.Yields i row s' := by
  unfold Shared.holds at h
  cases hrs : s.rowSets[i]? with
  | none => simp [hrs] at h
  | some rs =>
    cases hbuffer : rs.buffer with
    | nil => simp [hrs, hbuffer] at h
    | cons row rest => exact ⟨row, _, rs, rest, hrs, hbuffer, rfl⟩

theorem not_holds_of_isDone (h : s.IsDone i) : s.holds i = false := by
  unfold Shared.holds
  cases hrs : s.rowSets[i]? with
  | none => rfl
  | some rs =>
    have hdone := h rs hrs
    rw [RowSet.isDone, Bool.and_eq_true] at hdone
    simp [hdone.2]

theorem poll_of_isDone (h : s.IsDone i) : s.poll i = (s, .done) := by
  unfold Shared.poll
  cases hrs : s.rowSets[i]? with
  | none => rfl
  | some rs =>
    have hdone := h rs hrs
    rw [RowSet.isDone, Bool.and_eq_true, List.isEmpty_iff] at hdone
    simp [RowSet.poll_nil hdone.2, hdone.1, set_self hrs]

theorem poll_of_blocksPoll (h : s.blocksPoll i = true) : s.poll i = (s, .pending) := by
  unfold Shared.blocksPoll at h
  unfold Shared.poll
  cases hrs : s.rowSets[i]? with
  | none => simp [hrs] at h
  | some rs =>
    simp only [hrs, Option.map_some, Option.getD_some, RowSet.blocksPoll, Bool.and_eq_true,
      Bool.not_eq_true', List.isEmpty_iff] at h
    simp [RowSet.poll_nil h.2, h.1, set_self hrs]

/-- An input holds a row, or it has ended, or a reader would wait on it. -/
theorem input_cases (s : Shared) (i : Nat) :
    (∃ row s', s.Yields i row s') ∨ s.IsDone i ∨ s.blocksPoll i = true := by
  cases hholds : s.holds i with
  | true => exact .inl (exists_yields hholds)
  | false =>
    refine .inr ?_
    unfold Shared.holds at hholds
    unfold Shared.blocksPoll
    cases hrs : s.rowSets[i]? with
    | none =>
      refine .inl fun rs hrs' => ?_
      rw [hrs] at hrs'
      cases hrs'
    | some rs =>
      simp only [hrs, Option.map_some, Option.getD_some, Bool.not_eq_false'] at hholds
      cases hclosed : rs.closed with
      | true =>
        refine .inl fun rs' hrs' => ?_
        rw [hrs] at hrs'
        cases hrs'
        rw [RowSet.isDone, hclosed, hholds]
        rfl
      | false => exact .inr (by simp [RowSet.blocksPoll, hclosed, hholds])

theorem not_isDone_of_holds (h : s.holds i = true) : ¬ s.IsDone i := fun hdone => by
  rw [not_holds_of_isDone hdone] at h
  cases h

theorem blocksPoll_of_holds (h : s.holds i = true) : s.blocksPoll i = false := by
  obtain ⟨row, s', hy⟩ := exists_yields h
  refine Bool.eq_false_iff.mpr fun hb => ?_
  have hpoll := poll_of_blocksPoll hb
  rw [hy.poll] at hpoll
  cases hpoll

theorem not_isDone_of_blocksPoll (h : s.blocksPoll i = true) : ¬ s.IsDone i := fun hdone => by
  have hpoll := poll_of_blocksPoll h
  rw [poll_of_isDone hdone] at hpoll
  cases hpoll

end Shared

namespace Local

def queue (l : Local) : List Nat := l.pending.rotate l.cursor

variable {l : Local} {i : Nat} {rest : List Nat}

theorem mem_queue : i ∈ l.queue ↔ i ∈ l.pending := List.mem_rotate

theorem head?_queue (l : Local) : l.queue.head? = l.pending[l.place]? := by
  rcases hp : l.pending with _ | ⟨j, js⟩
  · simp [queue, hp]
  · rw [queue, hp, List.head?_eq_getElem?, List.getElem?_rotate (by simp), Nat.zero_add, place, hp]

theorem getElem?_place (h : l.queue = i :: rest) : l.pending[l.place]? = some i := by
  rw [← head?_queue, h]
  rfl

/-- What had nothing goes to the end of the queue. -/
theorem queue_pass (h : l.queue = i :: rest) : l.pass.queue = rest ++ [i] := by
  have hplace : l.pending.rotate l.place = l.queue := List.rotate_mod _ _
  show l.pending.rotate (l.place + 1) = _
  rw [← List.rotate_rotate, hplace, h, List.rotate_cons_succ, List.rotate_zero]

/-- What has ended leaves the queue. -/
theorem perm_drop (h : l.queue = i :: rest) : (i :: l.drop.pending).Perm l.pending := by
  obtain ⟨hlt, hget⟩ := List.getElem?_eq_some_iff.mp (getElem?_place h)
  have hperm := List.getElem_cons_eraseIdx_perm hlt
  rwa [hget] at hperm

/-- The copy has gone on with its search, and of its inputs none has left that has not
ended. -/
structure Sifts (s : Shared) (l l' : Local) : Prop where
  rests : l' = l.seeking l'.pending l'.cursor
  sublist : l'.pending.Sublist l.pending
  kept : ∀ i, ¬ s.IsDone i → l'.pending.count i = l.pending.count i

section Sifts

variable {s : Shared} {l' l'' : Local}

theorem Sifts.refl (s : Shared) (l : Local) : l.Sifts s l := ⟨rfl, .refl _, fun _ _ => rfl⟩

theorem Sifts.trans (h : l.Sifts s l') (h' : l'.Sifts s l'') : l.Sifts s l'' where
  rests := by
    rw [h'.rests, h.rests]
    rfl
  sublist := h'.sublist.trans h.sublist
  kept i hi := (h'.kept i hi).trans (h.kept i hi)

theorem Sifts.mem (h : l.Sifts s l') (hi : i ∈ l.pending) (hdone : ¬ s.IsDone i) :
    i ∈ l'.pending := by
  rw [← List.count_pos_iff] at hi ⊢
  rwa [h.kept i hdone]

theorem sifts_pass (s : Shared) (l : Local) : l.Sifts s l.pass := ⟨rfl, .refl _, fun _ _ => rfl⟩

theorem sifts_drop (h : ∀ i, l.queue.head? = some i → s.IsDone i) : l.Sifts s l.drop where
  rests := rfl
  sublist := List.eraseIdx_sublist ..
  kept j hj := by
    rcases hq : l.queue with _ | ⟨i, rest⟩
    · have hnil : l.pending = [] := List.rotate_eq_nil_iff.mp hq
      simp [drop, hnil]
    · have hne : i ≠ j := fun heq => hj (heq ▸ h i (by rw [hq]; rfl))
      have hcount := (perm_drop hq).count_eq j
      rwa [List.count_cons_of_ne hne] at hcount

end Sifts

end Local

namespace Program

variable {α : Type} {l : Local} {s s' : Shared} {i : Nat} {rest : List Nat}

def advance (x : Program α × Local × Shared) : Program α × Local × Shared :=
  x.1.step x.2.1 x.2.2

theorem advance_done (n : Nat) (a : α) (l : Local) (s : Shared) :
    advance^[n] (done a, l, s) = (done a, l, s) :=
  Function.iterate_fixed rfl n

theorem look_of_queue (h : l.queue = i :: rest) (s : Shared) : look l s = s.poll i := by
  rw [look, Local.getElem?_place h]

theorem look_of_queue_nil (h : l.queue = []) (s : Shared) : look l s = (s, .done) := by
  have hnone : l.pending[l.place]? = none := by
    rw [← Local.head?_queue, h]
    rfl
  rw [look, hnone]

end Program
end RowFlow
