import Mathlib.Order.Defs.PartialOrder
import RowFlow.Net

/-
What the actions of step copies can only add to.  A stream that has ended stays
ended and only loses rows, a consumer that has left stays away, a raised flag stays
up, the first reason stays the first, and counts do not fall.  All of this is the
order `s ≤ t` on what is shared: `t` may come of `s`.  The main statement is
`le_step`: a step of a net goes up in this order, whichever copy makes it.

A fact about what is shared that goes up with the order is still true when a copy
has its turn again, whatever the others did in between.
-/
namespace RowFlow

namespace RowSet

structure Le (s t : RowSet) : Prop where
  capacity : t.capacity = s.capacity
  closed : s.closed = true → t.closed = true
  detached : s.detached = true → t.detached = true
  /-- After the end of the stream rows only leave. -/
  rest : s.closed = true → t.buffer <:+ s.buffer

instance : Preorder RowSet where
  le := Le
  le_refl _ := ⟨rfl, id, id, fun _ => List.suffix_refl _⟩
  le_trans _ _ _ h h' :=
    ⟨h'.capacity.trans h.capacity, h'.closed ∘ h.closed, h'.detached ∘ h.detached,
      fun hc => (h'.rest (h.closed hc)).trans (h.rest hc)⟩

theorem le_offer (s : RowSet) (row : Row) : s ≤ (s.offer row).1 := by
  unfold offer
  split
  · exact le_refl s
  · next hc =>
    split
    · exact le_refl s
    · split
      · exact le_refl s
      · split
        · exact le_refl s
        · exact ⟨rfl, id, id, fun h => absurd h hc⟩

theorem le_poll (s : RowSet) : s ≤ s.poll.1 := by
  unfold poll
  split
  · next row rest hb => exact ⟨rfl, id, id, fun _ => by rw [hb]; exact List.suffix_cons row rest⟩
  · exact le_refl s

theorem le_close (s : RowSet) : s ≤ s.close.1 := by
  unfold close
  split
  · exact le_refl s
  · next hc => exact ⟨rfl, fun _ => rfl, id, fun h => absurd h hc⟩

theorem le_detach (s : RowSet) : s ≤ s.detach :=
  ⟨rfl, id, fun _ => rfl, fun _ => List.nil_suffix⟩

/-- An offer that is not accepted changes nothing. -/
theorem offer_of_ne_accepted {s : RowSet} {row : Row}
    (h : (s.offer row).2 ≠ .ok .accepted) : (s.offer row).1 = s := by
  revert h
  unfold offer
  repeat' split
  all_goals simp

/-- A row that is handed back is the one that was offered. -/
theorem eq_of_offer_full {s : RowSet} {row back : Row}
    (h : (s.offer row).2 = .ok (.full back)) : back = row := by
  revert h
  unfold offer
  repeat' split
  all_goals simp_all

/-- A poll that finds no row changes nothing. -/
theorem poll_of_ne_row {s : RowSet} (h : ∀ row, s.poll.2 ≠ .row row) : s.poll.1 = s := by
  revert h
  unfold poll
  split
  · intro h; exact absurd rfl (h _)
  · intro _; rfl

theorem isDone_of_poll {s : RowSet} (h : s.poll.2 = .done) : s.isDone = true := by
  revert h
  unfold poll isDone
  split <;> simp_all

end RowSet

namespace Control

structure Le (c d : Control) : Prop where
  maxErrors : d.maxErrors = c.maxErrors
  rowLimit : d.rowLimit = c.rowLimit
  stopped : c.stopped = true → d.stopped = true
  reason : ∀ r, c.reason = some r → d.reason = some r
  errors : c.errors ≤ d.errors
  sourceRows : c.sourceRows ≤ d.sourceRows

instance : Preorder Control where
  le := Le
  le_refl _ := ⟨rfl, rfl, id, fun _ => id, Nat.le_refl _, Nat.le_refl _⟩
  le_trans _ _ _ h h' :=
    ⟨h'.maxErrors.trans h.maxErrors, h'.rowLimit.trans h.rowLimit, h'.stopped ∘ h.stopped,
      fun r => h'.reason r ∘ h.reason r, Nat.le_trans h.errors h'.errors,
      Nat.le_trans h.sourceRows h'.sourceRows⟩

theorem le_giveReason (c : Control) (r : StopReason) : c ≤ c.giveReason r :=
  ⟨rfl, rfl, id, fun _ h => giveReason_of_some h r, Nat.le_refl _, Nat.le_refl _⟩

theorem le_raiseFlag (c : Control) : c ≤ c.raiseFlag.1 :=
  ⟨rfl, rfl, fun _ => rfl, fun _ => id, Nat.le_refl _, Nat.le_refl _⟩

theorem le_countErrors (c : Control) (n : Nat) : c ≤ c.countErrors n :=
  ⟨rfl, rfl, id, fun _ => id, Nat.le_add_right _ _, Nat.le_refl _⟩

theorem le_countSourceRows (c : Control) (n : Nat) : c ≤ c.countSourceRows n :=
  ⟨rfl, rfl, id, fun _ => id, Nat.le_refl _, Nat.le_add_right _ _⟩

end Control

namespace Shared

structure Le (s t : Shared) : Prop where
  length : t.rowSets.length = s.rowSets.length
  rowSet : ∀ (i : Nat) (rs : RowSet), s.rowSets[i]? = some rs →
    ∃ rs', t.rowSets[i]? = some rs' ∧ rs ≤ rs'
  control : s.control ≤ t.control

instance : Preorder Shared where
  le := Le
  le_refl _ := ⟨rfl, fun _ rs h => ⟨rs, h, le_refl rs⟩, le_refl _⟩
  le_trans _ _ _ h h' :=
    ⟨h'.length.trans h.length,
      fun i rs hrs =>
        have ⟨rs₁, h₁, hle₁⟩ := h.rowSet i rs hrs
        have ⟨rs₂, h₂, hle₂⟩ := h'.rowSet i rs₁ h₁
        ⟨rs₂, h₂, le_trans hle₁ hle₂⟩,
      le_trans h.control h'.control⟩

/-- Only the row set at one place changes, and goes up. -/
theorem le_set {s : Shared} {i : Nat} {rs rs' : RowSet} (hi : s.rowSets[i]? = some rs)
    (hle : rs ≤ rs') : s ≤ { s with rowSets := s.rowSets.set i rs' } where
  length := List.length_set
  control := le_refl _
  rowSet j x hx := by
    by_cases hj : i = j
    · subst hj
      rw [hi] at hx
      obtain ⟨h, -⟩ := List.getElem?_eq_some_iff.mp hi
      exact ⟨rs', by simp [h], Option.some.inj hx ▸ hle⟩
    · exact ⟨x, by simp [List.getElem?_set_ne hj, hx], le_refl x⟩

theorem le_control {s : Shared} {c : Control} (h : s.control ≤ c) :
    s ≤ { s with control := c } :=
  ⟨rfl, fun _ rs hrs => ⟨rs, hrs, le_refl rs⟩, h⟩

@[simp] theorem control_poll (s : Shared) (i : Nat) : (s.poll i).1.control = s.control := by
  unfold poll
  split <;> rfl

@[simp] theorem control_offer (s : Shared) (i : Nat) (row : Row) :
    (s.offer i row).1.control = s.control := by
  unfold offer
  split <;> rfl

@[simp] theorem control_close (s : Shared) (i : Nat) : (s.close i).1.control = s.control := by
  unfold close
  split <;> rfl

theorem le_poll (s : Shared) (i : Nat) : s ≤ (s.poll i).1 := by
  unfold poll
  split
  · exact le_refl s
  · next rs hi => exact le_set hi rs.le_poll

theorem le_offer (s : Shared) (i : Nat) (row : Row) : s ≤ (s.offer i row).1 := by
  unfold offer
  split
  · exact le_refl s
  · next rs hi => exact le_set hi (rs.le_offer row)

theorem le_close (s : Shared) (i : Nat) : s ≤ (s.close i).1 := by
  unfold close
  split
  · exact le_refl s
  · next rs hi => exact le_set hi rs.le_close

theorem le_detach (s : Shared) (i : Nat) : s ≤ s.detach i where
  length := List.length_modify ..
  control := le_refl _
  rowSet j x hx := by
    by_cases hj : i = j
    · subst hj
      exact ⟨x.detach, by simp [detach, hx], x.le_detach⟩
    · exact ⟨x, by simp [detach, hj, hx], le_refl x⟩

theorem set_self {s : Shared} {i : Nat} {rs : RowSet} (hi : s.rowSets[i]? = some rs) :
    { s with rowSets := s.rowSets.set i rs } = s := by
  obtain ⟨h, rfl⟩ := List.getElem?_eq_some_iff.mp hi
  simp

theorem poll_of_ne_row {s : Shared} {i : Nat} (h : ∀ row, (s.poll i).2 ≠ .row row) :
    (s.poll i).1 = s := by
  revert h
  unfold poll
  split
  · intro _; rfl
  · next rs hi => intro h; rw [RowSet.poll_of_ne_row h]; exact set_self hi

theorem offer_of_ne_accepted {s : Shared} {i : Nat} {row : Row}
    (h : (s.offer i row).2 ≠ .ok .accepted) : (s.offer i row).1 = s := by
  revert h
  unfold offer
  split
  · intro _; rfl
  · next rs hi => intro h; rw [RowSet.offer_of_ne_accepted h]; exact set_self hi

/-- It is the row set that answers. -/
theorem offer_answer {s : Shared} {i : Nat} {rs : RowSet} (hi : s.rowSets[i]? = some rs)
    (row : Row) : (s.offer i row).2 = (rs.offer row).2 := by
  simp only [offer, hi]

theorem eq_of_offer_full {s : Shared} {i : Nat} {row back : Row}
    (h : (s.offer i row).2 = .ok (.full back)) : back = row := by
  revert h
  unfold offer
  split
  · simp
  · exact RowSet.eq_of_offer_full

/-- The stream of a row set has ended and there is nothing left to read. -/
def IsDone (s : Shared) (i : Nat) : Prop := ∀ rs, s.rowSets[i]? = some rs → rs.isDone = true

def IsClosed (s : Shared) (i : Nat) : Prop := ∀ rs, s.rowSets[i]? = some rs → rs.closed = true

def IsDetached (s : Shared) (i : Nat) : Prop :=
  ∀ rs, s.rowSets[i]? = some rs → rs.detached = true

theorem isDone_of_poll {s : Shared} {i : Nat} (h : (s.poll i).2 = .done) : s.IsDone i := by
  intro rs hrs
  simp only [poll, hrs] at h
  exact RowSet.isDone_of_poll h

section Later

variable {s t : Shared} {i : Nat}

/-- A row set of a later state, and what it was before. -/
theorem Le.rowSet_before (h : s ≤ t) {rs' : RowSet} (hrs' : t.rowSets[i]? = some rs') :
    ∃ rs, s.rowSets[i]? = some rs ∧ rs ≤ rs' := by
  have hi : i < s.rowSets.length := by
    rw [← Le.length h]
    exact (List.getElem?_eq_some_iff.mp hrs').1
  obtain ⟨rs'', h'', hle⟩ := Le.rowSet h i _ (List.getElem?_eq_getElem hi)
  rw [hrs'] at h''
  cases h''
  exact ⟨_, List.getElem?_eq_getElem hi, hle⟩

theorem IsClosed.later (hc : s.IsClosed i) (h : s ≤ t) : t.IsClosed i := by
  intro rs' hrs'
  obtain ⟨rs, hrs, hle⟩ := Le.rowSet_before h hrs'
  exact RowSet.Le.closed hle (hc rs hrs)

theorem IsDetached.later (hd : s.IsDetached i) (h : s ≤ t) : t.IsDetached i := by
  intro rs' hrs'
  obtain ⟨rs, hrs, hle⟩ := Le.rowSet_before h hrs'
  exact RowSet.Le.detached hle (hd rs hrs)

theorem IsDone.later (hd : s.IsDone i) (h : s ≤ t) : t.IsDone i := by
  intro rs' hrs'
  obtain ⟨rs, hrs, hle⟩ := Le.rowSet_before h hrs'
  have hdone := hd rs hrs
  simp only [RowSet.isDone, Bool.and_eq_true, List.isEmpty_iff] at hdone ⊢
  refine ⟨RowSet.Le.closed hle hdone.1, ?_⟩
  have hrest := RowSet.Le.rest hle hdone.1
  rw [hdone.2] at hrest
  exact List.suffix_nil.mp hrest

end Later

end Shared

theorem Action.le_perform (l : Local) (s : Shared) (a : Action) : s ≤ (a.perform l s).2.2 := by
  cases a with
  | close i => exact s.le_close i
  | detach i => exact s.le_detach i
  | countErrors n => exact Shared.le_control (s.control.le_countErrors n)
  | countSourceRows n => exact Shared.le_control (s.control.le_countSourceRows n)
  | giveReason r => exact Shared.le_control (s.control.le_giveReason r)
  | raiseFlag => exact Shared.le_control s.control.le_raiseFlag
  | note n => exact ⟨rfl, fun _ rs h => ⟨rs, h, le_refl rs⟩, le_refl _⟩
  | _ => exact le_refl s

namespace Program

variable {α : Type}

theorem le_look (l : Local) (s : Shared) : s ≤ (look l s).1 := by
  unfold look
  split
  · exact s.le_poll _
  · exact le_refl s

theorem le_step (p : Program α) (l : Local) (s : Shared) : s ≤ (p.step l s).2.2 := by
  cases p with
  | done a => exact le_refl s
  | act a next =>
    have h := a.le_perform l s
    revert h
    simp only [step]
    split <;> simp_all
  | receive scan next =>
    cases scan with
    | start => simp only [step]; split <;> exact le_refl s
    | looking seen =>
      have h := le_look l s
      revert h
      simp only [step]
      split <;> simp_all
    | waiting =>
      have h := le_look l s
      revert h
      simp only [step]
      split <;> simp_all
  | deliver i row refused next =>
    cases refused with
    | true => simp only [step]; split <;> exact le_refl s
    | false =>
      have h := s.le_offer i row
      revert h
      simp only [step]
      split <;> simp_all

end Program

theorem Copy.le_step (c : Copy) (s : Shared) : s ≤ (c.step s).2 := by
  unfold Copy.step
  split
  all_goals first | exact le_refl s | exact Program.le_step _ _ _

theorem Net.le_step (n : Net) (place : Nat) : n.shared ≤ (n.step place).shared := by
  unfold Net.step
  split
  · exact le_refl _
  · next c _ => exact c.le_step n.shared

end RowFlow
