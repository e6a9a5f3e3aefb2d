import RowFlow.Proofs.Flow.Requests
import RowFlow.Proofs.Progress.Release

/-
What is told of the account at the seams of a copy's life.  At each of them there is a
history of the operator that the account follows.  A copy that has come to its end by
itself has seen the end of all its inputs before it leaves them; this is why no row is
discarded.
-/
namespace RowFlow
namespace Flow

open Program

variable {o : Local} {p q : Position} {op : Operator}

theorem resultOf_eq_ok {α : Type} {step : String} {e : Ending α} {x : α}
    (h : .ok x = resultOf step e) : e = .returned (.ok x) := by
  cases e with
  | returned r => rw [show r = .ok x from h.symm]
  | crashed text => cases h

theorem resultOf_eq_rowFailed {α : Type} {step : String} {e : Ending α} {row : Row}
    {d : Diagnostic} (h : .error (.rowFailed row d) = resultOf step e) :
    e = .returned (.error (.rowFailed row d)) := by
  cases e with
  | returned r => rw [show r = .error (.rowFailed row d) from h.symm]
  | crashed text => cases h

inductive Turns (o : Local) : Except Fault Bool → Turn → Account → Account → Prop
  | again {x : Account} : Turns o (.ok true) .again x x
  | finished {x : Account} : Turns o (.ok false) (.leave .finished) x x
  | rejected {row : Row} {d : Diagnostic} {x y : Account}
      (h : Account.After o (.rejectRow row d) (.ok ()) x y) :
      Turns o (.error (.rowFailed row d)) .again x y

section Tasks

variable (hapart : Apart o)
include hapart

theorem tells_call {σ α : Type} (hook : Hook) (more : α → Bool) (body : Behaviour (σ × Ending α)) :
    Tells o (call hook more body) fun x a y => ∃ replies e step,
      body.Course replies (a.1, e) ∧ a.2 = resultOf step e ∧ Account.Walk o replies x y := by
  refine (tells_marked hapart (.enter hook)
    (fun a : σ × Except Fault α => .exit hook (a.2.map more)) (R := fun x a y => ∃ replies e step,
    body.Course replies (a.1, e) ∧ a.2 = resultOf step e ∧ Account.Walk o replies x y)
    trivial (fun _ => trivial) ?_).mono ?_
  · refine ((tells_behaviour hapart body).bind (S := fun b x a y => ∃ step,
      a = (b.1, resultOf step b.2) ∧ y = x) fun b => ?_).mono ?_
    · refine tells_own hapart fun l => (tells_pure _).mono ?_
      rintro x a y ⟨rfl, rfl⟩ -
      exact ⟨l.info.name, rfl, rfl⟩
    · rintro x a y ⟨⟨m, e⟩, x', ⟨replies, hc, hw⟩, step, rfl, rfl⟩
      exact ⟨replies, e, step, hc, rfl, hw⟩
  · rintro x a y ⟨y', h, rfl⟩
    exact h

theorem tells_failStep : Tells o failStep fun _ _ _ => False := by
  refine ((tells_addError hapart).bind fun _ => (tells_same hapart (a := .own) trivial trivial).bind
    fun l => (tells_stop hapart _).bind fun _ => tells_pure _).mono ?_
  rintro x a y ⟨-, -, -, -, -, -, -, -, hfalse, -⟩
  exact hfalse

/-- A fault that does not stop the run is a row failure, and the row is rejected. -/
theorem tells_afterFault (f : Fault) :
    Tells o (afterFault f) fun x t y => t = .again ∧ ∃ row d, f = .rowFailed row d ∧
      Account.After o (.rejectRow row d) (.ok ()) x y := by
  refine tells_own hapart fun l => ?_
  split
  · next row d _ =>
    refine ((tells_rejectRow hapart row d).bind (S := fun r x t y =>
      t = .again ∧ r = .ok () ∧ y = x) fun r => ?_).mono ?_
    · cases r with
      | ok _ => exact (tells_pure _).mono fun _ _ _ h => ⟨h.1, rfl, h.2⟩
      | error f => exact (tells_failStep hapart).mono fun _ _ _ h => absurd h id
    · rintro x t y ⟨r, x', hafter, rfl, rfl, rfl⟩ -
      exact ⟨rfl, row, d, rfl, hafter⟩
  · exact (tells_failStep hapart).mono fun _ _ _ h => absurd h id

theorem tells_round (m : op.State) :
    Tells o (round op m) fun x a y =>
      ∃ replies, op.Round m replies a.1 a.2 ∧ Account.Walk o replies x y := by
  refine tells_unlessStopped hapart ?_
  refine ((tells_call hapart .process id (op.process m)).bind
    (S := fun b x a y => a.1 = b.1 ∧ Turns o b.2 a.2 x y) fun b => ?_).mono ?_
  · obtain ⟨m', r⟩ := b
    cases r with
    | ok more =>
      cases more with
      | true =>
        refine (tells_pure _).mono ?_
        rintro x a y ⟨rfl, rfl⟩
        exact ⟨rfl, .again⟩
      | false =>
        refine ((tells_untold hapart (a := .isStopped) trivial trivial).bind
          fun stopped => tells_pure _).mono ?_
        rintro x a y ⟨stopped, x', ⟨hs, rfl⟩, rfl, rfl⟩
        cases hs
        exact ⟨rfl, .finished⟩
    | error f =>
      refine ((tells_afterFault hapart f).bind fun t => tells_pure _).mono ?_
      rintro x a y ⟨t, x', ⟨rfl, row, d, rfl, hafter⟩, rfl, rfl⟩
      exact ⟨rfl, .rejected hafter⟩
  · rintro x ⟨m', t⟩ y ⟨⟨m₁, r⟩, x', ⟨replies, e, step, hc, hr, hw⟩, rfl, ht⟩
    cases ht with
    | again =>
      rw [resultOf_eq_ok hr] at hc
      exact ⟨replies, .again hc, hw⟩
    | finished =>
      rw [resultOf_eq_ok hr] at hc
      exact ⟨replies, .finished hc, hw⟩
    | rejected hafter =>
      rw [resultOf_eq_rowFailed hr] at hc
      exact ⟨_, .rejected hc, hw.append (Account.walk_single hafter)⟩

/-- A hook for the start that went well. -/
theorem tells_begin (m : op.State) :
    Tells o (begin op m) fun x a y => ∀ u, a.2 = .ok u → ∃ replies,
      (op.init m).Course replies (a.1, .returned (.ok ())) ∧ Account.Walk o replies x y := by
  refine ((tells_same hapart (a := .allowErrors _) trivial trivial).bind fun _ =>
    (tells_call hapart .init always (op.init m)).bind (S := fun b x a y =>
      ∀ u, a.2 = .ok u → a.1 = b.1 ∧ b.2 = .ok () ∧ y = x) fun b => ?_).mono ?_
  · obtain ⟨m', r⟩ := b
    cases r with
    | ok _ =>
      refine ((tells_same hapart (a := .publish .initialized) trivial trivial).bind
        fun _ => tells_pure _).mono ?_
      rintro x a y ⟨-, x', rfl, rfl, rfl⟩ u -
      exact ⟨rfl, rfl, rfl⟩
    | error f =>
      refine ((tells_addError hapart).bind fun _ =>
        (tells_same hapart (a := .settle .failed) trivial trivial).bind fun _ =>
          (tells_same hapart (a := .publish .failed) trivial trivial).bind fun _ =>
            (tells_same hapart (a := .own) trivial trivial).bind fun l => tells_pure _).mono ?_
      rintro x a y ⟨-, -, -, -, -, -, -, -, -, l, -, -, hfailed, -⟩ u hu
      rw [hfailed] at hu
      cases hu
  · rintro x a y ⟨-, x₁, rfl, ⟨m', r⟩, x₂, ⟨replies, e, step, hc, hr, hw⟩, h⟩ u hu
    obtain ⟨hm, hok, rfl⟩ := h u hu
    obtain rfl : r = .ok () := hok
    rw [resultOf_eq_ok hr] at hc
    exact ⟨replies, hm ▸ hc, hw⟩

theorem tells_dispose (m : op.State) :
    Tells o (dispose op m) fun x _ y => ∃ replies m' e,
      (op.dispose m).Course replies (m', e) ∧ Account.Walk o replies x y := by
  refine ((tells_call hapart .dispose always (op.dispose m)).bind (S := fun _ => Same)
    fun b => ?_).mono ?_
  · obtain ⟨m', r⟩ := b
    have hpublish : Tells o (perform (.publish .disposed)) Same :=
      tells_same hapart (a := .publish .disposed) trivial trivial
    cases r with
    | ok _ => exact hpublish
    | error f => exact (tells_addError hapart).then fun _ => hpublish
  · rintro x u y ⟨⟨m', r⟩, x', ⟨replies, e, step, hc, -, hw⟩, rfl⟩
    exact ⟨replies, m', e, hc, hw⟩

end Tasks

end Flow
end RowFlow
