import RowFlow.Proofs.Flow.Account

/-
Accounts that add up.  What an operator has sent went along every output, and what it has
rejected along the error output, if its faults in sending rows are handed back.  The
counters tell how many rows these are, if the operator leaves the counters of rows alone.
-/
namespace RowFlow

/-- The request raises a counter of rows. -/
def Request.Recounts : Request → Prop
  | .add .read _ => True
  | .add .written _ => True
  | .add .rejected _ => True
  | _ => False

namespace Account

variable {o : Local} {q : Request} {x : q.Answer} {a b : Account} {replies : List Reply}

structure Square (o : Local) (a : Account) : Prop where
  outputs : ∀ branch ∈ o.outputs, a.given branch = a.sent
  errorOutput : ∀ branch ∈ o.errorOutput, a.given branch = a.rejected

structure Counted (a : Account) : Prop where
  read : a.readCount = a.takes.length
  written : a.writtenCount = a.sent.length
  rejected : a.rejectedCount = a.rejected.length

theorem square_empty : Square o {} := ⟨fun _ _ => rfl, fun _ _ => rfl⟩

theorem counted_empty : Counted {} := ⟨rfl, rfl, rfl⟩

/-- An answer that changes nothing but what has no part in it. -/
theorem Square.of_eq (h : Square o a) (hgives : b.gives = a.gives) (hsent : b.sent = a.sent)
    (hrejected : b.rejected = a.rejected) : Square o b := by
  have hgiven : ∀ branch, b.given branch = a.given branch := fun branch => by
    rw [given, hgives]
    rfl
  constructor
  · intro branch hmem
    rw [hgiven, hsent]
    exact h.outputs branch hmem
  · intro branch hmem
    rw [hgiven, hrejected]
    exact h.errorOutput branch hmem

theorem Square.after (h : Square o a) (ha : After o q x a b)
    (hput : ∀ row f, (⟨q, x⟩ : Reply) ≠ ⟨.putRow row, .error f⟩) : Square o b := by
  cases q with
  | getRow =>
    cases x with
    | none =>
      rw [show b = _ from ha]
      exact h.of_eq rfl rfl rfl
    | some row =>
      obtain ⟨i, rfl⟩ := ha
      exact h.of_eq rfl rfl rfl
  | putRow row =>
    cases x with
    | ok u =>
      obtain ⟨houtputs, herror, hb⟩ := ha
      constructor
      · intro branch hmem
        rw [houtputs branch hmem, h.outputs branch hmem, hb]
      · intro branch hmem
        rw [herror branch hmem, h.errorOutput branch hmem, hb]
    | error f => exact absurd rfl (hput row f)
  | rejectRow row d =>
    cases x with
    | ok u =>
      obtain ⟨out, -, houtputs, herror, hb⟩ := ha
      constructor
      · intro branch hmem
        rw [houtputs branch hmem, h.outputs branch hmem, hb]
      · intro branch hmem
        rw [herror branch hmem, h.errorOutput branch hmem, hb]
    | error f =>
      rw [show b = _ from ha]
      exact h.of_eq rfl rfl rfl
  | isStopped =>
    rw [ha.2]
    exact h
  | stop r => exact absurd ha id
  | add counter n =>
    rw [show b = _ from ha]
    cases counter <;> exact h.of_eq rfl rfl rfl
  | _ =>
    rw [show b = a from ha]
    exact h

theorem Counted.after (h : Counted a) (ha : After o q x a b) (hq : ¬ q.Recounts) : Counted b := by
  obtain ⟨hread, hwritten, hrejected⟩ := h
  cases q with
  | getRow =>
    cases x with
    | none =>
      rw [show b = _ from ha]
      exact ⟨hread, hwritten, hrejected⟩
    | some row =>
      obtain ⟨i, rfl⟩ := ha
      exact ⟨by simp [hread], hwritten, hrejected⟩
  | putRow row =>
    cases x with
    | ok u =>
      obtain ⟨-, -, hb⟩ := ha
      rw [hb]
      exact ⟨hread, by simp [hwritten], hrejected⟩
    | error f =>
      rw [ha.2]
      exact ⟨hread, hwritten, hrejected⟩
  | rejectRow row d =>
    cases x with
    | ok u =>
      obtain ⟨out, -, -, -, hb⟩ := ha
      rw [hb]
      exact ⟨hread, hwritten, by simp [hrejected]⟩
    | error f =>
      rw [show b = _ from ha]
      exact ⟨hread, hwritten, hrejected⟩
  | isStopped =>
    rw [ha.2]
    exact ⟨hread, hwritten, hrejected⟩
  | stop r => exact absurd ha id
  | add counter n =>
    rw [show b = _ from ha]
    cases counter <;> first | exact absurd trivial hq | exact ⟨hread, hwritten, hrejected⟩
  | _ =>
    rw [show b = a from ha]
    exact ⟨hread, hwritten, hrejected⟩

theorem square_of_spent {op : Operator} (hop : op.Fair) (hs : op.Spent replies)
    (h : Walk o replies {} a) : Square o a := by
  refine h.induction square_empty ?_
  rintro ⟨q, x⟩ hr a b ha hafter
  refine ha.after hafter fun row f heq => ?_
  cases heq
  obtain ⟨row', d, rfl⟩ := hop.of_spent hs hr
  exact hafter.1 row' d rfl

theorem counted_of_spent {op : Operator} (hop : op.Asks (¬ ·.Recounts)) (hs : op.Spent replies)
    (h : Walk o replies {} a) : Counted a :=
  h.induction counted_empty fun r hr _ _ ha hafter =>
    ha.after hafter (hop.of_spent (fun _ _ => id) hs r hr)

end Account
end RowFlow
