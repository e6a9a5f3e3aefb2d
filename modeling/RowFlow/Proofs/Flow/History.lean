import RowFlow.Copy.Basic
import RowFlow.Proofs.Operators

/-
Histories of operators: what an operator has asked for from the start of its life, with
the answers it got.  A history is put together from courses of its hooks.  In between
there may be a rejection that the operator has not made itself: when it comes back with
a row failure that is survived, the row is rejected for it.
-/
namespace RowFlow

/-- A request with its answer. -/
structure Reply where
  request : Request
  answer : request.Answer

/-- One way for a behaviour to go, and its end. -/
inductive Behaviour.Course {α : Type} : Behaviour α → List Reply → α → Prop
  | done (a : α) : Course (.done a) [] a
  | ask {q : Request} {next : q.Answer → Behaviour α} {x : q.Answer} {replies : List Reply} {a : α}
      (h : (next x).Course replies a) : Course (.ask q next) (⟨q, x⟩ :: replies) a

namespace Behaviour

variable {α β : Type}

theorem course_bind {b : Behaviour α} {f : α → Behaviour β} {replies : List Reply} {c : β}
    (h : (b.bind f).Course replies c) :
    ∃ xs a ys, b.Course xs a ∧ (f a).Course ys c ∧ replies = xs ++ ys := by
  induction b generalizing replies with
  | done a => exact ⟨[], a, replies, .done a, h, rfl⟩
  | ask q next ih =>
    cases h with
    | @ask _ _ x rest _ h =>
      obtain ⟨xs, a, ys, hxs, hys, rfl⟩ := ih x h
      exact ⟨⟨q, x⟩ :: xs, a, ys, .ask hxs, hys, rfl⟩

theorem course_request {q : Request} {f : q.Answer → Behaviour β} {replies : List Reply} {c : β}
    (h : ((request q).bind f).Course replies c) :
    ∃ x rest, (f x).Course rest c ∧ replies = ⟨q, x⟩ :: rest := by
  cases h with
  | @ask _ _ x rest _ h => exact ⟨x, rest, h, rfl⟩

/-- All requests of a course are among those that the behaviour may make. -/
theorem Asks.of_course {allowed : Request → Prop} {b : Behaviour α} (hb : b.Asks allowed)
    {replies : List Reply} {a : α} (h : b.Course replies a) : ∀ r ∈ replies, allowed r.request := by
  induction h with
  | done a => exact fun r hr => absurd hr List.not_mem_nil
  | ask _ ih =>
    intro r hr
    rcases List.mem_cons.mp hr with rfl | hr
    · exact hb.1
    · exact ih (hb.2 _) r hr

end Behaviour

namespace Operator

variable (op : Operator)

/-- How a round of a run that goes on can go without a failure of the step.  A row
failure that is survived ends in a rejection. -/
inductive Round (m : op.State) : List Reply → op.State → Turn → Prop
  | again {replies : List Reply} {m' : op.State}
      (h : (op.process m).Course replies (m', .returned (.ok true))) : Round m replies m' .again
  | rejected {replies : List Reply} {m' : op.State} {row : Row} {d : Diagnostic}
      (h : (op.process m).Course replies (m', .returned (.error (.rowFailed row d)))) :
      Round m (replies ++ [⟨.rejectRow row d, .ok ()⟩]) m' .again
  | finished {replies : List Reply} {m' : op.State}
      (h : (op.process m).Course replies (m', .returned (.ok false))) :
      Round m replies m' (.leave .finished)

/-- What can have happened to an operator by the time that it has started well or come
back from a round after which there is another one. -/
inductive History : List Reply → op.State → Prop
  | start {replies : List Reply} {m : op.State}
      (h : (op.init op.start).Course replies (m, .returned (.ok ()))) : History replies m
  | again {replies more : List Reply} {m m' : op.State} (h : History replies m)
      (hr : op.Round m more m' .again) : History (replies ++ more) m'

/-- What can have happened to an operator when it has come to its end by itself. -/
inductive Ended : List Reply → op.State → Prop
  | mk {replies more : List Reply} {m m' : op.State} (h : op.History replies m)
      (hr : op.Round m more m' (.leave .finished)) : Ended (replies ++ more) m'

/-- The hook for the end has come back, too. -/
inductive Spent : List Reply → Prop
  | mk {replies more : List Reply} {m m' : op.State} {e : Ending Unit} (h : op.Ended replies m)
      (hc : (op.dispose m).Course more (m', e)) : Spent (replies ++ more)

end Operator

/-- The request sends rows. -/
def Request.Sends : Request → Prop
  | putRow _ => True
  | rejectRow _ _ => True
  | _ => False

/-- There is nothing more to read: all inputs have ended, or the run is stopped. -/
inductive Reply.IsEnd : Reply → Prop
  | noRow : IsEnd ⟨.getRow, none⟩
  | stopped : IsEnd ⟨.isStopped, true⟩

namespace Operator

variable (op : Operator)

/-- Rows are sent in rounds only, and a fault that comes of sending one is handed back. -/
structure Fair : Prop where
  init : (op.init op.start).Asks (¬ ·.Sends)
  dispose : ∀ replies m, op.Ended replies m → (op.dispose m).Asks (¬ ·.Sends)
  handsBack : ∀ replies m, op.History replies m →
    ∀ more m' e, (op.process m).Course more (m', e) →
      ∀ row f, ⟨.putRow row, .error f⟩ ∈ more → e = .returned (.error f)

/-- The work is never over before it has turned out that there is nothing more to read. -/
def Drains : Prop := ∀ replies m, op.Ended replies m → ∃ r ∈ replies, r.IsEnd

variable {op}

/-- A fault in sending a row ends the history, unless it is a row failure. -/
theorem Fair.of_round (h : op.Fair) {replies more : List Reply} {m m' : op.State} {t : Turn}
    (hh : op.History replies m) (hr : op.Round m more m' t) {row : Row} {f : Fault}
    (hmem : ⟨.putRow row, .error f⟩ ∈ more) : ∃ row' d, f = .rowFailed row' d := by
  cases hr with
  | again hc => cases h.handsBack _ _ hh _ _ _ hc row f hmem
  | @rejected _ _ row' d hc =>
    rcases List.mem_append.mp hmem with hmem | hmem
    · cases h.handsBack _ _ hh _ _ _ hc row f hmem
      exact ⟨row', d, rfl⟩
    · cases List.mem_singleton.mp hmem
  | finished hc => cases h.handsBack _ _ hh _ _ _ hc row f hmem

theorem Fair.of_history (h : op.Fair) {replies : List Reply} {m : op.State}
    (hh : op.History replies m) {row : Row} {f : Fault}
    (hmem : ⟨.putRow row, .error f⟩ ∈ replies) : ∃ row' d, f = .rowFailed row' d := by
  induction hh with
  | start hc => exact absurd trivial (h.init.of_course hc _ hmem)
  | again hh hr ih =>
    rcases List.mem_append.mp hmem with hmem | hmem
    · exact ih hmem
    · exact h.of_round hh hr hmem

theorem Fair.of_spent (h : op.Fair) {replies : List Reply} (hs : op.Spent replies)
    {row : Row} {f : Fault} (hmem : ⟨.putRow row, .error f⟩ ∈ replies) :
    ∃ row' d, f = .rowFailed row' d := by
  obtain ⟨⟨hh, hr⟩, hc⟩ := hs
  rcases List.mem_append.mp hmem with hmem | hmem
  · rcases List.mem_append.mp hmem with hmem | hmem
    · exact h.of_history hh hmem
    · exact h.of_round hh hr hmem
  · exact absurd trivial ((h.dispose _ _ (.mk hh hr)).of_course hc _ hmem)

/-- All requests of a spent operator are among those that its hooks may make; rejections may
be made for it. -/
theorem Asks.of_round {allowed : Request → Prop} (h : op.Asks allowed)
    (hreject : ∀ row d, allowed (.rejectRow row d)) {replies : List Reply} {m m' : op.State}
    {t : Turn} (hr : op.Round m replies m' t) : ∀ r ∈ replies, allowed r.request := by
  intro r hmem
  cases hr with
  | again hc => exact (h.process m).of_course hc r hmem
  | rejected hc =>
    rcases List.mem_append.mp hmem with hmem | hmem
    · exact (h.process m).of_course hc r hmem
    · rw [List.mem_singleton.mp hmem]
      exact hreject _ _
  | finished hc => exact (h.process m).of_course hc r hmem

theorem Asks.of_history {allowed : Request → Prop} (h : op.Asks allowed)
    (hreject : ∀ row d, allowed (.rejectRow row d)) {replies : List Reply} {m : op.State}
    (hh : op.History replies m) : ∀ r ∈ replies, allowed r.request := by
  induction hh with
  | start hc => exact (h.init _).of_course hc
  | again _ hr ih =>
    intro r hmem
    rcases List.mem_append.mp hmem with hmem | hmem
    · exact ih r hmem
    · exact h.of_round hreject hr r hmem

theorem Asks.of_spent {allowed : Request → Prop} (h : op.Asks allowed)
    (hreject : ∀ row d, allowed (.rejectRow row d)) {replies : List Reply}
    (hs : op.Spent replies) : ∀ r ∈ replies, allowed r.request := by
  obtain ⟨⟨hh, hr⟩, hc⟩ := hs
  intro r hmem
  rcases List.mem_append.mp hmem with hmem | hmem
  · rcases List.mem_append.mp hmem with hmem | hmem
    · exact h.of_history hreject hh r hmem
    · exact h.of_round hreject hr r hmem
  · exact (h.dispose _).of_course hc r hmem

end Operator
end RowFlow
