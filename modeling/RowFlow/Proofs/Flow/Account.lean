import RowFlow.Proofs.Flow.History
import RowFlow.Proofs.Program.Frame

/-
The account of a copy: which rows it has taken and given, which ones its operator has
sent and rejected with success, and what its counters say.  An account is kept of what
the copy has done, so it can be compared with what the operator was answered: each
answer changes the account in one way, as long as the run is not stopped.
-/
namespace RowFlow

/-- Rows with the row sets that they came from or went to, and rows that were sent and
rejected, the latest first. -/
structure Account where
  takes : List (Nat × Row) := []
  gives : List (Nat × Row) := []
  /-- A row that is being sent. -/
  sending : Option Row := none
  sent : List Row := []
  /-- What is being sent to the error output. -/
  rejecting : Option Row := none
  rejected : List Row := []
  /-- It has turned out that there is nothing more to read. -/
  ended : Bool := false
  readCount : Nat := 0
  writtenCount : Nat := 0
  rejectedCount : Nat := 0

namespace Account

/-- What was sent counts when it is done with and has not failed. -/
def note (a : Account) : Deed → Account
  | .take i row => { a with takes := (i, row) :: a.takes }
  | .give i row => { a with gives := (i, row) :: a.gives }
  | .mark (.put row) => { a with sending := some row }
  | .mark (.putDone (.ok _)) => { a with sending := none, sent := a.sending.toList ++ a.sent }
  | .mark (.putDone (.error _)) => { a with sending := none }
  | .mark (.reject row d) => { a with rejecting := (Program.errorRow row d).toOption }
  | .mark (.rejectDone (.ok _)) =>
    { a with rejecting := none, rejected := a.rejecting.toList ++ a.rejected }
  | .mark (.rejectDone (.error _)) => { a with rejecting := none }
  | .mark (.got none) => { a with ended := true }
  | _ => a

def ofPast (past : List Deed) : Account := past.foldr (fun d a => a.note d) {}

def counting (a : Account) (c : Counts) : Account :=
  { a with readCount := c.read, writtenCount := c.written, rejectedCount := c.rejected }

def add (a : Account) (n : Nat) : Counter → Account
  | .read => { a with readCount := a.readCount + n }
  | .written => { a with writtenCount := a.writtenCount + n }
  | .rejected => { a with rejectedCount := a.rejectedCount + n }
  | _ => a

theorem counting_note (a : Account) (d : Deed) (c : Counts) :
    (a.note d).counting c = (a.counting c).note d := by
  cases d with
  | mark m =>
    cases m with
    | putDone r => cases r <;> rfl
    | rejectDone r => cases r <;> rfl
    | got row => cases row <;> rfl
    | _ => rfl
  | _ => rfl

theorem counting_add (a : Account) (c : Counts) (n : Nat) (k : Counter) :
    a.counting (c.add n k) = (a.counting c).add n k := by
  cases k <;> rfl

end Account

namespace Position

def account (p : Position) : Account := (Account.ofPast p.past).counting p.own.counts

def IsClear (p : Position) : Prop := p.shared.control.reason = none

theorem IsClear.before {p q : Position} (h : q.IsClear) (hle : p.shared ≤ q.shared) :
    p.IsClear := by
  cases hr : p.shared.control.reason with
  | none => exact hr
  | some r =>
    have hr' := Control.Le.reason (Shared.Le.control hle) r hr
    rw [h] at hr'
    cases hr'

theorem account_of_drift {p q : Position} (h : p.Drift q) : q.account = p.account := by
  obtain ⟨b, hb⟩ := h.own
  rw [account, h.past, hb]
  rfl

end Position

def Action.enter (a : Action) (x : Account) : Account :=
  match a with
  | .mark m => x.note (.mark m)
  | .add counter n => x.add n counter
  | _ => x

theorem account_of_act {a : Action} {p : Position} {x : a.Answer} {l : Local} {s : Shared}
    (h : a.perform p.own p.shared = (some x, l, s)) :
    Position.account ⟨a.deed?.toList ++ p.past, l, s⟩ = a.enter p.account := by
  cases a with
  | mark m =>
    cases h
    exact Account.counting_note _ _ _
  | add counter n =>
    cases h
    exact Account.counting_add _ _ _ _
  | choose o =>
    simp only [Action.perform, Prod.mk.injEq] at h
    obtain ⟨-, rfl, -⟩ := h
    cases o <;> rfl
  | _ =>
    simp only [Action.perform, Prod.mk.injEq] at h
    obtain ⟨-, rfl, -⟩ := h
    rfl

namespace Account

def given (a : Account) (b : Branch) : List Row :=
  (a.gives.filter fun g => g.1 ∈ b.rowSets).map (·.2)

/-- What the answer to a request tells of the account, if the run is not stopped.  A row
that was sent went along every output, and the row for a rejected one along the error
output; where sending has failed it may have gone along some. -/
def After (o : Local) : (q : Request) → q.Answer → Account → Account → Prop
  | .getRow, none, a, a' => a' = { a with ended := true }
  | .getRow, some row, a, a' =>
    ∃ i, a' = { a with takes := (i, row) :: a.takes, readCount := a.readCount + 1 }
  | .putRow row, .ok _, a, a' =>
    (∀ b ∈ o.outputs, a'.given b = row :: a.given b) ∧
      (∀ b ∈ o.errorOutput, a'.given b = a.given b) ∧
        a' = { a with
          gives := a'.gives, sending := none
          sent := row :: a.sent, writtenCount := a.writtenCount + 1 }
  | .putRow _, .error f, a, a' =>
    (∀ row d, f ≠ .rowFailed row d) ∧ a' = { a with gives := a'.gives, sending := none }
  | .rejectRow row d, .ok _, a, a' =>
    ∃ out, Program.errorRow row d = .ok out ∧ (∀ b ∈ o.outputs, a'.given b = a.given b) ∧
      (∀ b ∈ o.errorOutput, a'.given b = out :: a.given b) ∧
        a' = { a with
          gives := a'.gives, rejecting := none
          rejected := out :: a.rejected, rejectedCount := a.rejectedCount + 1 }
  | .rejectRow _ _, .error _, a, a' => a' = { a with rejecting := none }
  | .isStopped, stopped, a, a' => stopped = false ∧ a' = a
  | .stop _, _, _, _ => False
  | .add counter n, _, a, a' => a' = a.add n counter
  | _, _, a, a' => a' = a

def Walk (o : Local) : List Reply → Account → Account → Prop
  | [], a, a' => a' = a
  | r :: rest, a, a' => ∃ b, After o r.request r.answer a b ∧ Walk o rest b a'

section Walk

variable {o : Local}

theorem Walk.append {xs ys : List Reply} {a b c : Account} (h : Walk o xs a b)
    (h' : Walk o ys b c) : Walk o (xs ++ ys) a c := by
  induction xs generalizing a with
  | nil =>
    cases h
    exact h'
  | cons r rest ih =>
    obtain ⟨a', hr, hrest⟩ := h
    exact ⟨a', hr, ih hrest⟩

theorem Walk.of_append {xs ys : List Reply} {a c : Account} (h : Walk o (xs ++ ys) a c) :
    ∃ b, Walk o xs a b ∧ Walk o ys b c := by
  induction xs generalizing a with
  | nil => exact ⟨a, rfl, h⟩
  | cons r rest ih =>
    obtain ⟨a', hr, hrest⟩ := h
    obtain ⟨b, hfirst, hlast⟩ := ih hrest
    exact ⟨b, ⟨a', hr, hfirst⟩, hlast⟩

theorem walk_single {r : Reply} {a b : Account} (h : After o r.request r.answer a b) :
    Walk o [r] a b := ⟨b, h, rfl⟩

/-- A condition that every answer keeps. -/
theorem Walk.induction {P : Account → Prop} {replies : List Reply} {a b : Account}
    (h : Walk o replies a b) (ha : P a)
    (step : ∀ r ∈ replies, ∀ a b, P a → After o r.request r.answer a b → P b) : P b := by
  induction replies generalizing a with
  | nil =>
    cases h
    exact ha
  | cons r rest ih =>
    obtain ⟨a', hr, hrest⟩ := h
    exact ih hrest (step r List.mem_cons_self _ _ ha hr) fun r' hr' =>
      step r' (List.mem_cons_of_mem r hr')

theorem After.ended_mono {q : Request} {x : q.Answer} {a b : Account} (h : After o q x a b)
    (ha : a.ended = true) : b.ended = true := by
  cases q with
  | getRow =>
    cases x with
    | none => rw [show b = _ from h]
    | some row =>
      obtain ⟨i, rfl⟩ := h
      exact ha
  | putRow row =>
    cases x with
    | ok u => rw [h.2.2]; exact ha
    | error f => rw [h.2]; exact ha
  | rejectRow row d =>
    cases x with
    | ok u =>
      obtain ⟨out, -, -, -, hb⟩ := h
      rw [hb]
      exact ha
    | error f => rw [show b = _ from h]; exact ha
  | isStopped => rw [h.2]; exact ha
  | stop r => exact absurd h id
  | add counter n =>
    rw [show b = _ from h]
    cases counter <;> exact ha
  | _ => rw [show b = a from h]; exact ha

/-- If the operator has learnt that there is nothing more to read, so has the account. -/
theorem Walk.ended {r : Reply} {replies : List Reply} {a b : Account} (h : Walk o replies a b)
    (hr : r ∈ replies) (hend : r.IsEnd) : b.ended = true := by
  induction replies generalizing a with
  | nil => cases hr
  | cons s rest ih =>
    obtain ⟨c, hs, hrest⟩ := h
    rcases List.mem_cons.mp hr with rfl | hr
    · have hc : c.ended = true := by
        cases hend with
        | noRow => rw [show c = _ from hs]
        | stopped => cases hs.1
      exact hrest.induction hc fun s _ _ _ ha h => h.ended_mono ha
    · exact ih hrest hr

end Walk

end Account
end RowFlow
