import RowFlow.Proofs.Refusal.Attempts

/-
Copies that settle.  A hook for the start that keeps to itself neither waits for anybody nor
goes on for ever (`Program.Flows`).  In a stopped run the same is true of every hook for the
end that does not wait for its work to be cancelled: a search is not begun, and a row for
which there is no space is dropped (`Program.Quits`).  So a copy that begins and is given up
later can always move until it has, and whatever the others do in between, it makes finitely
many moves (`Copy.Settles`).
-/
namespace RowFlow

namespace Action

def Answered : Action → Prop
  | hold => False
  | _ => True

theorem exists_perform {a : Action} (h : a.Answered) (l : Local) (s : Shared) :
    ∃ x l' s', a.perform l s = (some x, l', s') := by
  cases a <;> first | exact ⟨_, _, _, rfl⟩ | exact absurd h id

end Action

namespace Node

def Brief : Node → Prop
  | act a => a.Answered
  | _ => False

def Unheld : Node → Prop
  | act a => a.Answered
  | receive => False
  | deliver _ _ => True

end Node

namespace Program

variable {α β : Type} {l : Local}

theorem isBlocked_act {a : Action} (h : a.Answered) (next : a.Answer → Program α) (s : Shared) :
    (act a next).isBlocked l s = false := by
  cases a <;> first | rfl | exact absurd h id

/-- The program comes to its end by actions alone. -/
inductive Flows : Program α → Local → Prop
  | done (a : α) (l : Local) : Flows (.done a) l
  | act {a : Action} {next : a.Answer → Program α} {l : Local} (ha : a.Answered)
      (h : ∀ b s x l' s', a.perform (l.withCancelled b) s = (some x, l', s') →
        Flows (next x) l') : Flows (.act a next) l

theorem flows_of_within {p : Program α} (h : p.Within Node.Brief) (l : Local) : p.Flows l := by
  induction p generalizing l with
  | done a => exact .done a l
  | act a next ih => exact .act h.1 fun _ _ x l' _ _ => ih x (h.2 x) l'
  | receive scan next ih => exact absurd h.1 id
  | deliver i row refused next ih => exact absurd h.1 id

theorem Flows.bind {p : Program α} {f : α → Program β} (h : p.Flows l)
    (hf : ∀ ds v m, p.Runs l ds v m → (f v).Flows m) : (p >>= f).Flows l := by
  show (p.bind f).Flows l
  induction h with
  | done a l => exact hf [] a l (.here a l)
  | act ha h ih =>
    refine .act ha fun b s x l' s' hperform => ih b s x l' s' hperform fun ds v m hr => ?_
    exact hf (.act _ x :: ds) v m (.act hperform hr)

/-- Whether the work of the copy was cancelled makes no difference. -/
theorem Flows.cancelled {p : Program α} (h : p.Flows l) (b : Bool) :
    p.Flows (l.withCancelled b) := by
  cases h with
  | done a => exact .done a _
  | act ha h => exact .act ha h

theorem Flows.marked {p : Program α} (h : p.Flows l) (before : Mark) (after : α → Mark) :
    (marked before after p).Flows l := by
  refine .act trivial fun b s x l' s' hperform => ?_
  cases hperform
  refine Flows.bind (p := p) (h.cancelled b) fun ds v m _ => flows_of_within ?_ m
  exact (within_perform (a := .mark (after v)) trivial).bind fun _ => within_pure v

section Begin

theorem brief_of_lone {n : Node} (h : n.Lone) : n.Brief := by
  cases n with
  | act a => cases a <;> trivial
  | _ => exact absurd h id

/-- A request that takes the copy alone waits for nobody. -/
theorem brief_of_alone {q : Request} {x : q.Answer × Local} (h : q.alone? l = some x) :
    q.program.Within Node.Brief := by
  cases q with
  | endOutput => exact lone_endOutput.mono fun n => brief_of_lone
  | add counter n => exact within_perform trivial
  | look => exact (within_perform (a := .own) trivial).bind fun _ => within_pure _
  | note n => exact within_perform trivial
  | _ => cases h

theorem flows_alone {b : Behaviour α} {y : α} (h : b.alone? l = some y) : b.program.Flows l := by
  induction b generalizing l with
  | done a => exact .done a l
  | ask q next ih =>
    obtain ⟨⟨x, l'⟩, hx, hy⟩ := Option.bind_eq_some_iff.mp h
    refine Flows.bind (p := q.program) (flows_of_within (brief_of_alone hx) l) fun ds v m hr => ?_
    obtain ⟨rfl, ⟨b, rfl⟩, -⟩ := runs_alone_request hr hx
    exact ih v (by rw [Behaviour.alone?_withCancelled]; exact hy)

theorem brief_addError : addError.Within Node.Brief := by
  refine within_fails fun n hn => ?_
  cases hn with
  | limit hn => cases hn <;> trivial
  | _ => trivial

theorem brief_afterInit (op : Operator) (x : op.State × Except Fault Unit) :
    (afterInit op x).Within Node.Brief := by
  obtain ⟨m, f | u⟩ := x
  · exact brief_addError.bind fun _ => (within_perform (a := .settle .failed) trivial).bind fun _ =>
      (within_perform (a := .publish .failed) trivial).bind fun _ =>
        (within_perform (a := .own) trivial).bind fun _ => within_pure _
  · exact (within_perform (a := .publish .initialized) trivial).bind fun _ => within_pure _

/-- A copy whose hook for the start keeps to itself begins by actions alone. -/
theorem flows_begin {c : Copy} (h : c.ending?.isSome = true) :
    (begin c.op c.op.start).Flows c.own := by
  obtain ⟨y, hy⟩ : ∃ y, (c.op.init c.op.start).alone? c.starting = some y := by
    rw [Copy.ending?, Option.isSome_map] at h
    exact Option.isSome_iff_exists.mp h
  rw [begin_eq]
  refine .act trivial fun b s x l' s' hperform => ?_
  obtain rfl : c.starting.withCancelled b = l' := by
    cases hperform
    rfl
  refine Flows.bind (p := callInit c.op c.op.start) (.marked ?_ _ _) fun _ _ m _ =>
    flows_of_within (brief_afterInit c.op _) m
  refine Flows.bind ((flows_alone hy).cancelled b) fun _ _ m _ => ?_
  exact flows_of_within ((within_perform (a := .own) trivial).bind fun _ => within_pure _) m

end Begin

section Quits

/-- In a stopped run the program comes to its end: it does not wait for its work to be cancelled,
and its searches are still to be begun. -/
def Quits : Program α → Prop
  | .done _ => True
  | .act a next => a.Answered ∧ ∀ x, (next x).Quits
  | .receive scan next => scan = .start ∧ ∀ x, (next x).Quits
  | .deliver _ _ _ next => ∀ r, (next r).Quits

theorem Quits.bind {p : Program α} {f : α → Program β} (hp : p.Quits) (hf : ∀ a, (f a).Quits) :
    (p >>= f).Quits := by
  show (p.bind f).Quits
  induction p with
  | done a => exact hf a
  | act a next ih => exact ⟨hp.1, fun x => ih x (hp.2 x)⟩
  | receive scan next ih => exact ⟨hp.1, fun x => ih x (hp.2 x)⟩
  | deliver i row refused next ih => exact fun r => ih r (hp r)

theorem quits_of_within {p : Program α} (h : p.Within Node.Unheld) : p.Quits := by
  induction p with
  | done a => trivial
  | act a next ih => exact ⟨h.1, fun x => ih x (h.2 x)⟩
  | receive scan next ih => exact absurd h.1 id
  | deliver i row refused next ih => exact fun r => ih r (h.2 r)

theorem unheld_fails {n : Node} (h : n.Fails) : n.Unheld := by
  cases h with
  | limit h => cases h <;> trivial
  | _ => trivial

theorem unheld_parts {q : Request} (hget : q ≠ .getRow) (hhold : q ≠ .hold) {n : Node}
    (h : q.Parts n) : n.Unheld := by
  cases h with
  | get | receive | got _ => exact absurd rfl hget
  | hold => exact absurd rfl hhold
  | delivers row i | sends row d i out => trivial
  | error h | rejectFails row d h => exact unheld_fails h
  | putLimit row h | stop h | errorLimit k h | rowLimit k h => cases h <;> trivial
  | _ => trivial

theorem quits_request {q : Request} (h : q ≠ .hold) : q.program.Quits := by
  by_cases hget : q = .getRow
  · subst hget
    exact ⟨trivial, fun _ => ⟨rfl, fun _ => ⟨trivial, fun _ => trivial⟩⟩⟩
  · exact quits_of_within ((within_parts q).mono fun _ => unheld_parts hget h)

theorem quits_behaviour {b : Behaviour α} (h : b.Asks (· ≠ .hold)) : b.program.Quits := by
  induction b with
  | done a => trivial
  | ask q next ih => exact Quits.bind (p := q.program) (quits_request h.1) fun x => ih x (h.2 x)

theorem quits_dispose {op : Operator} {m : op.State} (h : (op.dispose m).Asks (· ≠ .hold)) :
    (dispose op m).Quits := by
  have hcall : (callDispose op m).Quits := by
    refine ⟨trivial, fun _ => Quits.bind (p := _ >>= _) ?_ fun _ => ⟨trivial, fun _ => trivial⟩⟩
    exact Quits.bind (quits_behaviour h) fun _ => ⟨trivial, fun _ => trivial⟩
  refine hcall.bind fun ⟨s, r⟩ => ?_
  have hpublish : (perform (.publish .disposed)).Quits := ⟨trivial, fun _ => trivial⟩
  cases r with
  | ok u => exact hpublish
  | error f => exact (quits_of_within (within_fails fun _ => unheld_fails)).bind fun _ => hpublish

theorem quits_abandon {op : Operator} {m : op.State} (h : (op.dispose m).Asks (· ≠ .hold)) :
    (abandon op m).Quits := by
  have hrest : (do endOutput; dispose op m : Program Unit).Quits :=
    (quits_request (q := .endOutput) Request.noConfusion).bind fun _ => quits_dispose h
  refine ⟨trivial, fun l => ?_⟩
  show ((if l.status.state = .initialized then _ else _ : Program Unit)).Quits
  split
  · exact ⟨trivial, fun _ => ⟨trivial, fun _ => hrest⟩⟩
  · exact hrest

end Quits

end Program

namespace Copy

inductive HasTurn (c : Copy) (s : Shared) : Prop
  | begins (h : c.kind = .beginning)
  | leaves (h : c.kind = .leaving) (hs : s.control.stopped = true)

inductive Moves : Copy → Copy → Prop
  | step {c : Copy} (s : Shared) (h : c.HasTurn s) : Moves (c.step s).1 c
  | givenUp {c : Copy} (h : c.hasBegun = true) : Moves c.toAbandon c

/-- Whatever the others do, the copy can move when it is its turn, and its moves come to an
end. -/
inductive Settles : Copy → Prop
  | mk {c : Copy} (free : ∀ s, c.HasTurn s → c.canMove s = true)
      (next : ∀ c', Moves c' c → Settles c') : Settles c

section Turns

variable {c c' : Copy} {s : Shared} {op : Operator} {own : Local}

theorem HasTurn.kind (h : c.HasTurn s) : c.kind = .beginning ∨ c.kind = .leaving := by
  cases h with
  | begins h => exact .inl h
  | leaves h _ => exact .inr h

theorem HasTurn.stopped {p : Program Unit} (h : HasTurn ⟨op, own, .leaving p⟩ s) :
    s.control.stopped = true := by
  cases h with
  | begins h => cases h
  | leaves _ hs => exact hs

theorem moves_of_beginning {p : Program (op.State × Except Fault Unit)}
    (h : Moves c' ⟨op, own, .beginning p⟩) : ∃ s, c' = (step ⟨op, own, .beginning p⟩ s).1 := by
  cases h with
  | step s _ => exact ⟨s, rfl⟩
  | givenUp h => cases h

theorem moves_of_leaving {p : Program Unit} (h : Moves c' ⟨op, own, .leaving p⟩) :
    ∃ s : Shared, s.control.stopped = true ∧ c' = (step ⟨op, own, .leaving p⟩ s).1 := by
  cases h with
  | step s h => exact ⟨s, h.stopped, rfl⟩
  | givenUp h => cases h

end Turns

namespace Settles

variable {c : Copy} {op : Operator} {own : Local}

theorem acc (h : c.Settles) : Acc Moves c := by
  induction h with
  | mk _ _ ih => exact ⟨_, ih⟩

/-- A copy that has no turn has only to be given up. -/
theorem resting (h : c.kind ≠ .beginning ∧ c.kind ≠ .leaving)
    (hgivenUp : c.hasBegun = true → c.toAbandon.Settles) : c.Settles := by
  have hnone : ∀ s, ¬ c.HasTurn s := fun s hturn => hturn.kind.elim h.1 h.2
  refine ⟨fun s hturn => absurd hturn (hnone s), fun c' hm => ?_⟩
  cases hm with
  | step s hturn => exact absurd hturn (hnone s)
  | givenUp hbegun => exact hgivenUp hbegun

theorem gone : Settles ⟨op, own, .gone⟩ := resting ⟨by simp [kind], by simp [kind]⟩ fun h => by
  cases h

/-- In a stopped run a copy whose row was refused drops it. -/
theorem delivering {i : Nat} {row : Row} {next : Except Fault Delivery → Program Unit}
    (h : Settles ⟨op, own, .leaving (next (.ok .dropped))⟩) :
    Settles ⟨op, own, .leaving (.deliver i row true next)⟩ := by
  refine ⟨fun s ht => by simp [canMove, Program.isBlocked, ht.stopped], fun c' hm => ?_⟩
  obtain ⟨s, hs, rfl⟩ := moves_of_leaving hm
  simpa only [step, Program.step, hs, if_true] using h

theorem leaving {p : Program Unit} (h : p.Quits) : Settles ⟨op, own, .leaving p⟩ := by
  induction p generalizing own with
  | done a =>
    refine ⟨fun _ _ => rfl, fun c' hm => ?_⟩
    obtain ⟨s, -, rfl⟩ := moves_of_leaving hm
    exact .gone
  | act a next ih =>
    refine ⟨fun s _ => ?_, fun c' hm => ?_⟩
    · show (!(Program.act a next).isBlocked own s) = true
      rw [Program.isBlocked_act h.1]
      rfl
    · obtain ⟨s, -, rfl⟩ := moves_of_leaving hm
      obtain ⟨x, l', s', hperform⟩ := Action.exists_perform h.1 own s
      simp only [step, Program.step, hperform]
      exact ih x (h.2 x)
  | receive scan next ih =>
    obtain ⟨rfl, hquits⟩ := h
    refine ⟨fun s ht => by simp [canMove, Program.isBlocked, ht.stopped], fun c' hm => ?_⟩
    obtain ⟨s, hs, rfl⟩ := moves_of_leaving hm
    simp only [step, Program.step, hs, Bool.true_or, if_true]
    exact ih none (hquits none)
  | deliver i row refused next ih =>
    cases refused with
    | true => exact delivering (ih _ (h _))
    | false =>
      refine ⟨fun s ht => by simp [canMove, Program.isBlocked, ht.stopped], fun c' hm => ?_⟩
      obtain ⟨s, hs, rfl⟩ := moves_of_leaving hm
      rcases ho : s.offer i row with ⟨s', f | accepted | discarded | back⟩
      all_goals simp only [step, Program.step, ho]
      · exact ih _ (h _)
      · exact ih _ (h _)
      · exact ih _ (h _)
      · exact delivering (ih _ (h _))

section Begin

variable (hdispose : ∀ m, (op.dispose m).Asks (· ≠ .hold))
include hdispose

theorem beginning {p : Program (op.State × Except Fault Unit)} (h : p.Flows own) :
    Settles ⟨op, own, .beginning p⟩ := by
  induction h with
  | done a l =>
    refine ⟨fun _ _ => rfl, fun c' hm => ?_⟩
    obtain ⟨s, rfl⟩ := moves_of_beginning hm
    have habandon := Program.quits_abandon (hdispose a.1)
    obtain ⟨m, f | u⟩ := a
    · exact resting ⟨by simp [step, kind], by simp [step, kind]⟩ fun _ => .leaving habandon
    · exact resting ⟨by simp [step, kind], by simp [step, kind]⟩ fun _ => .leaving habandon
  | @act a next l ha _ ih =>
    refine ⟨fun s _ => ?_, fun c' hm => ?_⟩
    · show (!(Program.act a next).isBlocked l s) = true
      rw [Program.isBlocked_act ha]
      rfl
    · obtain ⟨s, rfl⟩ := moves_of_beginning hm
      obtain ⟨x, l', s', hperform⟩ := Action.exists_perform ha l s
      simp only [step, Program.step, hperform]
      exact ih l.cancelled s x l' s' hperform

end Begin

/-- A copy that was just made settles once it is asked to begin. -/
theorem toBegin (hkind : c.kind = .created) (hending : c.ending?.isSome = true)
    (hdispose : ∀ m, (c.op.dispose m).Asks (· ≠ .hold)) : c.toBegin.Settles := by
  obtain ⟨op, own, task⟩ := c
  cases task with
  | created =>
    exact .beginning hdispose (Program.flows_begin (c := ⟨op, own, .created⟩) hending)
  | _ => cases hkind

end Settles
end Copy
end RowFlow
