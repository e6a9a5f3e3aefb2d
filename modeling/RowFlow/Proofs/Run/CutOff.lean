import Mathlib.Data.List.Forall2
import RowFlow.Proofs.Program.CutOff
import RowFlow.Proofs.Run.Course

/-
Runs of operators whose hooks need not end.  Such an operator is a family of operators that
crash where a hook asks for more than so many things (`OpenOperator.cutOff`).  Two of the
family cannot be told apart by a run that has not moved as often as that: of registries that
agree runs are made that agree, and they agree after any course that is short enough
(`agrees_after`).  So a finite course of a run with such operators is that of the run with
operators that are cut off, if only they are cut off late enough.
-/
namespace RowFlow

/-- An operator with hooks that need not end. -/
structure OpenOperator where
  State : Type
  start : State
  capabilities : Capabilities := {}
  init : State → Code (State × Ending Unit)
  process : State → Code (State × Ending Bool)
  dispose : State → Code (State × Ending Unit)
  canceller : Option (Except Fault Unit) := none

namespace OpenOperator

/-- A hook that crashes where it asks for more than `n` things. -/
def hook {σ α : Type} (n : Nat) (s : σ) (c : Code (σ × Ending α)) : Behaviour (σ × Ending α) :=
  c.cutOff (s, .crashed "cut off") n c.start

abbrev cutOff (o : OpenOperator) (n : Nat) : Operator where
  State := o.State
  start := o.start
  capabilities := o.capabilities
  init s := hook n s (o.init s)
  process s := hook n s (o.process s)
  dispose s := hook n s (o.dispose s)
  canceller := o.canceller

end OpenOperator

open Program in
structure OpenOperator.Agrees (o : OpenOperator) (n k k' : Nat) : Prop where
  begin : ∀ m, (begin (o.cutOff k) m).Agrees n (begin (o.cutOff k') m)
  round : ∀ m, (round (o.cutOff k) m).Agrees n (round (o.cutOff k') m)
  leave : ∀ m a, (leave (o.cutOff k) m a).Agrees n (leave (o.cutOff k') m a)
  abandon : ∀ m, (abandon (o.cutOff k) m).Agrees n (abandon (o.cutOff k') m)

section Programs

open Program

variable {σ α : Type} {n k k' : Nat} (hk : n ≤ k) (hk' : n ≤ k')
include hk hk'

theorem agrees_call (hook : Hook) (more : α → Bool) (s : σ) (c : Code (σ × Ending α)) :
    (call hook more (OpenOperator.hook k s c)).Agrees n
      (call hook more (OpenOperator.hook k' s c)) :=
  .marked ((agrees_cutOff _ _ hk hk' _).bind fun _ => .refl n _)

theorem agrees_dispose (o : OpenOperator) (m : o.State) :
    (dispose (o.cutOff k) m).Agrees n (dispose (o.cutOff k') m) :=
  (agrees_call hk hk' .dispose always m (o.dispose m)).bind fun _ => .refl n _

theorem OpenOperator.agrees (o : OpenOperator) : o.Agrees n k k' where
  begin m := (Agrees.refl n (perform _)).bind fun _ =>
    (agrees_call hk hk' .init always m (o.init m)).bind fun _ => .refl n _
  round m := (Agrees.refl n isStopped).bind fun stopped => by
    cases stopped with
    | true => exact .refl n _
    | false => exact (agrees_call hk hk' .process id m (o.process m)).bind fun _ => .refl n _
  leave m a := (Agrees.refl n endOutput).bind fun _ => (Agrees.refl n detachInputs).bind fun _ =>
    (Agrees.refl n (perform _)).bind fun _ => (Agrees.refl n (perform _)).bind fun _ =>
      agrees_dispose hk hk' o m
  abandon m := (Agrees.refl n own).bind fun l => by
    have hrest := (Agrees.refl n endOutput).bind fun _ => agrees_dispose hk hk' o m
    dsimp only
    split
    · exact (Agrees.refl n (perform _)).bind fun _ => (Agrees.refl n (perform _)).bind fun _ => hrest
    · exact hrest

end Programs

inductive Task.Agrees (n : Nat) {o : OpenOperator} {k k' : Nat} :
    Task (o.cutOff k) → Task (o.cutOff k') → Prop
  | created : Agrees n .created .created
  | beginning {p p' : Program (o.State × Except Fault Unit)} (h : p.Agrees n p') :
      Agrees n (.beginning p) (.beginning p')
  | ready (m : o.State) : Agrees n (.ready m) (.ready m)
  | refused (m : o.State) (f : Fault) : Agrees n (.refused m f) (.refused m f)
  | working {p p' : Program (o.State × Turn)} (h : p.Agrees n p') :
      Agrees n (.working p) (.working p')
  | leaving {p p' : Program Unit} (h : p.Agrees n p') : Agrees n (.leaving p) (.leaving p')
  | gone : Agrees n .gone .gone

/-- The copies are the same but for hooks that are cut off, and not before `n` actions. -/
inductive Copy.Agrees (n : Nat) : Copy → Copy → Prop
  | mk {o : OpenOperator} {k k' : Nat} (hk : n ≤ k) (hk' : n ≤ k') (own : Local)
      {task : Task (o.cutOff k)} {task' : Task (o.cutOff k')} (h : task.Agrees n task') :
      Agrees n ⟨o.cutOff k, own, task⟩ ⟨o.cutOff k', own, task'⟩

namespace Copy

section Tasks

variable {op : Operator} {own : Local}

theorem step_beginning {p : Program (op.State × Except Fault Unit)} (hp : p.isDone = false)
    (s : Shared) : step ⟨op, own, .beginning p⟩ s =
      (⟨op, (p.step own s).2.1, .beginning (p.step own s).1⟩, (p.step own s).2.2) := by
  cases p with
  | done a => cases hp
  | _ => rfl

theorem step_working {p : Program (op.State × Turn)} (hp : p.isDone = false) (s : Shared) :
    step ⟨op, own, .working p⟩ s =
      (⟨op, (p.step own s).2.1, .working (p.step own s).1⟩, (p.step own s).2.2) := by
  cases p with
  | done a => cases hp
  | _ => rfl

theorem step_leaving {p : Program Unit} (hp : p.isDone = false) (s : Shared) :
    step ⟨op, own, .leaving p⟩ s =
      (⟨op, (p.step own s).2.1, .leaving (p.step own s).1⟩, (p.step own s).2.2) := by
  cases p with
  | done a => cases hp
  | _ => rfl

end Tasks

namespace Agrees

variable {n : Nat} {c c' : Copy}

theorem mono {n' : Nat} (h : c.Agrees n c') (hle : n' ≤ n) : c.Agrees n' c' := by
  obtain ⟨hk, hk', own, h⟩ := h
  refine ⟨Nat.le_trans hle hk, Nat.le_trans hle hk', own, ?_⟩
  cases h with
  | created => exact .created
  | beginning h => exact .beginning (h.mono hle)
  | ready m => exact .ready m
  | refused m f => exact .refused m f
  | working h => exact .working (h.mono hle)
  | leaving h => exact .leaving (h.mono hle)
  | gone => exact .gone

theorem own (h : c.Agrees n c') : c'.own = c.own := by
  cases h
  rfl

theorem canceller (h : c.Agrees n c') : c'.op.canceller = c.op.canceller := by
  cases h
  rfl

theorem isGone (h : c.Agrees n c') : c'.isGone = c.isGone := by
  obtain ⟨-, -, -, h⟩ := h
  cases h <;> rfl

theorem hasBegun (h : c.Agrees n c') : c'.hasBegun = c.hasBegun := by
  obtain ⟨-, -, -, h⟩ := h
  cases h <;> rfl

theorem refusal? (h : c.Agrees n c') : c'.refusal? = c.refusal? := by
  obtain ⟨-, -, -, h⟩ := h
  cases h <;> rfl

/-- A step takes one action off, and does the same for what is shared. -/
theorem step (h : c.Agrees (n + 1) c') (s : Shared) :
    (c.step s).1.Agrees n (c'.step s).1 ∧ (c'.step s).2 = (c.step s).2 := by
  obtain ⟨hk, hk', own, h⟩ := h
  have hk := Nat.le_of_succ_le hk
  have hk' := Nat.le_of_succ_le hk'
  cases h with
  | created => exact ⟨⟨hk, hk', own, .created⟩, rfl⟩
  | ready m => exact ⟨⟨hk, hk', own, .ready m⟩, rfl⟩
  | refused m f => exact ⟨⟨hk, hk', own, .refused m f⟩, rfl⟩
  | gone => exact ⟨⟨hk, hk', own, .gone⟩, rfl⟩
  | @beginning p p' h =>
    cases hdone : p.isDone with
    | false =>
      obtain ⟨hstep, heq⟩ := h.step (l := own) (s := s)
      rw [step_beginning hdone, step_beginning (h.isDone.trans hdone), heq]
      exact ⟨⟨hk, hk', _, .beginning hstep⟩, rfl⟩
    | true =>
      cases h with
      | done a =>
        obtain ⟨m, f | ⟨⟩⟩ := a
        · exact ⟨⟨hk, hk', own, .refused m f⟩, rfl⟩
        · exact ⟨⟨hk, hk', own, .ready m⟩, rfl⟩
      | _ => cases hdone
  | @working p p' h =>
    cases hdone : p.isDone with
    | false =>
      obtain ⟨hstep, heq⟩ := h.step (l := own) (s := s)
      rw [step_working hdone, step_working (h.isDone.trans hdone), heq]
      exact ⟨⟨hk, hk', _, .working hstep⟩, rfl⟩
    | true =>
      cases h with
      | done a =>
        obtain ⟨m, _ | outcome⟩ := a
        · exact ⟨⟨hk, hk', own, .working ((OpenOperator.agrees hk hk' _).round m)⟩, rfl⟩
        · exact ⟨⟨hk, hk', own, .leaving ((OpenOperator.agrees hk hk' _).leave m outcome)⟩, rfl⟩
      | _ => cases hdone
  | @leaving p p' h =>
    cases hdone : p.isDone with
    | false =>
      obtain ⟨hstep, heq⟩ := h.step (l := own) (s := s)
      rw [step_leaving hdone, step_leaving (h.isDone.trans hdone), heq]
      exact ⟨⟨hk, hk', _, .leaving hstep⟩, rfl⟩
    | true =>
      cases h with
      | done a => exact ⟨⟨hk, hk', own, .gone⟩, rfl⟩
      | _ => cases hdone

theorem toBegin (h : c.Agrees n c') : c.toBegin.Agrees n c'.toBegin := by
  have hsame := h
  obtain ⟨hk, hk', own, h⟩ := h
  cases h with
  | created => exact ⟨hk, hk', own, .beginning ((OpenOperator.agrees hk hk' _).begin _)⟩
  | _ => exact hsame

theorem toWork (h : c.Agrees n c') : c.toWork.Agrees n c'.toWork := by
  have hsame := h
  obtain ⟨hk, hk', own, h⟩ := h
  cases h with
  | ready m => exact ⟨hk, hk', own, .working (.refl n _)⟩
  | _ => exact hsame

theorem toAbandon (h : c.Agrees n c') : c.toAbandon.Agrees n c'.toAbandon := by
  have hsame := h
  obtain ⟨hk, hk', own, h⟩ := h
  cases h with
  | ready m | refused m => exact ⟨hk, hk', own, .leaving ((OpenOperator.agrees hk hk' _).abandon m)⟩
  | _ => exact hsame

theorem cancel (h : c.Agrees n c') : Agrees n { c with own := { c.own with cancelled := true } }
    { c' with own := { c'.own with cancelled := true } } := by
  obtain ⟨hk, hk', own, h⟩ := h
  exact ⟨hk, hk', _, h⟩

end Agrees
end Copy

section Lists

variable {α : Type 1} {R : α → α → Prop} {xs ys : List α}

/-- The elements at a place of two lists that are related one by one. -/
theorem forall₂_getElem? (h : List.Forall₂ R xs ys) (i : Nat) :
    xs[i]? = none ∧ ys[i]? = none ∨ ∃ x y, xs[i]? = some x ∧ ys[i]? = some y ∧ R x y := by
  induction h generalizing i with
  | nil => exact .inl ⟨rfl, rfl⟩
  | @cons x y xs ys hxy h ih =>
    cases i with
    | zero => exact .inr ⟨x, y, rfl, rfl, hxy⟩
    | succ i => simpa using ih i

theorem forall₂_set (h : List.Forall₂ R xs ys) (i : Nat) {x y : α} (hxy : R x y) :
    List.Forall₂ R (xs.set i x) (ys.set i y) := by
  induction h generalizing i with
  | nil => exact .nil
  | cons hhead h ih =>
    cases i with
    | zero => exact .cons hxy h
    | succ i => exact .cons hhead (ih i)

theorem forall₂_modify (h : List.Forall₂ R xs ys) (i : Nat) {f : α → α}
    (hf : ∀ x y, R x y → R (f x) (f y)) : List.Forall₂ R (xs.modify i f) (ys.modify i f) := by
  induction h generalizing i with
  | nil => simp
  | cons hhead h ih =>
    cases i with
    | zero => exact .cons (hf _ _ hhead) h
    | succ i => exact .cons hhead (ih i)

/-- What is read off each element in the same way is the same list. -/
theorem map_eq_of_forall₂ {β : Type*} {f : α → β} (h : List.Forall₂ R xs ys)
    (hf : ∀ x y, R x y → f y = f x) : ys.map f = xs.map f := by
  induction h with
  | nil => rfl
  | cons hhead h ih => rw [List.map_cons, List.map_cons, ih, hf _ _ hhead]

theorem all_eq_of_forall₂ {f : α → Bool} (h : List.Forall₂ R xs ys)
    (hf : ∀ x y, R x y → f y = f x) : ys.all f = xs.all f := by
  induction h with
  | nil => rfl
  | cons hhead h ih => rw [List.all_cons, List.all_cons, ih, hf _ _ hhead]

end Lists

structure Net.Agrees (n : Nat) (net net' : Net) : Prop where
  copies : List.Forall₂ (Copy.Agrees n) net.copies net'.copies
  shared : net'.shared = net.shared

namespace Net.Agrees

variable {n : Nat} {net net' : Net}

theorem mono {n' : Nat} (h : net.Agrees n net') (hle : n' ≤ n) : net.Agrees n' net' :=
  ⟨h.copies.imp fun _ _ hc => hc.mono hle, h.shared⟩

theorem step (h : net.Agrees (n + 1) net') (place : Nat) :
    (net.step place).Agrees n (net'.step place) := by
  rcases forall₂_getElem? h.copies place with ⟨hx, hy⟩ | ⟨c, c', hx, hy, hc⟩
  · simpa [Net.step, hx, hy] using h.mono (Nat.le_succ n)
  · obtain ⟨hstep, hshared⟩ := hc.step net.shared
    simp only [Net.step, hx, hy, h.shared]
    exact ⟨forall₂_set (h.copies.imp fun _ _ hc => hc.mono (Nat.le_succ n)) place hstep, hshared⟩

theorem modify (h : net.Agrees n net') (place : Nat) {f : Copy → Copy}
    (hf : ∀ c c', c.Agrees n c' → (f c).Agrees n (f c')) :
    (net.modify place f).Agrees n (net'.modify place f) :=
  ⟨forall₂_modify h.copies place hf, h.shared⟩

theorem modifyAll (h : net.Agrees n net') {f : Copy → Copy}
    (hf : ∀ c c', c.Agrees n c' → (f c).Agrees n (f c')) :
    (net.modifyAll f).Agrees n (net'.modifyAll f) :=
  ⟨List.forall₂_map_left_iff.mpr (List.forall₂_map_right_iff.mpr (h.copies.imp hf)), h.shared⟩

theorem allGone (h : net.Agrees n net') : net'.allGone = net.allGone :=
  all_eq_of_forall₂ h.copies fun _ _ hc => hc.isGone

theorem haveAllBegun (h : net.Agrees n net') : net'.haveAllBegun = net.haveAllBegun :=
  all_eq_of_forall₂ h.copies fun _ _ hc => hc.hasBegun

end Net.Agrees

/-- The runs are the same but for hooks that are cut off, and not before `n` moves. -/
structure Run.Agrees (n : Nat) (r r' : Run) : Prop where
  name : r'.name = r.name
  config : r'.config = r.config
  net : r.net.Agrees n r'.net
  phase : r'.phase = r.phase
  cancellable : r'.cancellable = r.cancellable
  stops : r'.stops = r.stops

namespace Run.Agrees

variable {n : Nat} {r r' : Run}

theorem mono {n' : Nat} (h : r.Agrees n r') (hle : n' ≤ n) : r.Agrees n' r' :=
  ⟨h.name, h.config, h.net.mono hle, h.phase, h.cancellable, h.stops⟩

theorem refusal? (h : r.Agrees n r') : r'.refusal? = r.refusal? := by
  have hmap := map_eq_of_forall₂
    (f := fun c => c.refusal?.map fun fault => ({ step := c.own.info.name, fault } : Refusal))
    h.net.copies fun c c' hc => by rw [hc.refusal?, hc.own]
  have hfind : ∀ r : Run, r.refusal? = (r.net.copies.map fun c =>
      c.refusal?.map fun fault => ({ step := c.own.info.name, fault } : Refusal)).findSome? id :=
    fun r => by simp [Run.refusal?, List.findSome?_map]
  rw [hfind, hfind, hmap]

theorem cancellers (h : r.Agrees n r') : r'.cancellers = r.cancellers := by
  have hmap := map_eq_of_forall₂ (f := fun c => c.op.canceller.isSome) h.net.copies
    fun c c' hc => by rw [hc.canceller]
  have hplaces : ∀ r : Run, r.cancellers =
      (((r.net.copies.map fun c => c.op.canceller.isSome).zipIdx.filter (·.1)).map (·.2)) :=
    fun r => by simp [Run.cancellers, List.zipIdx_map, List.filter_map, Function.comp_def]
  rw [hplaces, hplaces, hmap]

theorem setControl (h : r.Agrees n r') (f : Control → Control) :
    (r.setControl f).Agrees n (r'.setControl f) :=
  { h with net := ⟨h.net.copies, by simp only [Run.setControl, h.net.shared]⟩ }

theorem withPhase (h : r.Agrees n r') (p : Phase) :
    Agrees n { r with phase := p } { r' with phase := p } :=
  { h with phase := rfl }

/-- A move of the chief. -/
theorem chief (h : r.Agrees n r') : (r.chief?.getD r).Agrees n (r'.chief?.getD r') := by
  have hphase := h.phase
  cases hp : r.phase with
  | preparing =>
    simp only [Run.chief?, hp, hphase.trans hp, h.net.haveAllBegun, h.refusal?, h.cancellers]
    cases r.net.haveAllBegun with
    | false => exact h
    | true =>
      cases r.refusal? with
      | none => exact { h with phase := rfl, cancellable := rfl }
      | some refusal => exact h.withPhase _
  | refusing refusal =>
    simp only [Run.chief?, hp, hphase.trans hp]
    exact (h.setControl _).withPhase _
  | halting refusal =>
    simp only [Run.chief?, hp, hphase.trans hp]
    exact (h.setControl _).withPhase _
  | abandoning refusal gone =>
    simp only [Run.chief?, hp, hphase.trans hp]
    rcases forall₂_getElem? h.net.copies gone with ⟨hx, hy⟩ | ⟨c, c', hx, hy, hc⟩
    · simp only [hx, hy]
      exact h.withPhase _
    · simp only [hx, hy, hc.isGone, hc.hasBegun]
      split
      · exact h.withPhase _
      · split
        · exact { h with phase := rfl, net := h.net.modify gone fun _ _ hc => hc.toAbandon }
        · exact h
  | _ =>
    simp only [Run.chief?, hp, hphase.trans hp]
    exact h

/-- A move of a request to stop. -/
theorem stopCall (h : r.Agrees n r') (call : StopCall) :
    r.stopCall? call = none ∧ r'.stopCall? call = none ∨
      ∃ s s' call', r.stopCall? call = some (s, call') ∧ r'.stopCall? call = some (s', call') ∧
        s.Agrees n s' := by
  cases call with
  | giveReason => exact .inr ⟨_, _, _, rfl, rfl, h.setControl _⟩
  | raiseFlag => exact .inr ⟨_, _, _, rfl, rfl, h.setControl _⟩
  | lookUp => exact .inr ⟨r, r', .cancel r.cancellable, rfl, by rw [← h.cancellable]; rfl, h⟩
  | cancel places =>
    cases places with
    | nil => exact .inr ⟨_, _, _, rfl, rfl, h⟩
    | cons place rest =>
      exact .inr ⟨_, _, _, rfl, rfl, { h with net := h.net.modify place fun _ _ hc => hc.cancel }⟩
  | done => exact .inl ⟨rfl, rfl⟩

theorem stop (h : r.Agrees n r') (place : Nat) :
    (r.happen (.stop place)).Agrees n (r'.happen (.stop place)) := by
  simp only [Run.happen, Run.move?, h.stops]
  cases r.stops[place]? with
  | none => exact h
  | some call =>
    rcases h.stopCall call with ⟨hx, hy⟩ | ⟨s, s', call', hx, hy, hs⟩
    · simp only [hx, hy]
      exact h
    · simp only [hx, hy]
      exact { hs with stops := by simp only [Option.map_some, Option.getD_some, hs.stops] }

/-- Every event takes one move off. -/
theorem happen (h : r.Agrees (n + 1) r') (e : Run.Event) : (r.happen e).Agrees n (r'.happen e) := by
  have hsame := h.mono (Nat.le_succ n)
  cases e with
  | prepare =>
    simp only [Run.happen, Run.beginPreparation, h.phase]
    by_cases hp : r.phase = .created
    · simp only [hp, if_true]
      exact { hsame with phase := rfl, net := hsame.net.modifyAll fun _ _ hc => hc.toBegin }
    · simpa only [hp, if_false] using hsame
  | start =>
    simp only [Run.happen, Run.start, h.phase]
    by_cases hp : r.phase = .prepared
    · simp only [hp, if_true]
      exact { hsame with phase := rfl, net := hsame.net.modifyAll fun _ _ hc => hc.toWork }
    · simpa only [hp, if_false] using hsame
  | requestStop =>
    exact { hsame with stops := by simp only [Run.happen, Run.requestStop, h.stops] }
  | finish =>
    simp only [Run.happen, Run.finish, h.phase, h.net.allGone]
    split
    · exact { hsame with phase := rfl }
    · exact hsame
  | copy place => exact { hsame with net := h.net.step place }
  | chief => exact hsame.chief
  | stop place => exact hsame.stop place

theorem after (h : r.Agrees n r') {events : List Run.Event} (hle : events.length ≤ n) :
    (r.after events).Agrees (n - events.length) (r'.after events) := by
  induction events generalizing r r' n with
  | nil => exact h
  | cons e rest ih =>
    obtain ⟨n, rfl⟩ : ∃ m, n = m + 1 := ⟨n - 1, by simp at hle; omega⟩
    have hrest : rest.length ≤ n := by simpa using hle
    have hlength : n + 1 - (e :: rest).length = n - rest.length := by simp
    rw [hlength]
    exact ih (h.happen e) hrest

end Run.Agrees

abbrev OpenRegistry := KeyMap (StepInfo → Except Fault OpenOperator)

namespace OpenRegistry

/-- Both fail with the same fault, or both come to things that are related. -/
inductive Alike {α : Type 1} (R : α → α → Prop) : Except Fault α → Except Fault α → Prop
  | ok {a a' : α} (h : R a a') : Alike R (.ok a) (.ok a')
  | error (f : Fault) : Alike R (.error f) (.error f)

theorem Alike.mapM {α : Type 1} {β : Type} {R : α → α → Prop} {f f' : β → Except Fault α}
    (h : ∀ x, Alike R (f x) (f' x)) (xs : List β) :
    Alike (List.Forall₂ R) (xs.mapM f) (xs.mapM f') := by
  induction xs with
  | nil => exact .ok .nil
  | cons x xs ih =>
    have hx := h x
    rw [List.mapM_cons, List.mapM_cons]
    generalize f x = y at hx ⊢
    generalize f' x = y' at hx ⊢
    generalize xs.mapM f = ys at ih ⊢
    generalize xs.mapM f' = ys' at ih ⊢
    cases hx with
    | error fault => exact .error fault
    | ok hx =>
      cases ih with
      | error fault => exact .error fault
      | ok hxs => exact .ok (.cons hx hxs)

def cutOff (registry : OpenRegistry) (n : Nat) : Registry where
  entries := registry.entries.map fun e => (e.1, fun i => (e.2 i).map (·.cutOff n))
  sorted := List.pairwise_map.mpr registry.sorted

inductive Cuts (n : Nat) : Operator → Operator → Prop
  | mk (o : OpenOperator) {k k' : Nat} (hk : n ≤ k) (hk' : n ≤ k') :
      Cuts n (o.cutOff k) (o.cutOff k')

theorem find?_cutOff (registry : OpenRegistry) (n : Nat) (key : String) :
    (registry.cutOff n).find? key =
      (registry.find? key).map fun maker i => (maker i).map (·.cutOff n) := by
  obtain ⟨entries, hsorted⟩ := registry
  simp only [KeyMap.find?, cutOff]
  clear hsorted
  induction entries with
  | nil => rfl
  | cons e rest ih =>
    obtain ⟨key', maker⟩ := e
    simp only [List.map_cons, List.lookup_cons]
    cases key == key' with
    | true => rfl
    | false => exact ih

variable {n k k' : Nat} (hk : n ≤ k) (hk' : n ≤ k') (registry : OpenRegistry)
include hk hk'

theorem create (key : String) (i : StepInfo) : Alike (Cuts n)
    ((registry.cutOff k).create key i) ((registry.cutOff k').create key i) := by
  rw [Registry.create, Registry.create, find?_cutOff, find?_cutOff]
  cases registry.find? key with
  | none => exact .error _
  | some maker =>
    simp only [Option.map_some]
    cases maker i with
    | error f => exact .error f
    | ok o => exact .ok (.mk o hk hk')

theorem makeCopy (s : Plan.Step) (copy : Nat) (w : Plan.CopyWiring) : Alike (Copy.Agrees n)
    (Run.makeCopy (registry.cutOff k) s copy w) (Run.makeCopy (registry.cutOff k') s copy w) := by
  have hcreate := registry.create hk hk' s.definition.plugin (Run.infoOf s copy)
  unfold Run.makeCopy
  generalize (registry.cutOff k).create _ _ = x at hcreate ⊢
  generalize (registry.cutOff k').create _ _ = y at hcreate ⊢
  cases hcreate with
  | error f => exact .error f
  | ok h =>
    obtain ⟨o, hk, hk'⟩ := h
    dsimp only
    split
    · exact .error _
    · exact .ok ⟨hk, hk', _, .created⟩

theorem makeCopies (p : Plan) : Alike (List.Forall₂ (Copy.Agrees n))
    (Run.makeCopies (registry.cutOff k) p) (Run.makeCopies (registry.cutOff k') p) := by
  unfold Run.makeCopies
  exact .mapM (fun ⟨s, copy, w⟩ => registry.makeCopy hk hk' s copy w) _

theorem make (d : Definition) (config : Config) : Alike (Run.Agrees n)
    (Run.make d (registry.cutOff k) config) (Run.make d (registry.cutOff k') config) := by
  unfold Run.make
  split
  · exact .error _
  · split
    · exact .error _
    · next plan _ =>
      have hcopies := registry.makeCopies hk hk' plan
      generalize Run.makeCopies (registry.cutOff k) plan = x at hcopies ⊢
      generalize Run.makeCopies (registry.cutOff k') plan = y at hcopies ⊢
      cases hcopies with
      | error f => exact .error f
      | ok h => exact .ok ⟨rfl, rfl, ⟨h, rfl⟩, rfl, rfl, rfl⟩

end OpenRegistry

/-- A run with operators that are cut off after `k` requests goes the way of one with operators
that are cut off later, as long as nothing has moved more often than `k` times. -/
theorem Run.agrees_after (registry : OpenRegistry) (d : Definition) (config : Config) {k k' : Nat}
    (hk : k ≤ k') {events : List Run.Event} (hle : events.length ≤ k) {r : Run}
    (h : Run.make d (registry.cutOff k) config = .ok r) :
    ∃ r', Run.make d (registry.cutOff k') config = .ok r' ∧
      (r.after events).Agrees (k - events.length) (r'.after events) := by
  have hmake := registry.make (Nat.le_refl k) hk d config
  rw [h] at hmake
  generalize Run.make d (registry.cutOff k') config = y at hmake ⊢
  cases hmake with
  | ok hagrees => exact ⟨_, rfl, hagrees.after hle⟩

end RowFlow
