import Mathlib.Logic.Function.Basic
import RowFlow.Proofs.Copy.Contract
import RowFlow.Run.Turns

/-
Courses of runs.  An event is anything that can happen to a run, in any order: a call
from outside that takes effect or is turned away, or a single move of a copy, of the
chief or of a request to stop.  A course is a list of events.  Copies that wait may
try again in vain, which the drivers of a run leave out; so every run that a driver
sees through is a course, but there are more courses than drivers.

A record keeps what each copy has done besides what the run has come to.
-/
namespace RowFlow
namespace Run

inductive Event where
  | prepare
  | start
  | requestStop
  | finish
  | copy (place : Nat)
  | chief
  | stop (place : Nat)
deriving DecidableEq, Repr

/-- The run after an event; one that comes at the wrong time changes nothing. -/
def happen (r : Run) : Event → Run
  | .prepare => match r.beginPreparation with
    | .ok r => r
    | .error _ => r
  | .start => match r.start with
    | .ok r => r
    | .error _ => r
  | .requestStop => r.requestStop
  | .finish => r.finish
  | .copy place => { r with net := r.net.step place }
  | .chief => r.chief?.getD r
  | .stop place => (r.move? (.stop place)).getD r

def after (r : Run) (events : List Event) : Run := events.foldl happen r

@[simp] theorem after_nil (r : Run) : r.after [] = r := rfl

@[simp] theorem after_cons (r : Run) (e : Event) (events : List Event) :
    r.after (e :: events) = (r.happen e).after events := rfl

theorem after_append (r : Run) (xs ys : List Event) : r.after (xs ++ ys) = (r.after xs).after ys :=
  List.foldl_append

theorem after_concat (r : Run) (events : List Event) (e : Event) :
    r.after (events ++ [e]) = (r.after events).happen e := r.after_append events [e]

end Run

/-- A run with what each of its copies has done, the latest first. -/
structure Record where
  run : Run
  past : Nat → List Deed := fun _ => []

namespace Record

def deed? (t : Record) (place : Nat) : Option Deed :=
  t.run.net.copies[place]?.bind fun c => c.deed? t.run.net.shared

def happen (t : Record) (e : Run.Event) : Record where
  run := t.run.happen e
  past := match e with
    | .copy place => Function.update t.past place ((t.deed? place).toList ++ t.past place)
    | _ => t.past

def after (t : Record) (events : List Run.Event) : Record := events.foldl happen t

@[simp] theorem after_nil (t : Record) : t.after [] = t := rfl

theorem after_append (t : Record) (xs ys : List Run.Event) :
    t.after (xs ++ ys) = (t.after xs).after ys := List.foldl_append

@[simp] theorem run_after (t : Record) (events : List Run.Event) :
    (t.after events).run = t.run.after events := by
  induction events generalizing t with
  | nil => rfl
  | cons e rest ih => exact ih (t.happen e)

/-- A condition that every event keeps holds all the way. -/
theorem after_induction {P : Record → Prop} {t : Record} (h : P t)
    (step : ∀ t e, P t → P (t.happen e)) (events : List Run.Event) : P (t.after events) := by
  induction events generalizing t with
  | nil => exact h
  | cons e rest ih => exact ih (step t e h)

end Record

namespace Run

def record (r : Run) (events : List Event) : Record := ({ run := r } : Record).after events

theorem past_happen (t : Record) (e : Event) (place : Nat) :
    (t.happen e).past place =
      ((({ run := t.run } : Record).happen e).past place) ++ t.past place := by
  cases e with
  | copy moved =>
    by_cases hplace : place = moved
    · subst hplace
      simp only [Record.happen, Function.update_self, List.append_nil]
      rfl
    · simp only [Record.happen, Function.update_of_ne hplace, List.nil_append]
  | _ => rfl

/-- What copies do is added to what they have done. -/
theorem past_after (t : Record) (events : List Event) (place : Nat) :
    (t.after events).past place = (t.run.record events).past place ++ t.past place := by
  induction events generalizing t with
  | nil => rfl
  | cons e rest ih =>
    show ((t.happen e).after rest).past place =
      ((({ run := t.run } : Record).happen e).after rest).past place ++ t.past place
    rw [ih, ih, past_happen, List.append_assoc]
    rfl

theorem past_record_append (r : Run) (xs ys : List Event) (place : Nat) :
    (r.record (xs ++ ys)).past place =
      ((r.after xs).record ys).past place ++ (r.record xs).past place := by
  rw [record, Record.after_append, past_after, Record.run_after]
  rfl

def Leads (r r' : Run) : Prop := ∃ events, r' = r.after events

namespace Leads

theorem refl (r : Run) : r.Leads r := ⟨[], rfl⟩

theorem trans {r r' r'' : Run} (h : r.Leads r') (h' : r'.Leads r'') : r.Leads r'' := by
  obtain ⟨xs, rfl⟩ := h
  obtain ⟨ys, rfl⟩ := h'
  exact ⟨xs ++ ys, (after_append _ _ _).symm⟩

theorem happen (r : Run) (e : Event) : r.Leads (r.happen e) := ⟨[e], rfl⟩

end Leads

/-- A move that is possible is an event. -/
theorem leads_move {r r' : Run} {m : Move} (h : r.move? m = some r') : r.Leads r' := by
  cases m with
  | copy place =>
    simp only [move?, Option.ite_none_right_eq_some, Option.some.injEq] at h
    exact ⟨[.copy place], h.2.symm⟩
  | chief => exact ⟨[.chief], by simp [Run.happen, show r.chief? = some r' from h]⟩
  | stop place => exact ⟨[.stop place], by simp [Run.happen, h]⟩

theorem leads_sweep (r : Run) (moves : List Move) : r.Leads (r.sweep moves).1 := by
  induction moves generalizing r with
  | nil => exact .refl r
  | cons m rest ih =>
    unfold sweep
    split
    · exact ih r
    · next r' h => exact (leads_move h).trans (ih r')

theorem leads_drive (goal : Run → Bool) (rounds : Nat) (r : Run) :
    r.Leads (r.drive goal rounds) := by
  induction rounds generalizing r with
  | zero => exact .refl r
  | succ rounds ih =>
    have hs := r.leads_sweep r.moves
    unfold drive
    split
    · exact .refl r
    · split
      · next r' h => rw [h] at hs; exact hs.trans (ih r')
      · next r' h => rw [h] at hs; exact hs

theorem leads_prepare (r : Run) : r.Leads r.prepare.1 := by
  unfold prepare
  split
  · exact .refl r
  · next r' h =>
    have hr : r.Leads r' := ⟨[.prepare], by simp [happen, h]⟩
    exact hr.trans (r'.leads_drive isSettled patience)

theorem leads_startWork (r : Run) : r.Leads r.startWork.1 := by
  unfold startWork
  split
  · exact .refl r
  · next r' h => exact ⟨[.start], by simp [happen, h]⟩

theorem leads_execute (r : Run) : r.Leads r.execute.1 := by
  have hp := r.leads_prepare
  unfold execute
  split
  · next r' f h => rw [h] at hp; exact hp
  · next r' h => rw [h] at hp; exact hp.trans r'.leads_startWork

theorem leads_await (r : Run) : r.Leads r.await.1 := by
  unfold await
  split
  · exact .refl r
  · exact (r.leads_drive _ patience).trans (.happen _ .finish)

theorem leads_complete (r : Run) : r.Leads r.complete.1 := by
  have he := r.leads_execute
  unfold complete
  split
  · next r' f h => rw [h] at he; exact he
  · next r' h => rw [h] at he; exact he.trans r'.leads_await

theorem leads_stopAll (r : Run) : r.Leads r.stopAll :=
  Leads.trans ⟨[.requestStop], rfl⟩ (leads_sweep _ _)

end Run
end RowFlow
