import RowFlow.Proofs.Refusal.Foreseen
import RowFlow.Proofs.Verdict.Truth

/-
The end of a run that could not start: what each copy has done by then, and what the run has
come to.
-/
namespace RowFlow

open Doing

/-- What the copy has done when it is gone without having worked, and how it is published. -/
structure Copy.Spent (c : Copy) (ds : List Doing) (l : Local) : Prop where
  errors : errorsTold ds = c.failure?.isSome.toNat +
    ((ds.any (faults .dispose)).toNat + errorsTold (during .dispose ds))
  unworked : ∀ d ∈ ds, d.enters .process = false
  status : l.status =
    ⟨.disposed, some (if c.failure?.isSome then .failed else .stopped)⟩

def StepResult.Spent (c : Copy) (s : StepResult) : Prop :=
  s.step = c.own.info.name ∧ s.copy = c.own.info.copy ∧ s.state = .disposed ∧
    s.outcome = some (if c.failure?.isSome then .failed else .stopped)

namespace Copy

variable {c : Copy} {ds : List Doing} {l : Local}

theorem spent_of_givenUp (hfresh : c.own.status = {}) (hending : c.ending?.isSome = true)
    (h : c.op.GivenUp c.own ds l) : c.Spent ds l := by
  cases h with
  | @mk bs ds k _ x hbegin habandon =>
    obtain ⟨hbegun, honly⟩ := Program.begun_of_runs hfresh hending hbegin
    obtain ⟨hstatus, hdisposes⟩ := Program.abandoned_of_runs habandon
    have hbefore := fun d hd => honly d hd .dispose (by decide)
    refine ⟨?_, ?_, ?_⟩
    · have hnone : bs.any (faults .dispose) = false :=
        List.any_eq_false.mpr fun d hd => by simp [(hbefore d hd).2]
      rw [errorsTold_append, hbegun.heard.errorsTold, hdisposes.errors, List.any_append, hnone,
        Bool.false_or, during_append fun d hd => (hbefore d hd).1]
    · exact List.forall_mem_append.mpr ⟨fun d hd => (honly d hd .process (by decide)).1,
        fun d hd => (hdisposes.only d hd .process (by decide)).1⟩
    · rw [hstatus, hbegun.outcome]

end Copy

namespace Run

variable {d : Definition} {registry : Registry} {config : Config} {plan : Plan} {r : Run}
  {events : List Event} {x : Refusal}

def failedEnds (r : Run) (events : List Event) : Nat :=
  (List.range r.net.copies.length).countP fun place =>
    (r.did events place).any (faults .dispose)

/-- How many errors the hooks for the end have counted by themselves. -/
def endErrors (r : Run) (events : List Event) : Nat :=
  ((List.range r.net.copies.length).map fun place =>
    errorsTold (during .dispose (r.did events place))).sum

/-- What a run has come to that could not start. -/
structure Refused (r : Run) (x : Refusal) (events : List Event) : Prop where
  answer : (r.after events).preparationAnswer = .error x.fault
  unworked : ∀ place, ∀ d ∈ r.did events place, d.enters .process = false
  waited : (r.after events).await = (r.after events, .ok (r.after events).result)
  status : (r.after events).result.status = .failed
  reason : (r.after events).result.stopReason = some (r.reasonAhead x)
  errors : (r.after events).result.errors =
    r.failures + (r.failedEnds events + r.endErrors events)
  steps : List.Forall₂ StepResult.Spent r.net.copies (r.after events).result.steps

section Over

variable (hmade : Made d registry config plan r)
  (hstarts : ∀ c ∈ r.net.copies, c.ending?.isSome = true)
  (hphase : (r.after events).phase = .refused x)
include hmade hstarts hphase

theorem spent_after {place : Nat} {c₀ : Copy} (hc₀ : r.net.copies[place]? = some c₀) :
    ∃ c, (r.after events).net.copies[place]? = some c ∧ c₀.Becomes c ∧
      c₀.Spent (r.did events place) c.own := by
  have hlt : place < (r.after events).net.copies.length := by
    rw [length_copies_after]
    exact (List.getElem?_eq_some_iff.mp hc₀).1
  have hc := List.getElem?_eq_getElem hlt
  generalize (r.after events).net.copies[place] = c at hc
  have hmem := List.mem_of_getElem? hc₀
  obtain ⟨c₁, hc₁, hbecomes⟩ := becomes_after events hc
  obtain rfl := Option.some.inj (hc₀.symm.trans hc₁)
  obtain ⟨_, _, _, _, hown⟩ := hmade.own_fresh hmem
  have hgone := (hmade.staged.after events).kinds c (List.mem_of_getElem? hc)
  rw [hphase] at hgone
  have hattempts := attempts_after hmade.staged hc₀ (hmade.isMade hmem).choose_spec.kind events
    (by rw [hphase]; rfl) c hc
  refine ⟨c, hc, hbecomes, Copy.spent_of_givenUp (by rw [hown]; rfl) (hstarts _ hmem) ?_⟩
  obtain ⟨op, own, task⟩ := c
  rw [← hbecomes.op]
  cases task with
  | gone => exact hattempts
  | _ => cases hgone

theorem errors_of_refused : (r.after events).control.errors =
    r.failures + (r.failedEnds events + r.endErrors events) := by
  have hnone : r.control.errors = 0 := by
    rw [control, hmade.shared]
    rfl
  have hplaces : ∀ place ∈ List.range r.net.copies.length, errorsTold (r.did events place) =
      (r.net.copies[place]?.any fun c => c.failure?.isSome).toNat +
        (((r.did events place).any (faults .dispose)).toNat +
          errorsTold (during .dispose (r.did events place))) := by
    intro place hplace
    have hc₀ := List.getElem?_eq_getElem (List.mem_range.mp hplace)
    obtain ⟨c, -, -, h⟩ := spent_after hmade hstarts hphase hc₀
    rw [h.errors, hc₀]
    rfl
  have hfailures : ((List.range r.net.copies.length).map fun place =>
      (r.net.copies[place]?.any fun c => c.failure?.isSome).toNat).sum = r.failures := by
    rw [failures, ← sum_toNat]
    refine sum_range_length fun place c hc => ?_
    rw [hc]
    rfl
  rw [(tallied_after hnone events).errors, List.map_congr_left hplaces, List.sum_map_add,
    List.sum_map_add, hfailures, sum_toNat]
  rfl

theorem steps_of_refused : List.Forall₂ StepResult.Spent r.net.copies
    (r.after events).result.steps := by
  refine List.forall₂_iff_get.mpr ⟨?_, fun place hlt hlt' => ?_⟩
  · show _ = ((r.after events).net.copies.map _).length
    rw [List.length_map, length_copies_after]
  obtain ⟨c, hc, hbecomes, h⟩ :=
    spent_after hmade hstarts hphase (List.getElem?_eq_getElem hlt)
  have hinfo : c.own.info = _ := Local.info_of_origin hbecomes.origin
  obtain ⟨hlt₁, hget⟩ := List.getElem?_eq_some_iff.mp hc
  simp only [List.get_eq_getElem, result, RunResult.ofSteps, stepResults, List.getElem_map, hget,
    StepResult.Spent, hinfo, h.status, true_and, Option.map_some, Option.some.injEq]
  split <;> rfl

end Over

/-- However the copies of a run begin that cannot start, what it comes to is the same. -/
theorem refused_of_isOver (hmade : Made d registry config plan r)
    (hstarts : ∀ c ∈ r.net.copies, c.ending?.isSome = true) (hx : r.refusalAhead? = some x)
    (hcalm : .requestStop ∉ events) (hover : (r.after events).IsOver) :
    r.Refused x events := by
  have hforeseen := foreseen_after hmade hstarts hx hcalm
  obtain ⟨hphase, hreason⟩ : (r.after events).phase = .refused x ∧
      (r.after events).control.reason = some (r.reasonAhead x) := by
    rcases hover with hp | ⟨y, hp⟩
    · rw [hp] at hforeseen
      exact hforeseen.elim
    · rw [hp] at hforeseen
      exact ⟨by rw [hp, hforeseen.1], hforeseen.2⟩
  have hsteps := steps_of_refused hmade hstarts hphase
  refine ⟨?_, fun place d hd => ?_, (hmade.staged.after events).await_of_isOver hover, ?_, hreason,
    errors_of_refused hmade hstarts hphase, hsteps⟩
  · rw [preparationAnswer, hphase]
  · cases hc₀ : r.net.copies[place]? with
    | none =>
      rw [did_of_absent hc₀] at hd
      cases hd
    | some c₀ =>
      obtain ⟨c, -, -, h⟩ := spent_after hmade hstarts hphase hc₀
      exact h.unworked d hd
  · obtain ⟨c, hc, hrefusal⟩ := List.exists_of_findSome?_eq_some hx
    obtain ⟨f, hf, -⟩ := Option.map_eq_some_iff.mp hrefusal
    obtain ⟨place, hlt, rfl⟩ := List.mem_iff_getElem.mp hc
    have hlt' : place < (r.after events).result.steps.length := hsteps.length_eq ▸ hlt
    have hspent := hsteps.get hlt hlt'
    refine Verdict.classify_of_failed (List.get_mem _ ⟨place, hlt'⟩) ?_
    rw [hspent.2.2.2, List.get_eq_getElem, hf]
    rfl

end Run
end RowFlow
