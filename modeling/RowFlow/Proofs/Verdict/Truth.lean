import RowFlow.Proofs.Hooks.Order
import RowFlow.Proofs.Verdict.Grounds

/-
What the status of a run says is true.  The status is judged by the errors, the reason
and the outcomes alone, at the end; that these three fit together at the end is what
the copies have kept all along.
-/
namespace RowFlow

/-- The status of a result says what it should. -/
structure RunResult.Truthful (res : RunResult) : Prop where
  success : res.status = .success ↔ res.errors = 0 ∧ res.stopReason = none
  completed : res.status = .completedWithErrors ↔ 0 < res.errors ∧ res.stopReason = none
  finished : res.status = .success ∨ res.status = .completedWithErrors →
    ∀ s ∈ res.steps, s.outcome = some .finished
  reason : ∀ s ∈ res.steps, s.outcome = some .stopped ∨ s.outcome = some .failed →
    res.stopReason ≠ none
  stopped : res.status = .stopped ↔ (∀ s ∈ res.steps, s.outcome ≠ some .failed) ∧
    (res.stopReason = some .external ∨ res.stopReason = some .rowLimit)
  failed : res.status ≠ .success → res.status ≠ .completedWithErrors → res.status ≠ .stopped →
    res.status = .failed ∧ 0 < res.errors ∧ res.stopReason ≠ none

namespace Verdict

open Run

def agreement : Agreement where
  world := World
  fits op := op.Asks Request.LeavesControl
  contract op _ := contract op

theorem world_giveReason {s : Shared} (h : World s) {r : StopReason}
    (hr : r.status = .failed → 0 < s.control.errors) :
    World { s with control := s.control.giveReason r } where
  flag _ := by simp [Control.giveReason]
  blame r' hr' hfailed := by
    cases hold : s.control.reason with
    | none =>
      rw [Control.giveReason, hold] at hr'
      cases hr'
      exact hr hfailed
    | some r₀ =>
      rw [Control.giveReason, hold] at hr'
      cases hr'
      exact h.blame _ hold hfailed

theorem world_raiseFlag {s : Shared} (h : World s) (hr : s.control.reason ≠ none) :
    World { s with control := s.control.raiseFlag.1 } where
  flag _ := hr
  blame := h.blame

theorem world_leads {atWork : Bool} {n : Node} {p q : Position} (hw : World p.shared)
    (hg : Careful atWork p.shared n) (hl : n.Leads p q) : World q.shared := by
  have same : q.shared.control = p.shared.control → World q.shared := by
    intro h
    constructor
    · rw [h]
      exact hw.flag
    · rw [h]
      exact hw.blame
  cases hl with
  | @act a p x l s ha =>
    cases a with
    | giveReason r => cases ha; exact world_giveReason hw hg
    | raiseFlag => cases ha; exact world_raiseFlag hw hg
    | countErrors n =>
      cases ha
      exact ⟨hw.flag, fun r hr hf => Nat.lt_of_lt_of_le (hw.blame r hr hf) (Nat.le_add_right _ _)⟩
    | countSourceRows n => cases ha; exact ⟨hw.flag, hw.blame⟩
    | close i => cases ha; exact same (Shared.control_close _ i)
    | _ =>
      simp only [Action.perform, Prod.mk.injEq] at ha
      obtain ⟨-, -, rfl⟩ := ha
      exact same rfl
  | pass => exact hw
  | drop _ => exact hw
  | take _ _ => exact same (Shared.control_poll _ _)
  | give _ => exact same (Shared.control_offer _ _ _)

theorem lawful_agreement : agreement.Lawful where
  contract _ hop := lawful_contract hop
  leads _ _ _ _ _ _ hw hg hl := world_leads hw hg.2 hl
  external _ hw := world_giveReason hw fun h => by cases h
  raise _ hw hr := world_raiseFlag hw hr
  refusal _ _ _ _ _ hw h := world_giveReason hw fun _ => h.2

structure AtEnd (r : Run) : Prop where
  world : World r.net.shared
  outcome : ∀ c ∈ r.net.copies, ∃ o, c.own.status.outcome = some o ∧
    (o ≠ .finished → r.control.reason ≠ none) ∧ (o = .failed → 0 < r.control.errors)

theorem atEnd_of_kept {t : Record} (h : t.Kept agreement) (hover : t.run.IsOver)
    (hended : ∀ (place : Nat) (c : Copy), t.run.net.copies[place]? = some c →
      Ended (t.past place) c.own) : AtEnd t.run where
  world := h.world
  outcome c hc := by
    obtain ⟨place, hplace⟩ := List.mem_iff_getElem?.mp hc
    obtain ⟨o, hstatus, hown⟩ := (hended place c hplace).outcome
    refine ⟨o, hstatus, ?_⟩
    have hgone := h.staged.gone_of_isOver hover hc
    obtain ⟨_, hholds⟩ := h.copies place c hplace
    obtain ⟨op, own, task⟩ := c
    cases task with
    | gone =>
      obtain ⟨outcome, hsettled⟩ := hholds
      have hgrounds := hsettled.2 o (hsettled.1.symm.trans hown)
      refine ⟨fun ho => ?_, hgrounds.2⟩
      rcases hover with hp | ⟨x, hp⟩
      · exact hgrounds.1 (by rw [hp]; rfl) ho
      · exact h.staged.phaseReason (by rw [hp]; rfl)
    | _ => cases hgone

section Classify

variable {errors : Nat} {reason : Option StopReason} {steps : List StepResult}

theorem classify_of_failed {s : StepResult} (hs : s ∈ steps) (ho : s.outcome = some .failed) :
    RunResult.classify errors reason steps = .failed := by
  have hany : steps.any (·.outcome == some .failed) = true :=
    List.any_eq_true.mpr ⟨s, hs, by simp [ho]⟩
  unfold RunResult.classify
  rw [if_pos hany]

theorem classify_of_none_failed (h : ∀ s ∈ steps, s.outcome ≠ some .failed) :
    RunResult.classify errors reason steps = match reason with
      | some r => r.status
      | none => if 0 < errors then .completedWithErrors else .success := by
  have hany : ¬ steps.any (·.outcome == some .failed) = true := by
    intro hany
    obtain ⟨s, hs, ho⟩ := List.any_eq_true.mp hany
    exact h s hs (by simpa using ho)
  exact if_neg hany

/-- The outcomes of steps have their grounds in the reason and in the errors. -/
structure Grounded (errors : Nat) (reason : Option StopReason) (steps : List StepResult) :
    Prop where
  outcome : ∀ s ∈ steps, ∃ o : Outcome, s.outcome = some o.state ∧
    (o ≠ .finished → reason ≠ none) ∧ (o = .failed → 0 < errors)
  blame : ∀ r, reason = some r → r.status = .failed → 0 < errors

namespace Grounded

variable (h : Grounded errors reason steps)
include h

theorem reason_of_ended {s : StepResult} (hs : s ∈ steps)
    (ho : s.outcome = some .stopped ∨ s.outcome = some .failed) : reason ≠ none := by
  obtain ⟨o, hso, hreason, -⟩ := h.outcome s hs
  refine hreason fun hfinished => ?_
  rw [hso, hfinished] at ho
  simp [Outcome.state] at ho

theorem errors_of_failed {s : StepResult} (hs : s ∈ steps) (ho : s.outcome = some .failed) :
    0 < errors := by
  obtain ⟨o, hso, -, herrors⟩ := h.outcome s hs
  refine herrors ?_
  rw [hso] at ho
  cases o with
  | failed => rfl
  | _ => simp [Outcome.state] at ho

theorem finished_of_no_reason (hreason : reason = none) {s : StepResult} (hs : s ∈ steps) :
    s.outcome = some .finished := by
  obtain ⟨o, hso, hended, -⟩ := h.outcome s hs
  have ho : o = .finished := by
    by_contra hne
    exact hended hne hreason
  rw [hso, ho]
  rfl

/-- A step has failed. -/
theorem truthful_of_failed {s : StepResult} (hs : s ∈ steps) (ho : s.outcome = some .failed) :
    (RunResult.ofSteps errors reason steps).Truthful := by
  have hstatus : (RunResult.ofSteps errors reason steps).status = .failed :=
    classify_of_failed hs ho
  have hreason : reason ≠ none := h.reason_of_ended hs (.inr ho)
  constructor
  · rw [hstatus]
    exact ⟨fun heq => (by cases heq), fun hnone => absurd hnone.2 hreason⟩
  · rw [hstatus]
    exact ⟨fun heq => (by cases heq), fun hnone => absurd hnone.2 hreason⟩
  · rw [hstatus]
    rintro (heq | heq) <;> cases heq
  · exact fun s hs => h.reason_of_ended hs
  · rw [hstatus]
    exact ⟨fun heq => (by cases heq), fun hnone => absurd ho (hnone.1 s hs)⟩
  · exact fun _ _ _ => ⟨hstatus, h.errors_of_failed hs ho, hreason⟩

end Grounded

variable (hnone : ∀ s ∈ steps, s.outcome ≠ some .failed)
include hnone

/-- The run was stopped for a reason, and no step has failed. -/
theorem Grounded.truthful_of_some {r : StopReason} (h : Grounded errors (some r) steps) :
    (RunResult.ofSteps errors (some r) steps).Truthful := by
  have hstatus : (RunResult.ofSteps errors (some r) steps).status = r.status := by
    show RunResult.classify errors (some r) steps = r.status
    exact classify_of_none_failed hnone
  constructor
  · rw [hstatus]
    cases r <;> simp [RunResult.ofSteps, StopReason.status]
  · rw [hstatus]
    cases r <;> simp [RunResult.ofSteps, StopReason.status]
  · rw [hstatus]
    cases r <;> simp [StopReason.status]
  · exact fun s hs => h.reason_of_ended hs
  · rw [hstatus]
    cases r <;> simp [StopReason.status, RunResult.ofSteps] <;> exact hnone
  · intro _ _ hstopped
    rw [hstatus] at hstopped
    have hfailed : r.status = .failed := by
      cases r with
      | stepFailed _ => rfl
      | errorLimit => rfl
      | _ => exact absurd rfl hstopped
    exact ⟨hstatus.trans hfailed, h.blame r rfl hfailed, by simp [RunResult.ofSteps]⟩

/-- The run came to its end by itself. -/
theorem Grounded.truthful_of_none (h : Grounded errors none steps) :
    (RunResult.ofSteps errors none steps).Truthful := by
  have hstatus : (RunResult.ofSteps errors none steps).status =
      if 0 < errors then .completedWithErrors else .success := by
    show RunResult.classify errors none steps = _
    exact classify_of_none_failed hnone
  constructor
  · rw [hstatus]
    by_cases herrors : 0 < errors
    · simp [RunResult.ofSteps, herrors, Nat.pos_iff_ne_zero.mp herrors]
    · simp [RunResult.ofSteps, Nat.eq_zero_of_not_pos herrors]
  · rw [hstatus]
    by_cases herrors : 0 < errors <;> simp [RunResult.ofSteps, herrors]
  · exact fun _ s hs => h.finished_of_no_reason rfl hs
  · exact fun s hs => h.reason_of_ended hs
  · rw [hstatus]
    by_cases herrors : 0 < errors <;> simp [RunResult.ofSteps, herrors]
  · intro hsuccess hcompleted
    by_cases herrors : 0 < errors
    · rw [if_pos herrors] at hstatus
      exact absurd hstatus hcompleted
    · rw [if_neg herrors] at hstatus
      exact absurd hstatus hsuccess

omit hnone in
/-- The status is the truth if outcomes have their grounds. -/
theorem Grounded.truthful (h : Grounded errors reason steps) :
    (RunResult.ofSteps errors reason steps).Truthful := by
  by_cases hfail : ∃ s ∈ steps, s.outcome = some .failed
  · obtain ⟨s, hs, ho⟩ := hfail
    exact h.truthful_of_failed hs ho
  · have hnone : ∀ s ∈ steps, s.outcome ≠ some .failed := fun s hs ho => hfail ⟨s, hs, ho⟩
    cases reason with
    | some r => exact h.truthful_of_some hnone
    | none => exact h.truthful_of_none hnone

end Classify

/-- At the end the status is the truth. -/
theorem truthful_of_atEnd {r : Run} (h : AtEnd r) : r.result.Truthful := by
  refine Grounded.truthful ⟨fun s hs => ?_, h.world.blame⟩
  obtain ⟨c, hc, rfl⟩ := List.mem_map.mp hs
  obtain ⟨o, ho, hgrounds⟩ := h.outcome c hc
  exact ⟨o, by simp [ho], hgrounds⟩

theorem kept_of_made {d : Definition} {registry : Registry} {config : Config} {plan : Plan}
    {r : Run} (h : Made d registry config plan r)
    (hops : ∀ c ∈ r.net.copies, c.op.Asks Request.LeavesControl) :
    ({ run := r } : Record).Kept agreement := by
  have hworld : World r.net.shared := by
    rw [h.shared]
    exact ⟨fun h => absurd h (by simp [controlOf]), fun r h => by cases h⟩
  refine h.kept hworld fun c hc => ?_
  obtain ⟨info, inputs, outputs, errorOutput, hown⟩ := h.own_fresh hc
  refine ⟨hops c hc, ?_, fun o ho => by cases ho⟩
  rw [hown]
  rfl

/-- The result that is told at the end of any run tells the truth, if its operators leave
stops and the errors of the run to the context. -/
theorem truthful_await {d : Definition} {registry : Registry} {config : Config} {r : Run}
    (h : make d registry config = .ok r)
    (hops : ∀ c ∈ r.net.copies, c.op.Asks Request.LeavesControl) (events : List Event)
    (hover : (r.after events).IsOver) :
    ∃ res, (r.after events).await = (r.after events, .ok res) ∧ res.Truthful := by
  obtain ⟨plan, hmade⟩ := made_of_make h
  have hkept : (r.record events).Kept agreement :=
    (kept_of_made hmade hops).after lawful_agreement events
  have hordered : (r.record events).Kept Hooks.agreement :=
    (Hooks.kept_of_made hmade).after Hooks.lawful_agreement events
  have hrun : (r.record events).run = r.after events := Record.run_after _ events
  have hover' : (r.record events).run.IsOver := by
    rw [hrun]
    exact hover
  have hend := atEnd_of_kept hkept hover' fun _ _ hc => Hooks.ended_of_kept hordered hover' hc
  rw [hrun] at hend
  refine ⟨(r.after events).result, ?_, truthful_of_atEnd hend⟩
  have hstaged := hkept.staged
  rw [hrun] at hstaged
  exact hstaged.await_of_isOver hover

theorem truthful_await_counting :
    ∃ res, (countingRun.after countingCourse).await =
      (countingRun.after countingCourse, .ok res) ∧ res.Truthful := by
  refine truthful_await make_counting ?_ countingCourse isOver_counting
  exact forall_counting (P := fun op _ => op.Asks _)
    (Sequence.asks_operator (fun _ => trivial) _)
    (Operator.asks_passThrough trivial fun _ => trivial)

end Verdict
end RowFlow
