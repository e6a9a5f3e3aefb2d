import RowFlow.Proofs.Run.Made

/-
What a run is told to have come to, once it is over.  The copies are gone and do nothing
any more, and the phase stays; so errors, counts, states and outcomes are final.  The
reason is not: a request to stop gives its reason whenever it comes, and if the run had
none, it has one from then on and is judged anew.
-/
namespace RowFlow

namespace RunResult

/-- The result after a request to stop; a reason that is there stays. -/
def halted (res : RunResult) : RunResult :=
  ofSteps res.errors (res.stopReason.or (some .external)) res.steps

/-- What can become of a result that has been told, by whether a request to stop has given
its reason since. -/
structure Keeps (res res' : RunResult) (asked : Bool) : Prop where
  errors : res'.errors = res.errors
  totals : res'.totals = res.totals
  steps : res'.steps = res.steps
  told : res' = if asked then res.halted else res
  same : res' = res ↔ asked = false ∨ res.stopReason ≠ none

theorem keeps_ofSteps (errors : Nat) (reason : Option StopReason) (steps : List StepResult)
    (asked : Bool) :
    (ofSteps errors reason steps).Keeps
      (ofSteps errors (if asked then reason.or (some .external) else reason) steps) asked where
  errors := rfl
  totals := rfl
  steps := rfl
  told := by cases asked <;> rfl
  same := by
    constructor
    · intro h
      have hreason : (if asked then reason.or (some .external) else reason) = reason :=
        congrArg RunResult.stopReason h
      cases asked with
      | false => exact .inl rfl
      | true =>
        refine .inr fun hnone => ?_
        change reason = none at hnone
        rw [hnone] at hreason
        cases hreason
    · rintro (rfl | h)
      · rfl
      · change reason ≠ none at h
        cases reason with
        | none => exact absurd rfl h
        | some r => cases asked <;> rfl

end RunResult

/-- A copy that is gone stays as it is, and so does what is shared. -/
theorem Copy.step_of_gone {c : Copy} (h : c.kind = .gone) (s : Shared) : c.step s = (c, s) := by
  obtain ⟨op, own, task⟩ := c
  cases task with
  | gone => rfl
  | _ => cases h

namespace Run

def asks (r : Run) : Event → Bool
  | .stop place => r.stops[place]? == some .giveReason
  | _ => false

def isAsked (r : Run) : List Event → Bool
  | [] => false
  | e :: rest => r.asks e || (r.happen e).isAsked rest

/-- Nothing has changed but perhaps the reason, the flag, the requests to stop and what
copies know of being cancelled. -/
structure Rests (r r' : Run) (asked : Bool) : Prop where
  phase : r'.phase = r.phase
  errors : r'.control.errors = r.control.errors
  reason : r'.control.reason = if asked then r.control.reason.or (some .external)
    else r.control.reason
  steps : r'.stepResults = r.stepResults

theorem Rests.refl (r : Run) : Rests r r false := ⟨rfl, rfl, rfl, rfl⟩

theorem Rests.trans {r r' r'' : Run} {asked asked' : Bool} (h : Rests r r' asked)
    (h' : Rests r' r'' asked') : Rests r r'' (asked || asked') where
  phase := h'.phase.trans h.phase
  errors := h'.errors.trans h.errors
  reason := by
    rw [h'.reason, h.reason]
    cases asked <;> cases asked' <;> simp
  steps := h'.steps.trans h.steps

theorem stepResults_cancelCopy (r : Run) (place : Nat) :
    (r.cancelCopy place).stepResults = r.stepResults := by
  refine List.ext_getElem? fun i => ?_
  simp only [stepResults, cancelCopy, Net.modify, List.getElem?_map, List.getElem?_modify]
  cases r.net.copies[i]? with
  | none => rfl
  | some c => by_cases h : place = i <;> simp [h]

/-- A request to stop moves on in a run that is over. -/
theorem rests_stop (r : Run) (place : Nat) :
    Rests r (r.happen (.stop place)) (r.asks (.stop place)) := by
  simp only [happen, move?, asks]
  cases hs : r.stops[place]? with
  | none => exact .refl r
  | some call =>
    cases call with
    | giveReason => exact ⟨rfl, rfl, rfl, rfl⟩
    | raiseFlag => exact ⟨rfl, rfl, rfl, rfl⟩
    | lookUp => exact ⟨rfl, rfl, rfl, rfl⟩
    | cancel places =>
      cases places with
      | nil => exact ⟨rfl, rfl, rfl, rfl⟩
      | cons other rest => exact ⟨rfl, rfl, rfl, stepResults_cancelCopy r other⟩
    | done => exact .refl r

theorem rests_happen {r : Run} (h : r.Staged) (hover : r.IsOver) (e : Event) :
    Rests r (r.happen e) (r.asks e) := by
  have hstill : r.happen e = r → r.asks e = false → Rests r (r.happen e) (r.asks e) := by
    intro hr ha
    rw [hr, ha]
    exact .refl r
  cases e with
  | prepare =>
    refine hstill ?_ rfl
    rcases hover with hp | ⟨x, hp⟩ <;> simp [happen, beginPreparation, hp]
  | start =>
    refine hstill ?_ rfl
    rcases hover with hp | ⟨x, hp⟩ <;> simp [happen, start, hp]
  | requestStop => exact ⟨rfl, rfl, rfl, rfl⟩
  | finish =>
    refine hstill ?_ rfl
    rcases hover with hp | ⟨x, hp⟩ <;> simp [happen, finish, hp]
  | copy place =>
    refine hstill ?_ rfl
    have hstep : r.net.step place = r.net := by
      unfold Net.step
      split
      · rfl
      · next c hc =>
        rw [Copy.step_of_gone (h.gone_of_isOver hover (List.mem_of_getElem? hc))]
        obtain ⟨hlt, rfl⟩ := List.getElem?_eq_some_iff.mp hc
        show ({ copies := r.net.copies.set place _, shared := r.net.shared } : Net) = r.net
        rw [List.set_getElem_self]
    rw [happen, hstep]
  | chief =>
    refine hstill ?_ rfl
    rcases hover with hp | ⟨x, hp⟩ <;> simp [happen, chief?, hp]
  | stop place => exact rests_stop r place

theorem isOver_of_rests {r r' : Run} {asked : Bool} (h : Rests r r' asked) (hover : r.IsOver) :
    r'.IsOver := by
  unfold IsOver
  rw [h.phase]
  exact hover

theorem rests_after {r : Run} (h : r.Staged) (hover : r.IsOver) (later : List Event) :
    Rests r (r.after later) (r.isAsked later) := by
  induction later generalizing r with
  | nil => exact .refl r
  | cons e rest ih =>
    have hstep := rests_happen h hover e
    exact hstep.trans (ih (h.happen e) (isOver_of_rests hstep hover))

theorem keeps_of_rests {r r' : Run} {asked : Bool} (h : Rests r r' asked) :
    r.result.Keeps r'.result asked := by
  have hresult : r'.result = RunResult.ofSteps r.control.errors
      (if asked then r.control.reason.or (some .external) else r.control.reason)
      r.stepResults := by
    rw [result, h.errors, h.reason, h.steps]
  rw [hresult]
  exact RunResult.keeps_ofSteps _ _ _ _

/-- What is told at the end is final, up to requests to stop: whatever happens later, whoever
waits is told the same errors, counts, states and outcomes at once, and the same reason and
status too unless there was no reason and a request to stop has given one. -/
theorem keeps_of_isOver {d : Definition} {registry : Registry} {config : Config} {r : Run}
    (h : make d registry config = .ok r) (events later : List Event)
    (hover : (r.after events).IsOver) :
    (r.after events).await = (r.after events, .ok (r.after events).result) ∧
    (r.after (events ++ later)).await =
      (r.after (events ++ later), .ok (r.after (events ++ later)).result) ∧
    (r.after events).result.Keeps (r.after (events ++ later)).result
      ((r.after events).isAsked later) := by
  obtain ⟨plan, hmade⟩ := made_of_make h
  have hstaged : (r.after events).Staged := hmade.staged.after events
  have hrests := rests_after hstaged hover later
  rw [after_append]
  exact ⟨hstaged.await_of_isOver hover,
    (hstaged.after later).await_of_isOver (isOver_of_rests hrests hover), keeps_of_rests hrests⟩

/-- A request to stop as whoever makes it sees it through, before any copy is cancelled. -/
def lateStop : List Event := [.requestStop, .stop 0, .stop 0]

theorem keeps_of_isOver_counting :
    (countingRun.after countingCourse).IsOver ∧
    (countingRun.after countingCourse).result.Keeps
      (countingRun.after (countingCourse ++ lateStop)).result true := by
  have hasked : (countingRun.after countingCourse).isAsked lateStop = true := by decide +kernel
  have hkeeps := (keeps_of_isOver make_counting countingCourse lateStop isOver_counting).2.2
  rw [hasked] at hkeeps
  exact ⟨isOver_counting, hkeeps⟩

/-- A run that came to its end by itself and was a success is called stopped afterwards. -/
theorem unfinal_counting :
    (countingRun.after countingCourse).IsOver ∧
    ((countingRun.after countingCourse).await.2.toOption.map fun res =>
      (res.status, res.stopReason)) = some (.success, none) ∧
    ((countingRun.after countingCourse).stopAll.await.2.toOption.map fun res =>
      (res.status, res.stopReason)) = some (.stopped, some .external) := by
  refine ⟨isOver_counting, ?_, ?_⟩ <;> decide +kernel

end Run
end RowFlow
