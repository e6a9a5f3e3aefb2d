import RowFlow.Operator.Script
import RowFlow.Proofs.Closing.Once
import RowFlow.Proofs.Refusal.Refused
import RowFlow.Proofs.Refusal.Returns

/-
What becomes of a run of which some copies cannot start.  If the hooks for the start keep to
themselves it does not depend on the order in which they are called: the preparation comes to
an end and names the first copy, in the order of the plan, that could not start, and the
result of the run is known beforehand but for the errors that come of the hooks for the end
(`refused_of_make`).
-/
namespace RowFlow
namespace Run

variable {definition : Definition} {registry : Registry} {config : Config} {r : Run}

theorem exists_refusalAhead (h : ∃ c ∈ r.net.copies, c.failure?.isSome = true) :
    ∃ x, r.refusalAhead? = some x := by
  obtain ⟨c, hc, hf⟩ := h
  refine Option.isSome_iff_exists.mp (List.findSome?_isSome_iff.mpr ⟨c, hc, ?_⟩)
  rw [Copy.refusalAhead?, Option.isSome_map]
  exact hf

/-- If the hooks for the start keep to themselves and some of them fail, then the preparation
ends with the fault of the first copy that fails, whatever moves are made, unless a hook for
the end waits for ever; and in whatever order things happen, the run comes to the same. -/
theorem refused_of_make (h : make definition registry config = .ok r)
    (hstarts : ∀ c ∈ r.net.copies, c.ending?.isSome = true)
    (hfails : ∃ c ∈ r.net.copies, c.failure?.isSome = true) :
    ∃ x, r.refusalAhead? = some x ∧
      ((∀ c ∈ r.net.copies, ∀ m, (c.op.dispose m).Asks (· ≠ .hold)) →
        (r.happen .prepare).Comes fun q =>
          q.phase = .refused x ∧ q.preparationAnswer = .error x.fault) ∧
      ∀ events, .requestStop ∉ events → (r.after events).IsOver → r.Refused x events := by
  obtain ⟨plan, hmade⟩ := made_of_make h
  obtain ⟨x, hx⟩ := exists_refusalAhead hfails
  refine ⟨x, hx, fun hends => ?_, fun events => refused_of_isOver hmade hstarts hx⟩
  refine (comes_of_made hmade hstarts hends).mono ?_
  rintro q ⟨hprepared, events, hcalm, rfl⟩
  have hforeseen := foreseen_after hmade hstarts hx hcalm
  have hphase : (r.after events).phase = .refused x := by
    rcases hprepared with hp | ⟨y, hp⟩
    · rw [hp] at hforeseen
      exact hforeseen.elim
    · rw [hp] at hforeseen
      rw [hp, hforeseen.1]
  exact ⟨hphase, by rw [preparationAnswer, hphase]⟩

def unreadyRefusal : Refusal where
  step := "numbers"
  fault := .initFailed "numbers" "step 'numbers' failed: panicked: not ready"

theorem forall_unready {P : Operator → Prop} (hsource : P Closing.unready)
    (hsink : P Operator.passThrough) : ∀ c ∈ Closing.unreadyRun.net.copies, P c.op := by
  have hops : Closing.unreadyRun.net.copies.map (·.op) =
      [Closing.unready, Operator.passThrough] := rfl
  intro c hc
  have hmem : c.op ∈ Closing.unreadyRun.net.copies.map (·.op) := List.mem_map_of_mem hc
  rw [hops] at hmem
  rcases List.mem_cons.mp hmem with hop | hmem
  · rwa [hop]
  · rwa [List.mem_singleton.mp hmem]

/-- A run whose source cannot start. -/
theorem refused_of_make_unready :
    (∀ c ∈ Closing.unreadyRun.net.copies, c.ending?.isSome = true) ∧
      (∃ c ∈ Closing.unreadyRun.net.copies, c.failure?.isSome = true) ∧
      .requestStop ∉ Closing.unreadyCourse ∧
      (Closing.unreadyRun.after Closing.unreadyCourse).IsOver ∧
      ((Closing.unreadyRun.happen .prepare).Comes fun q =>
        q.phase = .refused unreadyRefusal ∧ q.preparationAnswer = .error unreadyRefusal.fault) ∧
      Closing.unreadyRun.Refused unreadyRefusal Closing.unreadyCourse := by
  have hstarts : ∀ c ∈ Closing.unreadyRun.net.copies, c.ending?.isSome = true := fun c hc =>
    Copy.isSome_ending? (forall_unready (P := fun op => (op.init op.start).Asks Request.Lone)
      ⟨trivial, fun _ => trivial⟩ trivial c hc)
  have hfails : ∃ c ∈ Closing.unreadyRun.net.copies, c.failure?.isSome = true := by
    decide +kernel
  have hends : ∀ c ∈ Closing.unreadyRun.net.copies, ∀ m, (c.op.dispose m).Asks (· ≠ .hold) :=
    forall_unready (P := fun op => ∀ m, (op.dispose m).Asks (· ≠ .hold)) (fun _ => trivial)
      fun _ => trivial
  have hcalm : .requestStop ∉ Closing.unreadyCourse := by decide +kernel
  have hover : (Closing.unreadyRun.after Closing.unreadyCourse).IsOver :=
    .inr ⟨unreadyRefusal, by decide +kernel⟩
  obtain ⟨x, hx, hcomes, hrefused⟩ := refused_of_make Closing.make_unready hstarts hfails
  obtain rfl : unreadyRefusal = x := by
    have hahead : Closing.unreadyRun.refusalAhead? = some unreadyRefusal := by decide +kernel
    exact Option.some.inj (hahead.symm.trans hx)
  exact ⟨hstarts, hfails, hcalm, hover, hcomes hends, hrefused _ hcalm hover⟩

def soleStep : Definition where
  name := "counted"
  steps := [{ name := "late", plugin := "P" }]
  hops := []

/-- It cannot start, and counts an error when it is disposed. -/
def soleScript : Script where
  init := { ending := .fault (.stepFailed "x" "no") }
  dispose := { acts := [.addError] }

def soleRegistry : Registry := KeyMap.ofList [("P", fun _ => .ok soleScript.operator)]

def soleRun : Run :=
  ((make soleStep soleRegistry {}).toOption).getD
    { name := "", config := {}, net := { copies := [] } }

theorem make_sole : make soleStep soleRegistry {} = .ok soleRun := rfl

def soleCourse : List Event := .prepare :: (List.replicate 60 [.chief, .copy 0]).flatten

/-- The errors are not only the hooks that have failed: a hook for the end may count some. -/
theorem errors_ne_of_sole :
    make soleStep soleRegistry {} = .ok soleRun ∧
      (∀ c ∈ soleRun.net.copies, c.ending?.isSome = true) ∧
      (∃ c ∈ soleRun.net.copies, c.failure?.isSome = true) ∧
      .requestStop ∉ soleCourse ∧ (soleRun.after soleCourse).IsOver ∧
      ¬ (soleRun.after soleCourse).result.errors =
        soleRun.failures + soleRun.failedEnds soleCourse :=
  ⟨make_sole, by decide +kernel, by decide +kernel, by decide +kernel,
    .inr ⟨⟨"late", .initFailed "late" "step 'x' failed: no"⟩, by decide +kernel⟩,
    by decide +kernel⟩

end Run
end RowFlow
