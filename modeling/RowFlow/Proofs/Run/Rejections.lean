import RowFlow.Operator.Recipe
import RowFlow.Proofs.Copy.Failures
import RowFlow.Proofs.Run.Lives

/-
Row failures of copies with an error output.  Such a failure is meant not to concern the
step: the row is told with its diagnostic, the error is counted and the next row is taken.
So it goes wherever the row can be told, and a copy fails on a row failure only where it
cannot (`fault_of_failed`).  But that happens: the fields of the diagnostic always have the
same names, and a row that comes from an error output has them already; a step that rejects
such a row fails, and the run with it.
-/
namespace RowFlow

namespace Program

variable {l m : Local} {ds : List Doing}

/-- A row failure of a copy with an error output is survived if the row can be rejected, and
then it stops the run only if the errors have come to their limit.  If the row cannot be
rejected, the copy fails and the run stops with it. -/
theorem afterFault_rowFailed {row : Row} {d : Diagnostic} {t : Turn}
    (h : (afterFault (.rowFailed row d)).Runs l ds t m) (he : l.errorHandling = true) :
    t = .again ∧ Rejected row d l ds m ∨
      t = .leave .failed ∧ Unrejected row d ds ∧
        .act (.giveReason (.stepFailed l.info.name)) () ∈ ds := by
  obtain ⟨rfl, -, row', d', hsame, hrejected⟩ | ⟨rfl, hfatal⟩ := runs_afterFault h
  · cases hsame
    exact .inl ⟨rfl, hrejected⟩
  · exact .inr ⟨rfl, hfatal.unrejected row d rfl he, hfatal.reason⟩

def teller : Local where
  info := { name := "teller" }
  errorOutput := some { target := "rejects", rowSets := [0] }
  errorHandling := true

def untoldRow : Row := ⟨⟨[{ name := "id", type := .integer }]⟩, [.integer 1], rfl⟩

def untoldDiagnostic : Diagnostic where
  message := "rejected"
  code := "E1"

theorem afterFault_rowFailed_untold : ∃ ds m,
    (afterFault (.rowFailed untoldRow untoldDiagnostic)).Runs teller ds .again m ∧
      (Turn.again = .again ∧ Rejected untoldRow untoldDiagnostic teller ds m ∨
        Turn.again = .leave .failed ∧ Unrejected untoldRow untoldDiagnostic ds ∧
          .act (.giveReason (.stepFailed teller.info.name)) () ∈ ds) := by
  have hruns : ∃ ds m,
      (afterFault (.rowFailed untoldRow untoldDiagnostic)).Runs teller ds .again m :=
    ⟨_, _, .act (b := false) (s := {}) rfl <| .act (b := false) (s := {}) rfl <|
      .act (b := false) (s := {}) rfl <| .act (b := false) (s := {}) rfl <|
      .act (b := false) (s := {}) rfl <| .delivered_ok .accepted <|
      .act (b := false) (s := {}) rfl <| .act (b := false) (s := {}) rfl <|
      .act (b := false) (s := {}) rfl <| .act (b := false) (s := {}) rfl <| .here _ _⟩
  obtain ⟨ds, m, hruns⟩ := hruns
  exact ⟨ds, m, hruns, afterFault_rowFailed hruns rfl⟩

end Program

namespace Run

variable {d : Definition} {registry : Registry} {config : Config} {r : Run}

/-- In every run, a copy with an error output fails only if the hook for the start failed, or
if a call of the hook for work failed with something else than a row failure, or with a failure
of a row that cannot be rejected. -/
theorem fault_of_failed (h : make d registry config = .ok r) (events : List Event) {place : Nat}
    {c : Copy} (hc : (r.after events).net.copies[place]? = some c) (hgone : c.isGone = true)
    (hallowed : c.own.errorHandling = true) (hfailed : c.own.outcome = some .failed) :
    ∃ o ds, c.op.Lives o .gone ds c.own ∧
      ((∃ f, Doing.Faulted .init f ds) ∨ ∃ f, Doing.Faulted .process f ds ∧
        ∀ row d, f = .rowFailed row d → Program.Unrejected row d ds) := by
  obtain ⟨plan, hmade⟩ := made_of_make h
  obtain ⟨op, own, task⟩ := c
  cases task with
  | gone =>
    obtain ⟨o, ds, hlives, ho, -⟩ := lives_of_gone hmade hc
    refine ⟨o, ds, hlives, (hlives.explained ho hfailed).imp id ?_⟩
    rintro ⟨f, hf, hunrejected⟩
    exact ⟨f, hf, fun row d hrow => hunrejected row d hrow hallowed⟩
  | _ => cases hgone

/-- Two steps in a row reject all rows; what the first one rejects goes to the second. -/
def twice : Definition where
  name := "twice"
  steps := [
    { name := "numbers", plugin := "rows" },
    { name := "first", plugin := "reject" },
    { name := "second", plugin := "reject" },
    { name := "rejects", plugin := "rejects" }]
  hops := [{ source := "numbers", target := "first" },
    { source := "first", target := "second", kind := .error },
    { source := "second", target := "rejects", kind := .error }]

def numbered : Rejecter where
  field := "id"
  test := .isNotNull
  recoverable := true
  diagnostic := Program.untoldDiagnostic

def twiceRegistry : Registry :=
  KeyMap.ofList [
    ("rows", Recipe.make (.given (.ok [Program.untoldRow]))),
    ("reject", Recipe.make (.rejecter numbered)),
    ("rejects", Recipe.make .collector)]

def twiceRun : Run :=
  ((make twice twiceRegistry {}).toOption).getD
    { name := "", config := {}, net := { copies := [] } }

def twiceCourse : List Event :=
  .prepare :: (rounds 4 9 ++ [.chief, .start] ++ rounds 4 100 ++ [.finish])

/-- The row failure of a copy with an error output fails the copy and the run. -/
theorem failed_twice :
    make twice twiceRegistry {} = .ok twiceRun ∧ (twiceRun.after twiceCourse).IsOver ∧
    twiceRun.net.copies[2]?.map (·.op) = some (numbered.operator "second") ∧
    (twiceRun.after twiceCourse).net.copies[2]?.map
        (fun c => (c.own.errorHandling, c.own.outcome, c.own.counts.rejected)) =
      some (true, some .failed, 0) ∧
    (twiceRun.after twiceCourse).net.shared.control.reason = some (.stepFailed "second") ∧
    (rowsTaken ((twiceRun.ledger twiceCourse).log 2)).map (·.find? "id") = [some (.integer 1)] ∧
    (twiceRun.after twiceCourse).net.shared.journal.collected (· == "rejects") = [] :=
  ⟨rfl, .inl (by decide +kernel), rfl, by decide +kernel, by decide +kernel, by decide +kernel,
    by decide +kernel⟩

end Run
end RowFlow
