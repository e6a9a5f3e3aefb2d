import RowFlow.Operator.Recipe
import RowFlow.Proofs.Flow.Handing

/-
How the operators of the library deal with rows.  Those with inputs hand on what they get;
a filter drops the rows that its predicate refuses.  The sources are fair.
-/
namespace RowFlow

open Operator

namespace Behaviour

section Dealing

variable {σ : Type} {drops : Row → Bool} {row : Row} {replies : List Reply} {s s' : σ}
  {e : Ending Bool}

theorem dealing_forward (hdrop : drops row = false) {out : Row}
    (h : (forward s out).Course replies (s', e)) : Dealing drops row replies e := by
  obtain ⟨x, rest, hrest, rfl⟩ := course_request h
  cases x with
  | ok u =>
    cases hrest
    exact .sent hdrop out
  | error f =>
    cases hrest
    exact .unsent out f

theorem dealing_fail (hdrop : drops row = false) {f : Fault}
    (h : (fail s f).Course replies (s', e)) : Dealing drops row replies e := by
  cases h
  exact .failed hdrop f

theorem handing_withRow {body : Row → Behaviour (σ × Ending Bool)}
    (hbody : ∀ row replies s' e, (body row).Course replies (s', e) → Dealing drops row replies e)
    (h : (withRow s body).Course replies (s', e)) : Handing drops replies e := by
  obtain ⟨x, rest, hrest, rfl⟩ := course_request h
  cases x with
  | none =>
    cases hrest
    exact .noRow
  | some row => exact .row (hbody row _ _ _ hrest)

end Dealing

theorem asks_notes (ns : List Note) : (notes ns).Asks (¬ ·.Deals) := by
  induction ns with
  | nil => trivial
  | cons n rest ih => exact ⟨id, fun _ => ih⟩

end Behaviour

open Behaviour

namespace Operator

theorem handsOn_passThrough : passThrough.HandsOn fun _ => false where
  init := trivial
  process _ _ _ _ h := handing_withRow (fun _ _ _ _ => dealing_forward rfl) h
  dispose _ := trivial

theorem handsOn_collector : collector.HandsOn fun _ => false where
  init := trivial
  process _ _ _ _ h := handing_withRow (fun row _ _ _ hbody => by
    obtain ⟨x, rest, hrest, rfl⟩ := course_request hbody
    exact .quiet id (dealing_forward rfl hrest)) h
  dispose _ := trivial

theorem handsOn_filter (keep : Row → Except Fault Bool) :
    (filter keep).HandsOn fun row => (keep row).toOption == some false where
  init := trivial
  process _ _ _ _ h := by
    refine handing_withRow (fun row _ _ _ hbody => ?_) h
    cases hkeep : keep row with
    | error f =>
      simp only [hkeep] at hbody
      exact dealing_fail (by rw [hkeep]; rfl) hbody
    | ok kept =>
      cases kept with
      | true =>
        simp only [hkeep] at hbody
        exact dealing_forward (by rw [hkeep]; rfl) hbody
      | false =>
        simp only [hkeep] at hbody
        cases hbody
        exact .dropped (by rw [hkeep]; rfl)
  dispose _ := trivial

theorem fair_rowList (rows : List Row) : (rowList rows).Fair where
  init := trivial
  dispose _ _ _ := trivial
  handsBack := by
    intro _ m _ more m' e hc row f hmem
    cases m with
    | nil =>
      cases hc
      cases hmem
    | cons out rest =>
      have hdealing : Dealing (fun _ => false) out more e := dealing_forward rfl hc
      exact hdealing.handsBack hmem

end Operator

theorem Rejecter.handsOn_operator (r : Rejecter) (step : String) :
    (r.operator step).HandsOn fun _ => false where
  init := trivial
  process _ _ _ _ h := by
    refine handing_withRow (fun row _ _ _ hbody => ?_) h
    cases hget : row.getByName r.field with
    | error f =>
      simp only [hget] at hbody
      exact dealing_fail rfl hbody
    | ok v =>
      simp only [hget] at hbody
      split at hbody
      · exact dealing_fail rfl hbody
      · exact dealing_forward rfl hbody
  dispose _ := trivial

namespace Executor

variable {drops : Row → Bool} {row : Row} {replies : List Reply} {e : Ending Bool}

theorem asks_await (reply : Resource.Reply) : (await reply).Asks (¬ ·.Deals) := by
  cases reply with
  | held f => exact ⟨id, fun _ => trivial⟩
  | _ => trivial

theorem asks_tally (c : StatementCounts) : (tally c).Asks (¬ ·.Deals) :=
  ⟨id, fun _ => ⟨id, fun _ => ⟨id, fun _ => ⟨id, fun _ => ⟨id, fun _ => trivial⟩⟩⟩⟩⟩

/-- A statement is executed, and unless that fails a row is sent. -/
theorem dealing_execute (x : Executor) (r : Resource) (s s' : State r) (statement : String)
    (output : Schema) (h : (x.execute r s row statement output).Course replies (s', e)) :
    Dealing (fun _ => false) row replies e := by
  obtain ⟨_, rest, hrest, rfl⟩ := course_request h
  obtain ⟨awaiting, reply, after, hawait, hafter, rfl⟩ := course_bind hrest
  refine .quiet id (.quiets ((asks_await _).of_course hawait) ?_)
  cases reply with
  | error f =>
    obtain ⟨stopped, rest, hend, rfl⟩ := course_request hafter
    cases stopped with
    | true =>
      cases hend
      exact .stopped
    | false => exact .quiet id (dealing_fail rfl hend)
  | ok c =>
    obtain ⟨counting, _, sending, hcount, hsend, rfl⟩ := course_bind hafter
    refine .quiets ((asks_tally c).of_course hcount) ?_
    obtain ⟨noting, _, last, hnote, hlast, rfl⟩ := course_bind hsend
    refine .quiets ((asks_notes _).of_course hnote) ?_
    split at hlast
    · exact dealing_fail rfl hlast
    · split at hlast
      · exact dealing_fail rfl hlast
      · exact dealing_forward rfl hlast

theorem handsOn_operator (x : Executor) (r : Resource) :
    (x.operator r).HandsOn fun _ => false where
  init := trivial
  process _ _ _ _ h := by
    refine handing_withRow (fun row _ _ _ hbody => ?_) h
    split at hbody
    · exact dealing_fail rfl hbody
    · split at hbody
      · exact dealing_fail rfl hbody
      · exact x.dealing_execute r _ _ _ _ hbody
  dispose m := by
    refine Asks.bind (b := look) ⟨id, fun _ => trivial⟩ fun v => ?_
    refine Asks.bind (asks_notes _) fun _ => ?_
    split <;> trivial

end Executor

theorem Sequence.fair_operator (s : Sequence) : s.operator.Fair where
  init := trivial
  dispose _ _ _ := trivial
  handsBack := by
    intro _ (m : Sequence) _ more m' e hc row f hmem
    simp only [operator] at hc
    split at hc
    · cases hc
      cases hmem
    · obtain ⟨x, rest, hrest, rfl⟩ := course_request hc
      cases x with
      | ok u =>
        generalize m.advance = after at hrest
        cases hrest
        cases List.mem_singleton.mp hmem
      | error f' =>
        cases hrest
        cases List.mem_singleton.mp hmem
        rfl

theorem exists_of_map_eq_ok {α β : Type _} {r : Except Fault α} {f : α → β} {b : β}
    (h : r.map f = .ok b) : ∃ a, r = .ok a ∧ f a = b := by
  cases r with
  | error e => cases h
  | ok a => exact ⟨a, rfl, Except.ok.inj h⟩

/-- Whatever a recipe makes is fair, unless it follows a script. -/
theorem Recipe.fair {x : Recipe} {i : StepInfo} {op : Operator} (hscript : ∀ s, x ≠ .script s)
    (h : x.make i = .ok op) : op.Fair := by
  cases x with
  | passThrough =>
    cases h
    exact handsOn_passThrough.fair
  | tolerant =>
    cases h
    have h := handsOn_passThrough
    exact HandsOn.fair ⟨h.init, h.process, h.dispose⟩
  | sequence =>
    obtain ⟨s, -, rfl⟩ := exists_of_map_eq_ok h
    exact s.fair_operator
  | rows fields values =>
    obtain ⟨rows, -, rfl⟩ := exists_of_map_eq_ok h
    exact fair_rowList rows
  | given list =>
    obtain ⟨rows, -, rfl⟩ := exists_of_map_eq_ok h
    exact fair_rowList rows
  | collector =>
    cases h
    exact handsOn_collector.fair
  | filter field test =>
    cases h
    exact (handsOn_filter _).fair
  | executor resource =>
    obtain ⟨x, -, rfl⟩ := exists_of_map_eq_ok h
    exact (x.handsOn_operator _).fair
  | broken f => cases h
  | rejecter r =>
    cases h
    exact (r.handsOn_operator _).fair
  | script s => exact absurd rfl (hscript s)

end RowFlow
