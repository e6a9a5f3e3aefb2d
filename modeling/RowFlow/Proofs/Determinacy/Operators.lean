import RowFlow.Proofs.Determinacy.Strict
import RowFlow.Proofs.Flow.Operators

/-
The operators of the library.  All of them keep to themselves, also those that follow a
script.  These apart, they hand back what they are told of a row that was refused for its
layout.
-/
namespace RowFlow

namespace Behaviour

variable {α β σ : Type}

theorem Secluded.bind {b : Behaviour α} {f : α → Behaviour β} (hb : b.Secluded)
    (hf : ∀ a, (f a).Secluded) : (b.bind f).Secluded := by
  induction b with
  | done a => exact hf a
  | ask q next ih =>
    cases q with
    | addRunErrors n => exact ⟨fun t t' => congrArg (·.bind f) (hb.1 t t'), fun t => ih t (hb.2 t)⟩
    | _ => exact fun x => ih x (hb x)

theorem secluded_notes (ns : List Note) : (notes ns).Secluded := by
  induction ns with
  | nil => trivial
  | cons n rest ih => exact fun _ => ih

theorem secluded_forward (s : σ) (row : Row) : (forward s row).Secluded := by
  intro r
  cases r <;> trivial

theorem secluded_withRow (s : σ) {body : Row → Behaviour (σ × Ending Bool)}
    (h : ∀ row, (body row).Secluded) : (withRow s body).Secluded := by
  intro row
  cases row with
  | none => trivial
  | some row => exact h row

/-- What comes before sends no rows. -/
theorem handsBack_bind {b : Behaviour β} {f : β → Behaviour (σ × Ending α)}
    (hb : b.Asks (¬ ·.Deals)) (hf : ∀ a, (f a).HandsBack) : (b.bind f).HandsBack := by
  induction b with
  | done a => exact hf a
  | ask q next ih =>
    refine fun x => ⟨fun hclash => absurd ?_ hb.1, ih x (hb.2 x)⟩
    cases q with
    | putRow row => trivial
    | rejectRow row d => trivial
    | _ => exact absurd hclash id

/-- A row is sent, and a fault that comes of it is the end. -/
theorem handsBack_putRow {row : Row} {f : Except Fault Unit → Behaviour (σ × Ending α)}
    (hok : (f (.ok ())).HandsBack) (hfault : ∀ g, ∃ s, f (.error g) = fail s g) :
    ((putRow row).bind f).HandsBack := by
  intro r
  cases r with
  | ok _ => exact ⟨fun hclash => absurd hclash id, hok⟩
  | error g =>
    obtain ⟨s, hs⟩ := hfault g
    show (_ → (f (.error g)).Fails) ∧ (f (.error g)).HandsBack
    rw [hs]
    refine ⟨fun hclash => ?_, trivial⟩
    cases g with
    | incompatible _ _ => rfl
    | _ => exact absurd hclash id

theorem handsBack_forward (s : σ) (row : Row) : (forward s row).HandsBack :=
  handsBack_putRow trivial fun _ => ⟨s, rfl⟩

theorem handsBack_withRow (s : σ) {body : Row → Behaviour (σ × Ending Bool)}
    (h : ∀ row, (body row).HandsBack) : (withRow s body).HandsBack := by
  intro row
  refine ⟨fun hclash => absurd hclash id, ?_⟩
  cases row with
  | none => trivial
  | some row => exact h row

end Behaviour

open Behaviour

namespace Operator

theorem secluded_passThrough : passThrough.Secluded where
  init := trivial
  process m := secluded_withRow m fun row => secluded_forward m row
  dispose _ := trivial

theorem handsBack_passThrough : passThrough.HandsBack where
  init := trivial
  process m := handsBack_withRow m fun row => handsBack_forward m row

theorem secluded_collector : collector.Secluded where
  init := trivial
  process m := secluded_withRow m fun row _ => secluded_forward m row
  dispose _ := trivial

theorem handsBack_collector : collector.HandsBack where
  init := trivial
  process m := handsBack_withRow m fun row =>
    handsBack_bind (b := note (.collected row)) ⟨id, fun _ => trivial⟩ fun _ =>
      handsBack_forward m row

theorem secluded_filter (keep : Row → Except Fault Bool) : (filter keep).Secluded where
  init := trivial
  process m := secluded_withRow m fun row => by
    split
    · trivial
    · exact secluded_forward m row
    · trivial
  dispose _ := trivial

theorem handsBack_filter (keep : Row → Except Fault Bool) : (filter keep).HandsBack where
  init := trivial
  process m := handsBack_withRow m fun row => by
    split
    · trivial
    · exact handsBack_forward m row
    · trivial

theorem secluded_rowList (rows : List Row) : (rowList rows).Secluded where
  init := trivial
  process m := by
    cases m with
    | nil => trivial
    | cons row rest => exact secluded_forward rest row
  dispose _ := trivial

theorem handsBack_rowList (rows : List Row) : (rowList rows).HandsBack where
  init := trivial
  process m := by
    cases m with
    | nil => trivial
    | cons row rest => exact handsBack_forward rest row

end Operator

theorem Rejecter.secluded_operator (r : Rejecter) (step : String) : (r.operator step).Secluded where
  init := trivial
  process m := secluded_withRow m fun row => by
    split
    · trivial
    · split
      · trivial
      · exact secluded_forward m row
  dispose _ := trivial

theorem Rejecter.handsBack_operator (r : Rejecter) (step : String) :
    (r.operator step).HandsBack where
  init := trivial
  process m := handsBack_withRow m fun row => by
    split
    · trivial
    · split
      · trivial
      · exact handsBack_forward m row

namespace Sequence

theorem secluded_operator (s : Sequence) : s.operator.Secluded where
  init := trivial
  process := by
    intro (m : Sequence)
    simp only [operator]
    split
    · trivial
    · intro r
      cases r <;> trivial
  dispose _ := trivial

theorem handsBack_operator (s : Sequence) : s.operator.HandsBack where
  init := trivial
  process := by
    intro (m : Sequence)
    simp only [operator]
    split
    · trivial
    · exact handsBack_putRow trivial fun _ => ⟨m, rfl⟩

end Sequence

namespace Executor

variable (x : Executor) {r : Resource}

theorem secluded_await (reply : Resource.Reply) : (await reply).Secluded := by
  cases reply with
  | held f => exact fun _ => trivial
  | _ => trivial

theorem secluded_execute (s : State r) (row : Row) (statement : String) (output : Schema) :
    (x.execute r s row statement output).Secluded := by
  intro _
  refine (secluded_await _).bind fun reply => ?_
  cases reply with
  | error f =>
    refine Secluded.bind (b := isStopped) (fun _ => trivial) fun stopped => ?_
    split <;> trivial
  | ok c =>
    refine Secluded.bind (b := tally c) (fun _ _ _ _ _ => trivial) fun _ => ?_
    refine (secluded_notes _).bind fun _ => ?_
    split
    · trivial
    · split
      · trivial
      · exact secluded_forward _ _

theorem handsBack_execute (s : State r) (row : Row) (statement : String) (output : Schema) :
    (x.execute r s row statement output).HandsBack := by
  refine handsBack_bind (b := note _) ⟨id, fun _ => trivial⟩ fun _ => ?_
  refine handsBack_bind (asks_await _) fun reply => ?_
  cases reply with
  | error f =>
    refine handsBack_bind (b := isStopped) ⟨id, fun _ => trivial⟩ fun stopped => ?_
    split <;> trivial
  | ok c =>
    refine handsBack_bind (asks_tally c) fun _ => ?_
    refine handsBack_bind (asks_notes _) fun _ => ?_
    split
    · trivial
    · split
      · trivial
      · exact handsBack_forward _ _

theorem secluded_operator (r : Resource) : (x.operator r).Secluded where
  init := trivial
  process m := secluded_withRow m fun row => by
    split
    · trivial
    · split
      · trivial
      · exact x.secluded_execute _ _ _ _
  dispose m := by
    intro v
    refine (secluded_notes _).bind fun _ => ?_
    split <;> trivial

theorem handsBack_operator (r : Resource) : (x.operator r).HandsBack where
  init := trivial
  process m := handsBack_withRow m fun row => by
    split
    · trivial
    · split
      · trivial
      · exact x.handsBack_execute _ _ _ _

end Executor

namespace Script

theorem secluded_perform (last : Option Row) (a : Act) : (perform last a).Secluded := by
  cases a with
  | putRow source =>
    simp only [perform]
    split
    · trivial
    · exact fun _ => trivial
  | rejectRow source d =>
    simp only [perform]
    split
    · trivial
    · exact fun _ => trivial
  | addError => exact fun _ _ => trivial
  | endOutput => exact fun _ _ => trivial
  | info params => exact fun _ _ => trivial
  | _ => exact fun _ => trivial

theorem secluded_performAll (quiet : Bool) (last : Option Row) (acts : List Act) :
    (performAll quiet last acts).Secluded := by
  induction acts generalizing last with
  | nil => trivial
  | cons a rest ih =>
    refine (secluded_perform last a).bind fun x => ?_
    obtain ⟨last, answer⟩ := x
    cases quiet with
    | true => exact ih last
    | false => exact fun _ => ih last

variable (s : Script)

theorem secluded_play (state : State) (scene : Scene) : (s.play state scene).Secluded :=
  (secluded_performAll _ _ _).bind fun _ => trivial

theorem secluded_operator : s.operator.Secluded where
  init := (s.secluded_play _ _).bind fun _ => trivial
  process m := by
    simp only [operator]
    split
    · trivial
    · exact s.secluded_play _ _
  dispose m := fun _ _ => (s.secluded_play _ _).bind fun _ => trivial

end Script

/-- Whatever a recipe makes keeps to itself. -/
theorem Recipe.secluded {x : Recipe} {i : StepInfo} {op : Operator} (h : x.make i = .ok op) :
    op.Secluded := by
  cases x with
  | passThrough =>
    cases h
    exact Operator.secluded_passThrough
  | tolerant =>
    cases h
    have h := Operator.secluded_passThrough
    exact ⟨h.init, h.process, h.dispose⟩
  | sequence =>
    obtain ⟨s, -, rfl⟩ := exists_of_map_eq_ok h
    exact s.secluded_operator
  | rows fields values =>
    obtain ⟨rows, -, rfl⟩ := exists_of_map_eq_ok h
    exact Operator.secluded_rowList rows
  | given list =>
    obtain ⟨rows, -, rfl⟩ := exists_of_map_eq_ok h
    exact Operator.secluded_rowList rows
  | collector =>
    cases h
    exact Operator.secluded_collector
  | filter field test =>
    cases h
    exact Operator.secluded_filter _
  | executor resource =>
    obtain ⟨x, -, rfl⟩ := exists_of_map_eq_ok h
    exact x.secluded_operator _
  | broken f => cases h
  | rejecter r =>
    cases h
    exact r.secluded_operator _
  | script s =>
    cases h
    exact s.secluded_operator

/-- Whatever a recipe makes hands refusals back, unless it follows a script. -/
theorem Recipe.handsBack {x : Recipe} {i : StepInfo} {op : Operator}
    (hscript : ∀ s, x ≠ .script s) (h : x.make i = .ok op) : op.HandsBack := by
  cases x with
  | passThrough =>
    cases h
    exact Operator.handsBack_passThrough
  | tolerant =>
    cases h
    have h := Operator.handsBack_passThrough
    exact ⟨h.init, h.process⟩
  | sequence =>
    obtain ⟨s, -, rfl⟩ := exists_of_map_eq_ok h
    exact s.handsBack_operator
  | rows fields values =>
    obtain ⟨rows, -, rfl⟩ := exists_of_map_eq_ok h
    exact Operator.handsBack_rowList rows
  | given list =>
    obtain ⟨rows, -, rfl⟩ := exists_of_map_eq_ok h
    exact Operator.handsBack_rowList rows
  | collector =>
    cases h
    exact Operator.handsBack_collector
  | filter field test =>
    cases h
    exact Operator.handsBack_filter _
  | executor resource =>
    obtain ⟨x, -, rfl⟩ := exists_of_map_eq_ok h
    exact x.handsBack_operator _
  | broken f => cases h
  | rejecter r =>
    cases h
    exact r.handsBack_operator _
  | script s => exact absurd rfl (hscript s)

end RowFlow
