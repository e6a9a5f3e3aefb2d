import RowFlow.Operator.PassThrough
import RowFlow.Operator.Script
import RowFlow.Operator.Sequence
import RowFlow.Proofs.Program.Steady

/-
What operators ask for, hook by hook.
-/
namespace RowFlow

/-- All hooks make such requests only. -/
structure Operator.Asks (op : Operator) (allowed : Request → Prop) : Prop where
  init : ∀ m, (op.init m).Asks allowed
  process : ∀ m, (op.process m).Asks allowed
  dispose : ∀ m, (op.dispose m).Asks allowed

theorem Operator.Asks.mono {op : Operator} {allowed allowed' : Request → Prop}
    (h : op.Asks allowed) (himp : ∀ q, allowed q → allowed' q) : op.Asks allowed' where
  init m := (h.init m).mono himp
  process m := (h.process m).mono himp
  dispose m := (h.dispose m).mono himp

theorem Operator.asks_all (op : Operator) : op.Asks fun _ => True where
  init m := (op.init m).asks_all
  process m := (op.process m).asks_all
  dispose m := (op.dispose m).asks_all

namespace Behaviour

variable {σ : Type} {allowed : Request → Prop}

theorem asks_forward (hput : ∀ row, allowed (.putRow row)) (s : σ) (row : Row) :
    (forward s row).Asks allowed := by
  refine Asks.bind (b := putRow row) ⟨hput row, fun _ => trivial⟩ fun r => ?_
  cases r <;> trivial

theorem asks_withRow (hget : allowed .getRow) (s : σ) {body : Row → Behaviour (σ × Ending Bool)}
    (hbody : ∀ row, (body row).Asks allowed) : (withRow s body).Asks allowed := by
  refine Asks.bind (b := getRow) ⟨hget, fun _ => trivial⟩ fun row => ?_
  cases row with
  | none => trivial
  | some row => exact hbody row

end Behaviour

theorem Operator.asks_passThrough {allowed : Request → Prop} (hget : allowed .getRow)
    (hput : ∀ row, allowed (.putRow row)) : Operator.passThrough.Asks allowed where
  init _ := trivial
  process m := Behaviour.asks_withRow hget m fun row => Behaviour.asks_forward hput m row
  dispose _ := trivial

theorem Sequence.asks_operator {allowed : Request → Prop} (hput : ∀ row, allowed (.putRow row))
    (s : Sequence) : s.operator.Asks allowed where
  init _ := trivial
  process := by
    intro (m : Sequence)
    simp only [operator]
    split
    · trivial
    · refine Behaviour.Asks.bind (b := Behaviour.putRow m.row) ⟨hput _, fun _ => trivial⟩
        fun r => ?_
      cases r <;> trivial
  dispose _ := trivial

namespace Script

variable {allowed : Request → Prop}

theorem asks_performAll (hnote : ∀ n, allowed (.note n)) (quiet : Bool) {acts : List Act}
    (hacts : ∀ a ∈ acts, ∀ last, (perform last a).Asks allowed) (last : Option Row) :
    (performAll quiet last acts).Asks allowed := by
  induction acts generalizing last with
  | nil => trivial
  | cons a rest ih =>
    have hrest := ih fun a ha => hacts a (List.mem_cons_of_mem _ ha)
    refine (hacts a List.mem_cons_self last).bind fun x => ?_
    cases quiet with
    | true => exact hrest x.1
    | false => exact ⟨hnote _, fun _ => hrest x.1⟩

/-- A script asks for what the acts of its scenes ask for, and notes their answers. -/
theorem asks_operator (s : Script) (hlook : allowed .look) (hnote : ∀ n, allowed (.note n))
    (hacts : ∀ scene ∈ s.init :: s.dispose :: s.scenes, ∀ a ∈ scene.acts, ∀ last,
      (perform last a).Asks allowed) : s.operator.Asks allowed := by
  have hplay : ∀ scene ∈ s.init :: s.dispose :: s.scenes, ∀ state,
      (s.play state scene).Asks allowed := fun scene hscene state =>
    (asks_performAll hnote s.quiet (hacts scene hscene) state.last).bind fun _ => trivial
  refine ⟨fun m => ?_, fun m => ?_, fun m => ?_⟩
  · exact (hplay s.init List.mem_cons_self m).bind fun _ => trivial
  · simp only [operator]
    split
    · trivial
    · next scene hnext =>
      have hscene : scene ∈ s.scenes := by
        unfold next? at hnext
        split at hnext <;> exact List.mem_of_getElem? hnext
      exact hplay scene (List.mem_cons_of_mem _ (List.mem_cons_of_mem _ hscene)) _
  · refine ⟨hlook, fun _ => ⟨hnote _, fun _ => ?_⟩⟩
    exact (hplay s.dispose (List.mem_cons_of_mem _ List.mem_cons_self) m).bind fun _ => trivial

end Script
end RowFlow
