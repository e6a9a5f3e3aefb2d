import RowFlow.Copy.Basic
import RowFlow.Proofs.Program.Frame

/-
The call of a hook, as its caller sees it: a mark, whatever the hook does, and another
mark with the result.
-/
namespace RowFlow

def Position.marked (m : Mark) (p : Position) : Position := { p with past := .mark m :: p.past }

namespace Program

variable {σ α : Type} {W : Shared → Prop} {G : Node → Position → Prop}

theorem keeps_call {hook : Hook} {more : α → Bool} {body : Behaviour (σ × Ending α)}
    {pos : Position} {P : Position → Prop} {B : σ × Ending α → Position → Prop}
    {R : σ × Except Fault α → Position → Prop} (hP : Stable W P) (hpos : P pos)
    (hB : ∀ a, Stable W (B a)) (hR : ∀ a, Stable W (R a))
    (enter : ∀ q, W q.shared → P q →
      G (.act (.mark (.enter hook))) q ∧ body.program.Keeps W G B (q.marked (.enter hook)))
    (own : ∀ a q, W q.shared → B a q → G (.act .own) q)
    (exit : ∀ m e q step, W q.shared → B (m, e) q →
      G (.act (.mark (.exit hook ((resultOf step e).map more)))) q ∧
        R (m, resultOf step e) (q.marked (.exit hook ((resultOf step e).map more)))) :
    (call hook more body).Keeps W G R pos := by
  refine keeps_act hP hpos fun q hw hq => ?_
  obtain ⟨hguard, hbody⟩ := enter q hw hq
  refine ⟨hguard, ?_⟩
  refine keeps_bind (keeps_bind (Keeps.mono hbody (fun _ _ _ hg => hg) ?_))
  rintro ⟨m, e⟩ q hw hb
  refine keeps_act (hB _) hb fun q hw hb => ⟨own _ q hw hb, fun q' hd hw' => ?_⟩
  have hb' := hB _ q q' hd hw' hb
  refine keeps_act (hB _) hb' fun q hw hb => ?_
  obtain ⟨hguard, hr⟩ := exit m e q _ hw hb
  exact ⟨hguard, fun q' hd hw' => hR _ _ q' hd hw' hr⟩

end Program
end RowFlow
