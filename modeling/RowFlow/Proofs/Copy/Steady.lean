import RowFlow.Proofs.Copy.Watch
import RowFlow.Proofs.Program.Parts

/-
Regimes with one condition for all seams.  Besides the code of its hooks, the rejection
of rows and the end of its outputs a copy does little (`Node.Outer`).  A condition that
this little keeps, and that is kept by each request that the hooks make, by each rejection
and by the end of the outputs, holds at all seams (`Regime.lawful_steady`).

A condition that the end of the outputs turns into another one holds until then, and the
other one afterwards (`Regime.lawful_parting`).
-/
namespace RowFlow

/-- What a copy does besides its hooks, the rejection of rows and the end of its outputs. -/
inductive Node.Outer : Node → Prop
  | enter (hook : Hook) : Outer (.act (.mark (.enter hook)))
  | exit (hook : Hook) (r : Except Fault Bool) : Outer (.act (.mark (.exit hook r)))
  | own : Outer (.act .own)
  | isStopped : Outer (.act .isStopped)
  | allowErrors (b : Bool) : Outer (.act (.allowErrors b))
  | publish (s : StepState) : Outer (.act (.publish s))
  | settle (e : Outcome) : Outer (.act (.settle e))
  | detaches (i : Nat) : Outer (.act (.detach i))
  | leaves : Outer (.act .leaveInputs)
  | error {n : Node} (h : n.Fails) : Outer n
  | fails (step : String) {n : Node} (h : n.Limits (.stepFailed step)) : Outer n

namespace Program

variable {α β σ : Type} {w : Watch} {o : Local} {H : w.State → Prop} {op : Operator}

theorem outer_detachInputs : detachInputs.Within Node.Outer :=
  leaving_detachInputs.mono fun n h => by
    cases n with
    | act a =>
      cases a with
      | own => exact .own
      | detach i => exact .detaches i
      | leaveInputs => exact .leaves
      | _ => exact absurd h id
    | _ => exact absurd h id

theorem outer_addError : addError.Within Node.Outer := within_fails fun _ => .error

theorem outer_failStep : failStep.Within Node.Outer :=
  outer_addError.bind fun _ => (within_perform (a := .own) .own).bind fun l =>
    (within_limits fun _ h => .fails l.info.name h).bind fun _ => within_pure _

end Program

open Program

/-- What a watch has to expect for a condition to hold at all seams. -/
structure Watch.Preserves (w : Watch) (o : Local) (allowed : Request → Prop)
    (H : w.State → Prop) : Prop where
  lawful : w.Lawful
  lasts : w.Lasts H
  outer : ∀ d x, d.node.Outer → H x → ∃ y, w.Next x d y ∧ H y
  request : ∀ q, allowed q → q.program.Stays w o H
  reject : ∀ row d, (rejectRow row d).Stays w o H
  ends : endOutput.Stays w o H

namespace Watch.Preserves

variable {α β σ : Type} {w : Watch} {o : Local} {H : w.State → Prop} {op : Operator}
  {allowed : Request → Prop}

/-- Most requests come down to what a watch has nothing to do with; the others are looked at
one by one. -/
theorem of_parts {quiet : Node → Prop} (special : Request → Prop) (hw : w.Lawful)
    (hH : w.Lasts H) (hnext : ∀ d x, quiet d.node → H x → ∃ y, w.Next x d y ∧ H y)
    (houter : ∀ n, n.Outer → quiet n)
    (hparts : ∀ q n, allowed q → ¬ special q → q.Parts n → quiet n)
    (hspecial : ∀ q, special q → q.program.Stays w o H)
    (hreject : ∀ row d, allowed (.rejectRow row d)) (hends : allowed .endOutput) :
    w.Preserves o allowed H := by
  have hrequest : ∀ q, allowed q → q.program.Stays w o H := by
    intro q hq
    by_cases hs : special q
    · exact hspecial q hs
    · exact stays_within hH hnext ((within_parts q).mono fun n hn => hparts q n hq hs hn)
  exact ⟨hw, hH, fun d x hd hx => hnext d x (houter _ hd) hx, hrequest,
    fun row d => hrequest _ (hreject row d), hrequest _ hends⟩

variable (h : w.Preserves o allowed H)
include h

theorem stays_outer {p : Program α} (hp : p.Within Node.Outer) : p.Stays w o H :=
  stays_within h.lasts h.outer hp

theorem stays_perform {a : Action} (ha : (Node.act a).Outer) : (perform a).Stays w o H :=
  h.stays_outer (within_perform ha)

theorem stays_value (a : α) : (pure a : Program α).Stays w o H := stays_pure h.lasts a

theorem stays_afterFault (f : Fault) : (afterFault f).Stays w o H := by
  refine (h.stays_perform .own).bind h.lawful fun (l : Local) => ?_
  have hfail := h.stays_outer outer_failStep
  split
  · refine (h.reject _ _).bind h.lawful fun r => ?_
    cases r with
    | ok _ => exact h.stays_value _
    | error f => exact hfail
  · exact hfail

theorem stays_call {hook : Hook} {more : α → Bool} {b : Behaviour (σ × Ending α)}
    (hb : b.Asks allowed) : (call hook more b).Stays w o H := by
  refine (h.stays_perform (.enter hook)).bind h.lawful fun _ => .bind h.lawful ?_ fun r =>
    (h.stays_perform (.exit hook _)).bind h.lawful fun _ => h.stays_value r
  refine (stays_behaviour h.lawful h.lasts h.request hb).bind h.lawful fun _ => ?_
  exact (h.stays_perform .own).bind h.lawful fun (l : Local) => h.stays_value _

variable (hop : op.Asks allowed) (m : op.State)
include hop

theorem stays_begin : (begin op m).Stays w o H := by
  refine (h.stays_perform (.allowErrors _)).bind h.lawful fun _ => ?_
  refine (h.stays_call (hop.init m)).bind h.lawful fun ⟨m, r⟩ => ?_
  cases r with
  | ok _ => exact (h.stays_perform (.publish _)).bind h.lawful fun _ => h.stays_value _
  | error f =>
    refine (h.stays_outer outer_addError).bind h.lawful fun _ => ?_
    refine (h.stays_perform (.settle _)).bind h.lawful fun _ => ?_
    refine (h.stays_perform (.publish _)).bind h.lawful fun _ => ?_
    exact (h.stays_perform .own).bind h.lawful fun (l : Local) => h.stays_value _

theorem stays_round : (round op m).Stays w o H := by
  refine (h.stays_perform .isStopped).bind h.lawful fun (stopped : Bool) => ?_
  split
  · exact h.stays_value _
  · refine (h.stays_call (hop.process m)).bind h.lawful fun ⟨m, r⟩ => ?_
    match r with
    | .ok true => exact h.stays_value _
    | .ok false =>
      exact (h.stays_perform .isStopped).bind h.lawful fun (_ : Bool) => h.stays_value _
    | .error f => exact (h.stays_afterFault f).bind h.lawful fun _ => h.stays_value _

theorem stays_dispose : (dispose op m).Stays w o H := by
  refine (h.stays_call (hop.dispose m)).bind h.lawful fun ⟨m, r⟩ => ?_
  have hlast := h.stays_perform (.publish .disposed)
  cases r with
  | ok _ => exact (h.stays_value ()).bind h.lawful fun _ => hlast
  | error f => exact (h.stays_outer outer_addError).bind h.lawful fun _ => hlast

theorem stays_parted (e : Outcome) : (do
    detachInputs
    perform (.settle e)
    perform (.publish e.state)
    dispose op m).Stays w o H := by
  refine (h.stays_outer outer_detachInputs).bind h.lawful fun _ => ?_
  refine (h.stays_perform (.settle e)).bind h.lawful fun _ => ?_
  exact (h.stays_perform (.publish _)).bind h.lawful fun _ => h.stays_dispose hop m

section Parting

variable {K : w.State → Prop} (hends : ∀ x, H x → endOutput.Heeds w o (fun _ => K) x)
  (hK : w.Preserves o allowed K)
include hends hK

/-- Where a copy leaves after work the condition changes by the end of its outputs. -/
theorem heeds_leave (e : Outcome) {x : w.State} (hx : H x) :
    (leave op m e).Heeds w o (fun _ => K) x :=
  (hends x hx).chain h.lawful fun _ => hK.stays_parted hop m e

theorem heeds_abandon {x : w.State} (hx : H x) :
    (abandon op m).Heeds w o (fun _ => K) x := by
  have hrest : ∀ x, H x → (do endOutput; dispose op m).Heeds w o (fun _ => K) x :=
    fun x hx => (hends x hx).chain h.lawful fun _ => hK.stays_dispose hop m
  refine (h.stays_perform .own x hx).chain h.lawful fun (l : Local) x hx => ?_
  split
  · refine (h.stays_perform (.settle _) x hx).chain h.lawful fun _ x hx => ?_
    exact (h.stays_perform (.publish _) x hx).chain h.lawful fun _ => hrest
  · exact hrest x hx

end Parting

end Watch.Preserves

namespace Regime

/-- One condition until the outputs have ended, and one when the copy is gone. -/
def parting (w : Watch) (allowed : Request → Prop) (H K : Local → w.State → Prop) : Regime w where
  fits op := op.Asks allowed
  seam _ o t := match t with
    | .gone => K o
    | _ => H o

theorem lawful_parting {w : Watch} {allowed : Request → Prop} {H K : Local → w.State → Prop}
    (hw : w.Lawful) (h : ∀ o, w.Preserves o allowed (H o)) (hK : ∀ o, w.Preserves o allowed (K o))
    (hends : ∀ o x, H o x → endOutput.Heeds w o (fun _ => K o) x) :
    (parting w allowed H K).Lawful where
  watch := hw
  lasts _ o t := by cases t <;> first | exact (hK o).lasts | exact (h o).lasts
  begin _ o x hop hx := ((h o).stays_begin hop _ x hx).mono fun a _ hy => by
    obtain ⟨m, r⟩ := a
    cases r <;> exact hy
  start _ o m x hx := ((h o).stays_perform (.publish .running)).bind hw
    (fun _ => (h o).stays_value (m, Turn.again)) x hx
  round _ o m x hop hx := ((h o).stays_round hop m x hx).mono fun a _ hy => by
    obtain ⟨m, t⟩ := a
    cases t <;> exact hy
  leave _ o m e x hop hx := (h o).heeds_leave hop m (hends o) (hK o) e hx
  abandon _ o m x hop hx := (h o).heeds_abandon hop m (hends o) (hK o) (hx.elim id id)

def steady (w : Watch) (allowed : Request → Prop) (H : Local → w.State → Prop) : Regime w where
  fits op := op.Asks allowed
  seam _ o _ := H o

theorem lawful_steady {w : Watch} {allowed : Request → Prop} {H : Local → w.State → Prop}
    (hw : w.Lawful) (h : ∀ o, w.Preserves o allowed (H o)) : (steady w allowed H).Lawful := by
  have hsame : steady w allowed H = parting w allowed H H := by
    unfold steady parting
    congr 1
    funext op o t
    cases t <;> rfl
  rw [hsame]
  exact lawful_parting hw h h fun o => (h o).ends

end Regime
end RowFlow
