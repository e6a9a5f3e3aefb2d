import RowFlow.Proofs.Refusal.Hooks
import RowFlow.Proofs.Run.Diary

/-
The copies of a run that is not at work.  Each of them has tried to begin, and may have been
given up since; what it has done by now is the first part of such a course
(`attempts_after`).  As for the life of a copy in general, a copy in the middle of a program
is told by the ends that it can still come to.
-/
namespace RowFlow

/-- What a copy that was made at `o` has done when it is gone without having worked. -/
inductive Operator.GivenUp (op : Operator) (o : Local) : List Doing → Local → Prop
  | mk {bs ds : List Doing} {k l : Local} {x : op.State × Except Fault Unit}
      (begin : (Program.begin op op.start).Runs o bs x k)
      (abandon : (Program.abandon op x.1).Runs k ds () l) : GivenUp op o (bs ++ ds) l

/-- What a copy that was made at `o` and is not at work has done, and where it has come to. -/
def Task.Attempts {op : Operator} (o : Local) (ds : List Doing) (l : Local) : Task op → Prop
  | .created => ds = [] ∧ ∃ b, l = o.withCancelled b
  | .beginning p => ∀ es x m, p.Runs l es x m →
      (Program.begin op op.start).Runs o (ds ++ es) x m
  | .ready s => (Program.begin op op.start).Runs o ds (s, .ok ()) l
  | .refused s f => (Program.begin op op.start).Runs o ds (s, .error f) l
  | .working _ => False
  | .leaving p => ∀ es x m, p.Runs l es x m → op.GivenUp o (ds ++ es) m
  | .gone => op.GivenUp o ds l

namespace Copy

open Program

variable {c c' : Copy} {o : Local} {s s' : Shared} {ds : List Doing} {d : Option Doing}
  {deed : Option Deed}

theorem honest_doing? (c : Copy) (s : Shared) : Honest (c.doing? s) := by
  obtain ⟨op, own, task⟩ := c
  cases task with
  | beginning p => exact p.honest_doing? own s
  | working p => exact p.honest_doing? own s
  | leaving p => exact p.honest_doing? own s
  | _ => exact fun _ _ _ h => by cases h

theorem Goes.attempts (hg : c.Goes s d deed c' s') (hd : Honest d) (hwork : c'.kind ≠ .working)
    (h : c.task.Attempts o ds c.own) : c'.task.Attempts o (ds ++ d.toList) c'.own := by
  have hsame : ds ++ (none : Option Doing).toList = ds := List.append_nil ds
  cases hg with
  | still => rwa [hsame]
  | turn ht =>
    rw [hsame]
    cases ht with
    | begin =>
      obtain ⟨rfl, b, rfl⟩ := h
      exact fun es x m hr => hr.before
    | ready t =>
      have hready := h [] _ _ (.here _ _)
      rwa [List.append_nil] at hready
    | refused t f =>
      have hrefused := h [] _ _ (.here _ _)
      rwa [List.append_nil] at hrefused
    | start t => exact absurd rfl hwork
    | again t => exact absurd rfl hwork
    | leave t e => exact absurd h id
    | gone =>
      have hgone := h [] _ _ (.here _ _)
      rwa [List.append_nil] at hgone
    | giveUp t => exact fun es x m hr => .mk h hr
    | giveUpRefused t f => exact fun es x m hr => .mk h hr
  | beginning hp =>
    intro es x m hr
    rw [List.append_assoc]
    exact h _ x m (hp.runs hd hr)
  | working hp => exact absurd h id
  | leaving hp =>
    intro es x m hr
    rw [List.append_assoc]
    exact h _ x m (hp.runs hd hr)

theorem Waits.attempts (hw : c.Waits s c') (hwork : c'.kind ≠ .working)
    (h : c.task.Attempts o ds c.own) : c'.task.Attempts o ds c'.own := by
  cases hw with
  | goes hg =>
    have hstill := hg.attempts (fun _ _ _ hd => by cases hd) hwork h
    rwa [Option.toList_none, List.append_nil] at hstill
  | @cancelled op own t b =>
    cases t with
    | created =>
      obtain ⟨hds, b', rfl⟩ := h
      exact ⟨hds, b, rfl⟩
    | beginning p => exact fun es x m hr => h es x m hr.before
    | ready t => exact h.after b
    | refused t f => exact h.after b
    | working p => exact h
    | leaving p => exact fun es x m hr => h es x m hr.before
    | gone =>
      cases h with
      | mk hbegin habandon => exact .mk hbegin (habandon.after b)

end Copy

namespace Run

variable {r : Run} {place : Nat}

/-- A run that is not at work has never been. -/
theorem atWork_of_happen {e : Event} (h : (r.happen e).phase.atWork = false) :
    r.phase.atWork = false := by
  have he := r.effect_happen e
  revert he h
  generalize r.happen e = r'
  intro h he
  cases he with
  | start _ => cases h
  | finish _ _ => cases h
  | prepare hp => rw [hp]; rfl
  | refuse hp _ _ => rw [hp]; rfl
  | accept hp _ _ => rw [hp]; rfl
  | giveReason hp => rw [hp]; rfl
  | raiseFlag hp => rw [hp]; rfl
  | pass hp _ _ => rw [hp]; rfl
  | close hp _ => rw [hp]; rfl
  | _ => exact h

theorem kind_ne_working (h : r.Staged) (hwork : r.phase.atWork = false) {c : Copy}
    (hc : c ∈ r.net.copies) : c.kind ≠ .working := by
  have hallows := h.kinds c hc
  intro hkind
  rw [hkind] at hallows
  revert hallows hwork
  cases r.phase <;> simp [Phase.Allows, Phase.atWork]

/-- As long as the run is not at work a copy has tried to begin, and no more. -/
theorem attempts_after {c₀ : Copy} (hstaged : r.Staged) (hc₀ : r.net.copies[place]? = some c₀)
    (hkind : c₀.kind = .created) (events : List Event)
    (hwork : (r.after events).phase.atWork = false) :
    ∀ c, (r.after events).net.copies[place]? = some c →
      c.task.Attempts c₀.own (r.did events place) c.own := by
  induction events using List.reverseRecOn with
  | nil =>
    intro c hc
    obtain rfl := Option.some.inj (hc₀.symm.trans hc)
    obtain ⟨op, own, task⟩ := c₀
    cases task with
    | created => exact ⟨rfl, own.cancelled, rfl⟩
    | _ => cases hkind
  | append_singleton events e ih =>
    intro c' hc'
    have hne : c'.kind ≠ .working :=
      kind_ne_working (hstaged.after _) hwork (List.mem_of_getElem? hc')
    rw [after_concat] at hc' hwork
    rw [did, along_concat]
    obtain ⟨c, hc, ⟨d, hdoes⟩ | hskips⟩ := goes_happen hc'
    · have hold := ih (atWork_of_happen hwork) c hc
      rw [doing?_of_does hdoes hc]
      exact hdoes.goes.attempts (hdoes.doing ▸ c.honest_doing? _) hne hold
    · have hold := ih (atWork_of_happen hwork) c hc
      rw [doing?_of_skips hskips hc, Option.toList_none, List.append_nil]
      exact hskips.waits.attempts hne hold

end Run
end RowFlow
