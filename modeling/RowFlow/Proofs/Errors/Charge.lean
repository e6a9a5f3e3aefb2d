import RowFlow.Proofs.Copy.Watch
import RowFlow.Proofs.Program.Parts

/-
How errors are charged.  Each error of a copy is counted by the copy first, and the next
thing it does is to tell the run (`Charge.owing`).  And each has its ground in something
that can be told of the copy: a row was rejected, a hook has failed, or the copy is to end
as failed.  The ground may come after the count or
before it; in between the balance is off by one.

The charge follows a copy through its programs, as long as its operator leaves the counts
of errors alone.
-/
namespace RowFlow

namespace Request

/-- Requests that have nothing to do with the counts of errors but to reject rows. -/
def LeavesErrors : Request → Prop
  | addError => False
  | addRunErrors _ => False
  | add k _ => k ≠ .errors
  | _ => True

end Request

namespace Errors

structure Charge where
  /-- There is an error that the run has not been told of. -/
  owing : Bool := false
  /-- How many errors were counted for which there is no ground yet. -/
  balance : Int := 0
  /-- The hook for the start has failed. -/
  refused : Bool := false
  /-- The copy that has worked has ended as failed. -/
  failed : Bool := false
  /-- The hook for the end has failed. -/
  faulted : Bool := false

def Free : Node → Prop
  | .act (.add .errors _) => False
  | .act (.countErrors _) => False
  | .act (.settle _) => False
  | .act (.mark (.rejectDone (.ok _))) => False
  | .act (.mark (.exit .init (.error _))) => False
  | .act (.mark (.exit .dispose (.error _))) => False
  | _ => True

inductive Charge.Next : Charge → Doing → Charge → Prop
  | free {x : Charge} {d : Doing} (h : Free d.node) (ho : x.owing = false) : Next x d x
  | count {x : Charge} {v : Nat} (ho : x.owing = false) :
      Next x (.act (.add .errors 1) v) { x with owing := true, balance := x.balance + 1 }
  | tell {x : Charge} {v : Tally} (ho : x.owing = true) :
      Next x (.act (.countErrors 1) v) { x with owing := false }
  | reject {x : Charge} {u v : Unit} (ho : x.owing = false) :
      Next x (.act (.mark (.rejectDone (.ok u))) v) { x with balance := x.balance - 1 }
  | refuse {x : Charge} {f : Fault} {v : Unit} (ho : x.owing = false) (hr : x.refused = false)
      (hf : x.failed = false) :
      Next x (.act (.mark (.exit .init (.error f))) v)
        { x with balance := x.balance - 1, refused := true }
  | fault {x : Charge} {f : Fault} {v : Unit} (ho : x.owing = false) (hf : x.faulted = false) :
      Next x (.act (.mark (.exit .dispose (.error f))) v)
        { x with balance := x.balance - 1, faulted := true }
  | fail {x : Charge} {v : Unit} (ho : x.owing = false) (hr : x.refused = false)
      (hf : x.failed = false) :
      Next x (.act (.settle .failed) v) { x with balance := x.balance - 1, failed := true }
  | settle {x : Charge} {e : Outcome} {v : Unit} (ho : x.owing = false)
      (he : e = .failed → x.refused = true) (hf : x.failed = false) :
      Next x (.act (.settle e) v) x

/-- The copy owes nothing, and all its errors have their grounds. -/
def Charge.Even (x : Charge) : Prop := x.owing = false ∧ x.balance = 0

theorem Charge.settled {b : Int} (x : Charge) (hb : x.balance = b) :
    { x with balance := b } = x := by
  rw [← hb]

def watch : Watch := .plain Charge Charge.Next fun _ => False

theorem lawful_watch : watch.Lawful := Watch.lawful_plain fun _ _ _ hd => hd.elim

open Program

variable {α β : Type} {o : Local} {x : Charge}

theorem heeds_alone {p : Program α} (hp : p.Within Free) (ho : x.owing = false) :
    p.Heeds watch o (fun _ y => y = x) x :=
  heeds_aside (fun _ hd => .free hd ho) hp

/-- A free program followed by another one. -/
theorem heeds_free {p : Program α} {f : α → Program β} {R : β → Charge → Prop}
    (hp : p.Within Free) (ho : x.owing = false) (hf : ∀ a, (f a).Heeds watch o R x) :
    (p >>= f).Heeds watch o R x :=
  heeds_skip (fun _ hd => .free hd ho) lawful_watch hp hf

theorem heeds_last {p : Program α} (hp : p.Within Free) (hx : x.Even) :
    p.Heeds watch o (fun _ => Charge.Even) x :=
  (heeds_alone hp hx.1).mono fun _ y hy => by
    cases hy
    exact hx

theorem free_limits {r : StopReason} {n : Node} (h : n.Limits r) : Free n := by
  cases h <;> trivial

/-- The run is told of the error that it has not been told of. -/
theorem heeds_addRunErrors (ho : x.owing = true) :
    (addRunErrors 1).Heeds watch o (fun _ y => y = { x with owing := false }) x := by
  refine heeds_act fun tally _ => ⟨_, .tell ho, ?_⟩
  split
  · exact heeds_free (within_limits fun _ => free_limits) rfl fun _ => heeds_pure rfl
  · exact heeds_pure rfl

/-- An error is counted and told. -/
theorem heeds_addError (ho : x.owing = false) :
    addError.Heeds watch o (fun _ y => y = { x with balance := x.balance + 1 }) x := by
  refine heeds_act fun v _ => ⟨_, .count ho, ?_⟩
  refine (heeds_addRunErrors rfl).chain lawful_watch fun _ y hy => heeds_pure ?_
  rw [hy, ho]

theorem free_endOutput : endOutput.Within Free :=
  within_parts_endOutput.mono fun n h => by cases h <;> trivial

theorem free_detachInputs : detachInputs.Within Free :=
  leaving_detachInputs.mono fun n h => by
    cases n with
    | act a => cases a <;> trivial
    | _ => trivial

theorem free_parts {q : Request} {n : Node} (hq : q.LeavesErrors)
    (hr : ∀ row d, q ≠ .rejectRow row d) (h : q.Parts n) : Free n := by
  cases h with
  | error h => exact absurd hq id
  | countErrors n => exact absurd hq id
  | errorLimit k h => exact absurd hq id
  | add c n =>
    cases c with
    | errors => exact absurd rfl hq
    | _ => trivial
  | putLimit row h => exact free_limits h
  | rowLimit k h => exact free_limits h
  | stop h => exact free_limits h
  | reject row d | rejectOwn row d | rejectLooks row d | rejectChooses row d | sends row d i out
  | rejects row d | rejectFails row d h | rejectDone row d r => exact absurd rfl (hr row d)
  | _ => trivial

/-- A rejected row is an error with a ground of its own. -/
theorem heeds_rejectRow (hx : x.Even) (row : Row) (d : Diagnostic) :
    (rejectRow row d).Heeds watch o (fun _ y => y = x) x := by
  obtain ⟨ho, hb⟩ := hx
  have hfault : ∀ f : Fault, (pure (.error f) : Program (Except Fault Unit)).Heeds watch o
      (fun r y => (do perform (.mark (.rejectDone r)); pure r).Heeds watch o (fun _ y => y = x) y)
      x :=
    fun f => heeds_pure (heeds_free (within_perform trivial) ho fun _ => heeds_pure rfl)
  refine heeds_free (within_perform trivial) ho fun _ => .bind lawful_watch ?_
  refine heeds_free (within_perform (a := .own) trivial) ho fun l => ?_
  split
  · exact hfault _
  · split
    · exact hfault _
    · next out _ =>
      refine heeds_free (within_parts_sendError trivial trivial fun _ => trivial) ho fun r => ?_
      cases r with
      | error f => exact hfault f
      | ok u =>
        refine heeds_free (within_perform (a := .add .rejected 1) trivial) ho fun _ => ?_
        refine (heeds_addError ho).chain lawful_watch fun _ y hy => ?_
        cases hy
        refine heeds_pure (heeds_act fun v _ => ⟨_, .reject ho, heeds_pure ?_⟩)
        exact x.settled (Int.add_sub_cancel _ _).symm

/-- Hooks come back with the charge as they have found it. -/
theorem heeds_behaviour {b : Behaviour α} (hb : b.Asks Request.LeavesErrors) (hx : x.Even) :
    b.program.Heeds watch o (fun _ y => y = x) x := by
  refine stays_behaviour lawful_watch (Watch.lasts_plain _) (fun q hq y hy => ?_) hb x rfl
  cases hy
  by_cases hr : ∃ row d, q = .rejectRow row d
  · obtain ⟨row, d, rfl⟩ := hr
    exact heeds_rejectRow hx row d
  · have hparts : q.program.Within Free := (within_parts q).mono fun n hn =>
      free_parts hq (fun row d hq => hr ⟨row, d, hq⟩) hn
    exact heeds_alone hparts hx.1

/-- A copy that fails is ahead by one error until its outcome is settled. -/
theorem heeds_failStep (hx : x.Even) :
    failStep.Heeds watch o (fun t y => t = .leave .failed ∧ y = { x with balance := 1 }) x := by
  refine (heeds_addError hx.1).chain lawful_watch fun _ y hy => ?_
  rw [hx.2] at hy
  cases hy
  refine heeds_free (within_perform (a := .own) trivial) hx.1 fun l => ?_
  exact heeds_free (within_limits fun _ => free_limits) hx.1 fun _ => heeds_pure ⟨rfl, rfl⟩

/-- A round that has come to an end leaves the copy even, unless it leaves as failed. -/
def Turned (x : Charge) (t : Turn) (y : Charge) : Prop :=
  y = { x with balance := if t = .leave .failed then 1 else 0 }

theorem heeds_afterFault (hx : x.Even) (f : Fault) :
    (afterFault f).Heeds watch o (Turned x) x := by
  have hfail : failStep.Heeds watch o (Turned x) x := by
    refine (heeds_failStep hx).mono fun t y hy => ?_
    obtain ⟨rfl, hy⟩ := hy
    exact hy
  refine heeds_free (within_perform (a := .own) trivial) hx.1 fun l => ?_
  split
  · refine (heeds_rejectRow hx _ _).chain lawful_watch fun r y hy => ?_
    cases hy
    cases r with
    | ok _ => exact heeds_pure (x.settled hx.2).symm
    | error f => exact hfail
  · exact hfail

section Hooks

variable {σ : Type}

theorem heeds_call {hook : Hook} {more : α → Bool} {b : Behaviour (σ × Ending α)}
    {Q : σ × Except Fault α → Charge → Prop} (hb : b.Asks Request.LeavesErrors) (hx : x.Even)
    (hexit : ∀ m r, ∃ y, x.Next (.act (.mark (.exit hook (r.map more))) ()) y ∧ Q (m, r) y) :
    (call hook more b).Heeds watch o Q x := by
  refine heeds_free (within_perform trivial) hx.1 fun _ => .bind lawful_watch ?_
  refine (heeds_behaviour hb hx).chain lawful_watch fun ⟨m, ending⟩ y hy => ?_
  cases hy
  refine heeds_free (within_perform (a := .own) trivial) hx.1 fun l => heeds_pure ?_
  refine heeds_act fun _ _ => ?_
  obtain ⟨y, hnext, hq⟩ := hexit m (resultOf l.info.name ending)
  exact ⟨y, hnext, heeds_pure hq⟩

variable {op : Operator} (hop : op.Asks Request.LeavesErrors) (m : op.State)
include hop

theorem heeds_callInit (hx : x.Even) (hr : x.refused = false) (hf : x.failed = false) :
    (callInit op m).Heeds watch o (fun a y =>
      y = if a.2.isOk then x else { x with balance := -1, refused := true }) x := by
  refine heeds_call (hop.init m) hx fun m r => ?_
  cases r with
  | ok u => exact ⟨x, .free trivial hx.1, rfl⟩
  | error f => exact ⟨_, .refuse hx.1 hr hf, by rw [hx.2]; rfl⟩

theorem heeds_callProcess (hx : x.Even) :
    (callProcess op m).Heeds watch o (fun _ y => y = x) x :=
  heeds_call (hop.process m) hx fun _ _ => ⟨x, .free trivial hx.1, rfl⟩

theorem heeds_callDispose (hx : x.Even) (hf : x.faulted = false) :
    (callDispose op m).Heeds watch o (fun a y =>
      y = if a.2.isOk then x else { x with balance := -1, faulted := true }) x := by
  refine heeds_call (hop.dispose m) hx fun m r => ?_
  cases r with
  | ok u => exact ⟨x, .free trivial hx.1, rfl⟩
  | error f => exact ⟨_, .fault hx.1 hf, by rw [hx.2]; rfl⟩

def seam (op : Operator) (_ : Local) : Seam op → Charge → Prop
  | .refused _, x => x = { refused := true }
  | .leaving _ e, x => x = { balance := if e = .failed then 1 else 0 }
  | .gone, x => x.Even
  | _, x => x = {}

theorem heeds_begin :
    (begin op m).Heeds watch o (fun a => seam op o (.begun a)) ({} : Charge) := by
  have hx : Charge.Even {} := ⟨rfl, rfl⟩
  refine heeds_free (within_perform trivial) hx.1 fun _ => ?_
  refine (heeds_callInit hop m hx rfl rfl).chain lawful_watch fun ⟨m, r⟩ y hy => ?_
  cases r with
  | ok u =>
    cases hy
    exact heeds_free (within_perform trivial) rfl fun _ => heeds_pure rfl
  | error f =>
    cases hy
    refine (heeds_addError rfl).chain lawful_watch fun _ y hy => ?_
    cases hy
    refine heeds_act fun v _ => ⟨_, .settle rfl (fun _ => rfl) rfl, ?_⟩
    refine heeds_free (within_perform trivial) rfl fun _ => ?_
    exact heeds_free (within_perform (a := .own) trivial) rfl fun l => heeds_pure rfl

theorem heeds_round :
    (round op m).Heeds watch o (fun a => seam op o (.turned a)) ({} : Charge) := by
  have hx : Charge.Even {} := ⟨rfl, rfl⟩
  refine heeds_free (within_perform (a := .isStopped) trivial) hx.1 fun stopped => ?_
  split
  · exact heeds_pure rfl
  · refine (heeds_callProcess hop m hx).chain lawful_watch fun ⟨m, r⟩ y hy => ?_
    cases hy
    match r with
    | .ok true => exact heeds_pure rfl
    | .ok false =>
      refine heeds_free (within_perform (a := .isStopped) trivial) hx.1 fun stopped => ?_
      cases stopped <;> exact heeds_pure rfl
    | .error f =>
      refine (heeds_afterFault hx f).chain lawful_watch fun t y hy => heeds_pure ?_
      cases hy
      cases t with
      | again => rfl
      | leave e => cases e <;> rfl

theorem heeds_dispose (hx : x.Even) (hf : x.faulted = false) :
    (dispose op m).Heeds watch o (fun _ => Charge.Even) x := by
  refine (heeds_callDispose hop m hx hf).chain lawful_watch fun ⟨m, r⟩ y hy => ?_
  cases r with
  | ok u =>
    cases hy
    exact heeds_free (within_pure ()) hx.1 fun _ =>
      heeds_last (within_perform (a := .publish .disposed) trivial) hx
  | error f =>
    cases hy
    refine (heeds_addError (x := { x with balance := -1, faulted := true }) hx.1).chain
      lawful_watch fun _ y hy => ?_
    cases hy
    exact heeds_last (within_perform trivial) ⟨hx.1, rfl⟩

theorem heeds_leave (e : Outcome) :
    (leave op m e).Heeds watch o (fun _ => seam op o .gone)
      ({ balance := if e = .failed then 1 else 0 } : Charge) := by
  refine heeds_free free_endOutput rfl fun _ => heeds_free free_detachInputs rfl fun _ => ?_
  have hrest : ∀ x : Charge, x.Even → x.faulted = false →
      (do perform (.publish e.state); dispose op m).Heeds watch o (fun _ => Charge.Even) x :=
    fun x hx hf => heeds_free (within_perform trivial) hx.1 fun _ => heeds_dispose hop m hx hf
  by_cases he : e = .failed
  · subst he
    exact heeds_act fun v _ => ⟨_, .fail rfl rfl rfl, hrest _ ⟨rfl, rfl⟩ rfl⟩
  · rw [if_neg he]
    exact heeds_act fun v _ => ⟨_, .settle rfl (fun h => absurd h he) rfl, hrest _ ⟨rfl, rfl⟩ rfl⟩

theorem heeds_abandon (hx : x.Even) (hfailed : x.failed = false) (hf : x.faulted = false) :
    (abandon op m).Heeds watch o (fun _ => seam op o .gone) x := by
  have hrest : (do endOutput; dispose op m).Heeds watch o (fun _ => Charge.Even) x :=
    heeds_free free_endOutput hx.1 fun _ => heeds_dispose hop m hx hf
  refine heeds_free (within_perform (a := .own) trivial) hx.1 fun l => ?_
  split
  · refine heeds_act fun v _ => ⟨x, .settle hx.1 (fun h => by cases h) hfailed, ?_⟩
    exact heeds_free (within_perform (a := .publish .stopped) trivial) hx.1 fun _ => hrest
  · exact hrest

end Hooks

def regime : Regime watch where
  fits op := op.Asks Request.LeavesErrors
  seam := seam

theorem lawful_regime : regime.Lawful where
  watch := lawful_watch
  lasts _ _ _ := Watch.lasts_plain _
  begin op o x hop hx := by
    cases hx
    exact heeds_begin hop _
  start op o m x hx := by
    cases hx
    exact heeds_free (within_perform (a := .publish .running) trivial) rfl fun _ => heeds_pure rfl
  round op o m x hop hx := by
    cases hx
    exact heeds_round hop m
  leave op o m e x hop hx := by
    cases hx
    exact heeds_leave hop m e
  abandon op o m x hop hx := by
    rcases hx with hx | hx
    · cases hx
      exact heeds_abandon hop m ⟨rfl, rfl⟩ rfl rfl
    · cases hx
      exact heeds_abandon hop m ⟨rfl, rfl⟩ rfl rfl

end Errors
end RowFlow
