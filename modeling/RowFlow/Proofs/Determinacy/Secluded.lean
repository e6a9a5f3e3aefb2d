import RowFlow.Proofs.Determinacy.Solo
import RowFlow.Proofs.Program.Frame

/-
Programs that keep to themselves.  Some answers depend on how the copies of a run take
their turns: where the search for a row stands, how high the counts of the run are,
whether a row was accepted or discarded.  A secluded program goes on alike after answers
that differ in no other way.  The one thing it may see is that a limit was reached, and
then the run is stopped.

Besides, it touches only the row sets of its copy.  Once it has left an input it looks at
no input any more, and once its outputs count as ended it closes them before all else.
-/
namespace RowFlow

/-- Answers of which nobody should be able to tell whether other copies are there. -/
def Action.Alike : (a : Action) → a.Answer → a.Answer → Prop
  | .own, l, l' => l.still = l'.still
  | .close _, _, _ => True
  | .countErrors _, t, t' => t.reached = t'.reached
  | .countSourceRows _, t, t' => t.reached = t'.reached
  | _, x, y => x = y

def Action.Alarm : (a : Action) → a.Answer → Prop
  | .countErrors _, t => t.reached = true
  | .countSourceRows _, t => t.reached = true
  | _, _ => False

def Action.Says (o : Local) : (a : Action) → a.Answer → Prop
  | .own, l => l.origin = o
  | .choose _, x => ∀ i, x = some i → i ∈ o.outlets
  | _, _ => True

/-- Outputs are ended and inputs are left by the copy they belong to. -/
def Action.Owned (o : Local) : Action → Prop
  | .close i => i ∈ o.outlets
  | .detach i => i ∈ o.inputs
  | _ => True

namespace Program

variable {α β : Type}

/-- Whatever is found on the way, the flag is raised before the end, or else the end is
one of `D`. -/
def Doomed (D : α → Prop) : Program α → Prop
  | done a => D a
  | act a next => a = .raiseFlag ∨ ∀ x, (next x).Doomed D
  | receive _ next => ∀ x, (next x).Doomed D
  | deliver _ _ _ next => ∀ x, (next x).Doomed D

/-- All inputs are given up before the end and before any is looked at. -/
def Parting : Program α → Prop
  | done _ => False
  | act a next => a = .leaveInputs ∨ ∀ x, (next x).Parting
  | receive _ _ => False
  | deliver _ _ _ next => ∀ x, (next x).Parting

def Closing (i : Nat) : Program α → Prop
  | done _ => False
  | act a next => a = .close i ∨ ∀ x, (next x).Closing i
  | receive _ _ => False
  | deliver _ _ _ _ => False

/-- What has been begun is seen through: an input that is left is not looked at any more,
and outputs that are done with are closed. -/
structure SeesThrough (o : Local) (a : Action) (p : Program α) : Prop where
  detach : ∀ i, a = .detach i → p.Parting
  endOutput : a = .endOutput → ∀ i ∈ o.outlets, p.Closing i

def Secluded (o : Local) : Program α → Prop
  | done _ => True
  | act a next => a.Owned o ∧ (∀ x, SeesThrough o a (next x)) ∧
    ∀ x, a.Says o x → (∀ y, a.Alike x y → next y = next x) ∧
      (a.Alarm x → (next x).Doomed fun _ => False) ∧ (next x).Secluded o
  | receive _ next => ∀ x, (next x).Secluded o
  | deliver i _ _ next => i ∈ o.outlets ∧ next (.ok .discarded) = next (.ok .accepted) ∧
    ∀ x, (next x).Secluded o

theorem Doomed.bind {D : α → Prop} {E : β → Prop} {p : Program α} {f : α → Program β}
    (hp : p.Doomed D) (hf : ∀ a, D a → (f a).Doomed E) : (p >>= f).Doomed E := by
  show (p.bind f).Doomed E
  induction p with
  | done a => exact hf a hp
  | act a next ih => exact hp.imp id fun h x => ih x (h x)
  | receive scan next ih => exact fun x => ih x (hp x)
  | deliver i row refused next ih => exact fun x => ih x (hp x)

theorem Parting.bind {p : Program α} {f : α → Program β} (hp : p.Parting) :
    (p >>= f).Parting := by
  show (p.bind f).Parting
  induction p with
  | done a => exact absurd hp id
  | act a next ih => exact hp.imp id fun h x => ih x (h x)
  | receive scan next ih => exact absurd hp id
  | deliver i row refused next ih => exact fun x => ih x (hp x)

theorem Closing.bind {i : Nat} {p : Program α} {f : α → Program β} (hp : p.Closing i) :
    (p >>= f).Closing i := by
  show (p.bind f).Closing i
  induction p with
  | done a => exact absurd hp id
  | act a next ih => exact hp.imp id fun h x => ih x (h x)
  | receive scan next ih => exact absurd hp id
  | deliver i row refused next ih => exact absurd hp id

section Secluded

variable {o : Local}

theorem Secluded.bind {p : Program α} {f : α → Program β} (hp : p.Secluded o)
    (hf : ∀ a, (f a).Secluded o) : (p >>= f).Secluded o := by
  show (p.bind f).Secluded o
  induction p with
  | done a => exact hf a
  | act a next ih =>
    refine ⟨hp.1, fun x => ?_, fun x hx => ?_⟩
    · exact ⟨fun i ha => ((hp.2.1 x).detach i ha).bind, fun ha i hi =>
        ((hp.2.1 x).endOutput ha i hi).bind⟩
    obtain ⟨halike, halarm, hnext⟩ := hp.2.2 x hx
    refine ⟨fun y hy => congrArg (·.bind f) (halike y hy), fun ha => ?_, ih x hnext⟩
    exact (halarm ha).bind fun _ h => absurd h id
  | receive scan next ih => exact fun x => ih x (hp x)
  | deliver i row refused next ih =>
    exact ⟨hp.1, congrArg (·.bind f) hp.2.1, fun x => ih x (hp.2.2 x)⟩

theorem secluded_act {a : Action} {f : a.Answer → Program β} (howned : a.Owned o)
    (hdetach : ∀ i, a ≠ .detach i) (hend : a ≠ .endOutput)
    (halike : ∀ x y, a.Alike x y → f y = f x)
    (halarm : ∀ x, a.Alarm x → (f x).Doomed fun _ => False)
    (hf : ∀ x, a.Says o x → (f x).Secluded o) : (perform a >>= f).Secluded o :=
  ⟨howned, fun _ => ⟨fun i ha => absurd ha (hdetach i), fun ha => absurd ha hend⟩,
    fun x hx => ⟨halike x, halarm x, hf x hx⟩⟩

end Secluded

end Program

/-- Actions that any program may perform whatever it does with the answer. -/
def Action.Certain : Action → Prop
  | .own => False
  | .close _ => False
  | .detach _ => False
  | .countErrors _ => False
  | .countSourceRows _ => False
  | .endOutput => False
  | _ => True

namespace Program

variable {α β : Type} {o : Local}

/-- Nothing but the answer of the action decides what follows. -/
theorem secluded_certain {a : Action} (h : a.Certain) {f : a.Answer → Program β}
    (hf : ∀ x, a.Says o x → (f x).Secluded o) : (perform a >>= f).Secluded o := by
  refine secluded_act ?_ ?_ ?_ ?_ ?_ hf
  · cases a <;> trivial
  · rintro i rfl
    exact h
  · rintro rfl
    exact h
  · intro x y hxy
    cases a <;> first | exact absurd h id | exact congrArg f (Eq.symm hxy)
  · intro x hx
    cases a <;> first | exact absurd h id | exact absurd hx id

theorem secluded_perform {a : Action} (h : a.Certain) : (perform a).Secluded o :=
  secluded_certain (f := done) h fun _ _ => trivial

/-- What a program reads of its copy has to be independent of the search for rows. -/
theorem secluded_own {f : Local → Program β} (hstill : ∀ l, f l = f l.still)
    (hf : ∀ l, l.origin = o → (f l).Secluded o) : (own >>= f).Secluded o := by
  refine secluded_act (a := .own) trivial (by simp) (by simp) (fun l l' h => ?_)
    (fun _ h => absurd h id) hf
  rw [hstill l, hstill l']
  exact congrArg f (Eq.symm h)

theorem secluded_stop (r : StopReason) : (stop r).Secluded o :=
  (secluded_perform (a := .giveReason r) trivial).bind fun _ =>
    secluded_perform (a := .raiseFlag) trivial

theorem doomed_stop (r : StopReason) (f : Bool → Program β) (D : β → Prop) :
    (stop r >>= f).Doomed D :=
  .inr fun _ => .inl rfl

/-- The total of the run's errors is the one answer that has to be ignored. -/
theorem secluded_addRunErrors {n : Nat} {f : Nat → Program β} (hsame : ∀ t t', f t = f t')
    (hf : ∀ t, (f t).Secluded o) : (addRunErrors n >>= f).Secluded o := by
  refine secluded_act (a := .countErrors n) trivial (by simp) (by simp) ?_ ?_ ?_
  · rintro ⟨t, b⟩ ⟨t', b'⟩ (rfl : b = b')
    cases b
    · exact hsame t' t
    · exact congrArg (stop .errorLimit).bind (funext fun _ => hsame t' t)
  · rintro ⟨t, b⟩ (rfl : b = true)
    exact doomed_stop _ _ _
  · rintro ⟨t, b⟩ -
    cases b
    · exact hf t
    · exact (secluded_stop .errorLimit).bind fun _ => hf t

theorem secluded_recordSourceRows (n : Nat) : (recordSourceRows n).Secluded o := by
  refine secluded_act (a := .countSourceRows n) trivial (by simp) (by simp) ?_ ?_ ?_
  · rintro ⟨t, b⟩ ⟨t', b'⟩ (rfl : b = b')
    rfl
  · rintro ⟨t, b⟩ (rfl : b = true)
    exact doomed_stop _ _ _
  · rintro ⟨t, b⟩ -
    cases b
    · trivial
    · exact (secluded_stop .rowLimit).bind fun _ => trivial

theorem secluded_addError : addError.Secluded o :=
  (secluded_perform (a := .add .errors 1) trivial).bind fun _ =>
    secluded_addRunErrors (fun _ _ => rfl) fun _ => trivial

theorem Secluded.marked {before : Mark} {after : α → Mark} {p : Program α} (hp : p.Secluded o) :
    (marked before after p).Secluded o :=
  (secluded_perform (a := .mark before) trivial).bind fun _ => hp.bind fun a =>
    (secluded_perform (a := .mark (after a)) trivial).bind fun _ => trivial

theorem secluded_getRow : getRow.Secluded o := Secluded.marked fun _ => trivial

theorem secluded_sendTo (outlet : Outlet) (row : Row) : (sendTo outlet row).Secluded o := by
  refine secluded_certain (a := .choose outlet) trivial fun chosen hchosen => ?_
  cases chosen with
  | none => trivial
  | some i => exact ⟨hchosen i rfl, rfl, fun _ => trivial⟩

theorem secluded_sendToAll (row : Row) (places : List Nat) : (sendToAll row places).Secluded o := by
  induction places with
  | nil => trivial
  | cons place rest ih =>
    refine (secluded_sendTo (.output place) row).bind fun r => ?_
    cases r with
    | ok _ => exact ih
    | error f => trivial

theorem secluded_putRow (row : Row) : (putRow row).Secluded o := by
  refine Secluded.marked (secluded_own (fun _ => rfl) fun l _ => ?_)
  split
  · trivial
  · refine (secluded_perform (a := .isStopped) trivial).bind fun stopped => ?_
    split
    · trivial
    · refine (secluded_sendToAll row _).bind fun r => ?_
      cases r with
      | error f => trivial
      | ok _ =>
        refine (secluded_perform (a := .add .written 1) trivial).bind fun _ => ?_
        split
        · exact (secluded_recordSourceRows 1).bind fun _ => trivial
        · trivial

theorem secluded_sendError (row : Row) : (sendError row).Secluded o := by
  refine secluded_certain (a := .choose .error) trivial fun chosen hchosen => ?_
  cases chosen with
  | none => trivial
  | some i =>
    refine (secluded_perform (a := .isStopped) trivial).bind fun stopped => ?_
    split
    · trivial
    · exact ⟨hchosen i rfl, rfl, fun _ => trivial⟩

theorem secluded_rejectRow (row : Row) (d : Diagnostic) : (rejectRow row d).Secluded o := by
  refine Secluded.marked (secluded_own (fun _ => rfl) fun l _ => ?_)
  split
  · trivial
  · split
    · trivial
    · refine (secluded_sendError _).bind fun r => ?_
      cases r with
      | error f => trivial
      | ok _ =>
        exact (secluded_perform (a := .add .rejected 1) trivial).bind fun _ =>
          secluded_addError.bind fun _ => trivial

theorem secluded_closeAll {places : List Nat} (h : ∀ i ∈ places, i ∈ o.outlets) :
    (closeAll places).Secluded o := by
  induction places with
  | nil => trivial
  | cons i rest ih =>
    refine secluded_act (a := .close i) (h i List.mem_cons_self) (by simp) (by simp)
      (fun _ _ _ => rfl) (fun _ ha => absurd ha id) fun _ _ => ?_
    exact ih fun j hj => h j (List.mem_cons_of_mem i hj)

theorem closing_closeAll {i : Nat} {places : List Nat} (h : i ∈ places) :
    (closeAll places).Closing i := by
  induction places with
  | nil => cases h
  | cons j rest ih =>
    rcases List.mem_cons.mp h with rfl | h
    · exact .inl rfl
    · exact .inr fun _ => ih h

theorem secluded_endOutput : endOutput.Secluded o := by
  refine secluded_own (fun _ => rfl) fun l hl => ?_
  split
  · trivial
  · have houtlets : l.outlets = o.outlets := by rw [← hl, Local.outlets_origin]
    refine ⟨trivial, fun _ => ⟨by simp, fun _ i hi => closing_closeAll (houtlets ▸ hi)⟩, ?_⟩
    refine fun _ _ => ⟨fun _ _ => rfl, fun ha => absurd ha id, ?_⟩
    exact secluded_closeAll fun i hi => houtlets ▸ hi

theorem parting_detachAll (places : List Nat) :
    (detachAll places >>= fun _ => perform .leaveInputs).Parting := by
  induction places with
  | nil => exact .inl rfl
  | cons i rest ih => exact .inr fun _ => ih

theorem secluded_detachAll {places : List Nat} (h : ∀ i ∈ places, i ∈ o.inputs) :
    (detachAll places >>= fun _ => perform .leaveInputs).Secluded o := by
  induction places with
  | nil => exact secluded_perform (a := .leaveInputs) trivial
  | cons i rest ih =>
    refine ⟨h i List.mem_cons_self, fun _ => ⟨fun _ _ => parting_detachAll rest, by simp⟩, ?_⟩
    intro x _
    refine ⟨fun _ _ => rfl, fun ha => absurd ha id, ?_⟩
    exact ih fun j hj => h j (List.mem_cons_of_mem i hj)

theorem secluded_detachInputs : detachInputs.Secluded o := by
  refine secluded_own (fun _ => rfl) fun l hl => secluded_detachAll fun i hi => ?_
  rwa [← hl]

end Program

/-- Code that ignores how many errors the run has had in all. -/
def Behaviour.Secluded {α : Type} : Behaviour α → Prop
  | .done _ => True
  | .ask (.addRunErrors _) next => (∀ t t', next t = next t') ∧ ∀ t, (next t).Secluded
  | .ask _ next => ∀ x, (next x).Secluded

/-- What the hooks do depends on the rows they have read and on nothing that others do. -/
structure Operator.Secluded (op : Operator) : Prop where
  init : (op.init op.start).Secluded
  process : ∀ m, (op.process m).Secluded
  dispose : ∀ m, (op.dispose m).Secluded

namespace Program

variable {α σ : Type} {o : Local}

theorem secluded_behaviour {b : Behaviour α} (h : b.Secluded) : b.program.Secluded o := by
  induction b with
  | done a => trivial
  | ask q next ih =>
    cases q with
    | addRunErrors n =>
      exact secluded_addRunErrors (fun t t' => congrArg Behaviour.program (h.1 t t'))
        fun t => ih t (h.2 t)
    | look => exact secluded_own (fun _ => rfl) fun l _ => ih l.view (h l.view)
    | getRow => exact secluded_getRow.bind fun x => ih x (h x)
    | putRow row => exact (secluded_putRow row).bind fun x => ih x (h x)
    | rejectRow row d => exact (secluded_rejectRow row d).bind fun x => ih x (h x)
    | endOutput => exact secluded_endOutput.bind fun x => ih x (h x)
    | addError => exact secluded_addError.bind fun x => ih x (h x)
    | recordSourceRows n => exact (secluded_recordSourceRows n).bind fun x => ih x (h x)
    | stop r => exact (secluded_stop r).bind fun x => ih x (h x)
    | add c n => exact (secluded_perform (a := .add c n) trivial).bind fun x => ih x (h x)
    | isStopped => exact (secluded_perform (a := .isStopped) trivial).bind fun x => ih x (h x)
    | note n => exact (secluded_perform (a := .note n) trivial).bind fun x => ih x (h x)
    | hold => exact (secluded_perform (a := .hold) trivial).bind fun x => ih x (h x)

theorem secluded_call {hook : Hook} {more : α → Bool} {body : Behaviour (σ × Ending α)}
    (h : body.Secluded) : (call hook more body).Secluded o := by
  refine Secluded.marked ((secluded_behaviour h).bind fun a => ?_)
  exact secluded_own (fun _ => rfl) fun _ _ => trivial

variable {op : Operator}

theorem secluded_failStep : failStep.Secluded o :=
  secluded_addError.bind fun _ => secluded_own (fun _ => rfl) fun _ _ =>
    (secluded_stop _).bind fun _ => trivial

theorem secluded_afterFault (f : Fault) : (afterFault f).Secluded o := by
  refine secluded_own (fun _ => rfl) fun l _ => ?_
  split
  · refine (secluded_rejectRow _ _).bind fun r => ?_
    cases r with
    | ok _ => trivial
    | error f => exact secluded_failStep
  · exact secluded_failStep

theorem secluded_round (hop : op.Secluded) (m : op.State) : (round op m).Secluded o := by
  refine (secluded_perform (a := .isStopped) trivial).bind fun stopped => ?_
  split
  · trivial
  · refine (secluded_call (hop.process m)).bind fun a => ?_
    obtain ⟨m, r⟩ := a
    match r with
    | .ok true => trivial
    | .ok false => exact (secluded_perform (a := .isStopped) trivial).bind fun _ => trivial
    | .error f => exact (secluded_afterFault f).bind fun _ => trivial

theorem secluded_begin (hop : op.Secluded) : (begin op op.start).Secluded o := by
  refine (secluded_perform (a := .allowErrors _) trivial).bind fun _ => ?_
  refine (secluded_call hop.init).bind fun a => ?_
  obtain ⟨m, r⟩ := a
  cases r with
  | ok _ => exact (secluded_perform (a := .publish .initialized) trivial).bind fun _ => trivial
  | error f =>
    refine secluded_addError.bind fun _ => ?_
    refine (secluded_perform (a := .settle .failed) trivial).bind fun _ => ?_
    refine (secluded_perform (a := .publish .failed) trivial).bind fun _ => ?_
    exact secluded_own (fun _ => rfl) fun _ _ => trivial

theorem secluded_dispose (hop : op.Secluded) (m : op.State) : (dispose op m).Secluded o := by
  refine (secluded_call (hop.dispose m)).bind fun a => ?_
  obtain ⟨m, r⟩ := a
  cases r with
  | ok _ => exact secluded_perform (a := .publish .disposed) trivial
  | error f =>
    exact secluded_addError.bind fun _ => secluded_perform (a := .publish .disposed) trivial

theorem secluded_leave (hop : op.Secluded) (m : op.State) (e : Outcome) :
    (leave op m e).Secluded o :=
  secluded_endOutput.bind fun _ => secluded_detachInputs.bind fun _ =>
    (secluded_perform (a := .settle e) trivial).bind fun _ =>
      (secluded_perform (a := .publish e.state) trivial).bind fun _ => secluded_dispose hop m

end Program
end RowFlow
