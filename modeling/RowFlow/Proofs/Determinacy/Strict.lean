import RowFlow.Proofs.Determinacy.Secluded

/-
Programs that do not go on after a row of theirs was refused for its layout.  Whether a
row set refuses a row depends on its reader, so nothing but a stop may come of a refusal.
The hooks only have to hand it back; the copy does the rest.  The hook for the end need
not: all outputs have ended then, and a row set that has ended refuses rows before it
looks at their layout.
-/
namespace RowFlow

def Fault.Clash : Fault → Prop
  | incompatible _ _ => True
  | _ => False

def Request.Clash : (q : Request) → q.Answer → Prop
  | putRow _, .error f => f.Clash
  | rejectRow _ _, .error f => f.Clash
  | _, _ => False

/-- An end after which a step cannot go on. -/
def Ending.Fatal {α : Type} : Ending α → Prop
  | returned (.ok _) => False
  | returned (.error f) => f.isRowFailure = false
  | crashed _ => True

namespace Behaviour

variable {σ α : Type}

/-- Whatever the answers are, the hook fails. -/
def Fails : Behaviour (σ × Ending α) → Prop
  | done a => a.2.Fatal
  | ask _ next => ∀ x, (next x).Fails

def HandsBack : Behaviour (σ × Ending α) → Prop
  | done _ => True
  | ask q next => ∀ x, (q.Clash x → (next x).Fails) ∧ (next x).HandsBack

end Behaviour

/-- The hooks hand back what they are told of rows refused for their layout. -/
structure Operator.HandsBack (op : Operator) : Prop where
  init : (op.init op.start).HandsBack
  process : ∀ m, (op.process m).HandsBack

namespace Program

variable {α β σ : Type} {D : α → Prop} {E : β → Prop}

/-- After a row was refused for its layout the flag is raised, or else the end is one
of `D`. -/
def Strict (D : α → Prop) : Program α → Prop
  | done _ => True
  | act _ next => ∀ x, (next x).Strict D
  | receive _ next => ∀ x, (next x).Strict D
  | deliver _ _ _ next => (∀ f : Fault, f.Clash → (next (.error f)).Doomed D) ∧
    ∀ x, (next x).Strict D

def Late : Program α → Prop
  | done _ => True
  | act .own next => ∀ l, l.outputDone = true ∨ (next l).Late
  | act a next => a = .endOutput ∨ ∀ x, (next x).Late
  | receive _ next => ∀ x, (next x).Late
  | deliver _ _ _ _ => False

theorem doomed_true (p : Program α) : p.Doomed fun _ => True := by
  induction p with
  | done a => trivial
  | act a next ih => exact .inr ih
  | receive scan next ih => exact ih
  | deliver i row refused next ih => exact ih

theorem Doomed.mono {D' : α → Prop} {p : Program α} (hp : p.Doomed D) (h : ∀ a, D a → D' a) :
    p.Doomed D' := by
  induction p with
  | done a => exact h a hp
  | act a next ih => exact hp.imp id fun hnext x => ih x (hnext x)
  | receive scan next ih => exact fun x => ih x (hp x)
  | deliver i row refused next ih => exact fun x => ih x (hp x)

/-- What comes first does not matter. -/
theorem doomed_of_rest (p : Program α) {f : α → Program β} (hf : ∀ a, (f a).Doomed E) :
    (p >>= f).Doomed E :=
  p.doomed_true.bind fun a _ => hf a

theorem strict_perform {a : Action} {D : a.Answer → Prop} : (perform a).Strict D :=
  fun _ => trivial

theorem Strict.bind {p : Program α} {f : α → Program β} (hp : p.Strict D)
    (hf : ∀ a, (f a).Strict E) (hdoomed : ∀ a, D a → (f a).Doomed E) : (p >>= f).Strict E := by
  show (p.bind f).Strict E
  induction p with
  | done a => exact hf a
  | act a next ih => exact fun x => ih x (hp x)
  | receive scan next ih => exact fun x => ih x (hp x)
  | deliver i row refused next ih =>
    exact ⟨fun g hg => (hp.1 g hg).bind hdoomed, fun x => ih x (hp.2 x)⟩

/-- After an action that delivers nothing. -/
theorem Strict.after {p : Program α} {f : α → Program β} (hp : p.Strict fun _ => False)
    (hf : ∀ a, (f a).Strict E) : (p >>= f).Strict E :=
  hp.bind hf fun _ h => absurd h id

theorem Strict.marked {before : Mark} {after : α → Mark} {p : Program α} (hp : p.Strict D) :
    (marked before after p).Strict D :=
  strict_perform.after fun _ => hp.bind (fun _ _ => trivial) fun _ ha => .inr fun _ => ha

/-- What is told to the run is no row. -/
theorem strict_of_signal {p : Program α} (hp : p.Within Node.Signal) : p.Strict D := by
  induction p with
  | done a => trivial
  | act a next ih => exact fun x => ih x (hp.2 x)
  | receive scan next ih => exact absurd hp.1 id
  | deliver i row refused next ih => exact absurd hp.1 id

theorem strict_closeAll {D : Unit → Prop} (places : List Nat) : (closeAll places).Strict D := by
  induction places with
  | nil => trivial
  | cons i rest ih => exact fun _ => ih

theorem strict_endOutput {D : Unit → Prop} : endOutput.Strict D := by
  refine strict_perform.after fun l => ?_
  split
  · trivial
  · exact fun _ => strict_closeAll _

section Deliver

variable (row : Row)

theorem strict_sendTo (outlet : Outlet) :
    (sendTo outlet row).Strict (Request.Clash (.putRow row)) := by
  refine (strict_perform (a := .choose outlet)).after fun chosen => ?_
  cases chosen with
  | none => trivial
  | some i => exact ⟨fun f hf => hf, fun _ => trivial⟩

theorem strict_sendToAll (places : List Nat) :
    (sendToAll row places).Strict (Request.Clash (.putRow row)) := by
  induction places with
  | nil => trivial
  | cons place rest ih =>
    refine (strict_sendTo row (.output place)).bind (fun r => ?_) fun r hr => ?_
    · cases r with
      | ok _ => exact ih
      | error f => trivial
    · cases r with
      | ok _ => exact absurd hr id
      | error f => exact hr

theorem strict_putRow : (putRow row).Strict (Request.Clash (.putRow row)) := by
  refine Strict.marked ((strict_perform (a := .own)).after fun l => ?_)
  split
  · trivial
  refine (strict_perform (a := .isStopped)).after fun stopped => ?_
  split
  · trivial
  refine (strict_sendToAll row _).bind (fun r => ?_) fun r hr => ?_
  · cases r with
    | error f => trivial
    | ok _ =>
      refine (strict_perform (a := .add .written 1)).after fun _ => ?_
      split
      · exact (strict_of_signal (within_recordSourceRows 1)).after fun _ => trivial
      · trivial
  · cases r with
    | ok _ => exact absurd hr id
    | error f => exact hr

theorem strict_sendError (d : Diagnostic) :
    (sendError row).Strict (Request.Clash (.rejectRow row d)) := by
  refine (strict_perform (a := .choose .error)).after fun chosen => ?_
  cases chosen with
  | none => trivial
  | some i =>
    refine (strict_perform (a := .isStopped)).after fun stopped => ?_
    split
    · trivial
    · exact ⟨fun f hf => hf, fun _ => trivial⟩

theorem strict_rejectRow (d : Diagnostic) :
    (rejectRow row d).Strict (Request.Clash (.rejectRow row d)) := by
  refine Strict.marked ((strict_perform (a := .own)).after fun l => ?_)
  split
  · trivial
  split
  · trivial
  refine (strict_sendError _ d).bind (fun r => ?_) fun r hr => ?_
  · cases r with
    | error f => trivial
    | ok _ =>
      exact (strict_perform (a := .add .rejected 1)).after fun _ =>
        (strict_of_signal within_addError).after fun _ => trivial
  · cases r with
    | ok _ => exact absurd hr id
    | error f => exact hr

end Deliver

/-- A request ends with the refusal or goes on without one. -/
theorem strict_request (q : Request) : q.program.Strict q.Clash := by
  cases q with
  | getRow => exact Strict.marked fun _ => trivial
  | putRow row => exact strict_putRow row
  | rejectRow row d => exact strict_rejectRow row d
  | endOutput => exact strict_endOutput
  | addError => exact strict_of_signal within_addError
  | recordSourceRows n => exact strict_of_signal (within_recordSourceRows n)
  | addRunErrors n => exact strict_of_signal (within_addRunErrors n)
  | stop r => exact strict_of_signal (within_stop r)
  | _ => exact fun _ => trivial

/-- A hook that fails whatever the answers are. -/
theorem doomed_behaviour {b : Behaviour (σ × Ending α)} (h : b.Fails) :
    b.program.Doomed fun a => a.2.Fatal := by
  induction b with
  | done a => exact h
  | ask q next ih => exact doomed_of_rest q.program fun x => ih x (h x)

theorem strict_behaviour {b : Behaviour (σ × Ending α)} (h : b.HandsBack) :
    b.program.Strict fun a => a.2.Fatal := by
  induction b with
  | done a => trivial
  | ask q next ih =>
    exact (strict_request q).bind (fun x => ih x (h x).2) fun x hx => doomed_behaviour ((h x).1 hx)

theorem strict_call {hook : Hook} {more : α → Bool} {body : Behaviour (σ × Ending α)}
    (h : body.HandsBack) :
    (call hook more body).Strict fun a => ∃ f : Fault, a.2 = .error f ∧ f.isRowFailure = false := by
  refine Strict.marked ((strict_behaviour h).bind (fun _ _ => trivial) ?_)
  rintro ⟨m, ending⟩ hfatal
  refine .inr fun l => ?_
  match ending with
  | .returned (.ok _) => exact absurd hfatal id
  | .returned (.error f) => exact ⟨f, rfl, hfatal⟩
  | .crashed text => exact ⟨_, rfl, rfl⟩

theorem doomed_failStep {D : Turn → Prop} : failStep.Doomed D :=
  doomed_of_rest addError fun _ => doomed_of_rest own fun _ => doomed_stop _ _ _

theorem strict_failStep : failStep.Strict fun _ => False :=
  (strict_of_signal within_addError).after fun _ => (strict_perform (a := .own)).after fun _ =>
    (strict_of_signal (within_stop _)).after fun _ => trivial

theorem doomed_afterFault {f : Fault} (h : f.isRowFailure = false) {D : Turn → Prop} :
    (afterFault f).Doomed D := by
  refine doomed_of_rest own fun l => ?_
  split
  · cases h
  · exact doomed_failStep

theorem strict_afterFault (f : Fault) : (afterFault f).Strict fun _ => False := by
  refine (strict_perform (a := .own)).after fun l => ?_
  split
  · refine (strict_rejectRow _ _).bind (fun r => ?_) fun r hr => ?_
    · cases r with
      | ok _ => trivial
      | error g => exact strict_failStep
    · cases r with
      | ok _ => exact absurd hr id
      | error g => exact doomed_failStep
  · exact strict_failStep

section Operator

variable {op : Operator} (hop : op.HandsBack)
include hop

theorem strict_round (m : op.State) : (round op m).Strict fun _ => False := by
  refine (strict_perform (a := .isStopped)).after fun stopped => ?_
  split
  · trivial
  refine (strict_call (hop.process m)).bind ?_ ?_
  · rintro ⟨m, r⟩
    match r with
    | .ok true => trivial
    | .ok false => exact (strict_perform (a := .isStopped)).after fun _ => trivial
    | .error f => exact (strict_afterFault f).after fun _ => trivial
  · rintro ⟨m, r⟩ ⟨f, rfl, hf⟩
    exact (doomed_afterFault hf).bind fun _ h => absurd h id

theorem strict_begin : (begin op op.start).Strict fun a => ∃ f : Fault, a.2 = .error f := by
  refine (strict_perform (a := .allowErrors _)).after fun _ => ?_
  refine (strict_call hop.init).bind ?_ ?_
  · rintro ⟨m, r⟩
    cases r with
    | ok _ => exact fun _ => trivial
    | error f => exact (strict_of_signal within_addError).after fun _ _ _ _ => trivial
  · rintro ⟨m, r⟩ ⟨f, rfl, -⟩
    exact doomed_of_rest addError fun _ => .inr fun _ => .inr fun _ => .inr fun _ => ⟨_, rfl⟩

end Operator

theorem late_endOutput (f : Unit → Program α) : (endOutput >>= f).Late := by
  intro l
  by_cases hdone : l.outputDone = true
  · exact .inl hdone
  · refine .inr ?_
    show ((if l.outputDone = true then _ else _ : Program Unit).bind f).Late
    rw [if_neg hdone]
    exact .inl rfl

theorem late_leave (op : Operator) (m : op.State) (o : Outcome) : (leave op m o).Late :=
  late_endOutput _

end Program
end RowFlow
