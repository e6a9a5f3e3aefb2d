import RowFlow.Copy.Procedures
import RowFlow.Proofs.Program.Keeps

/-
Programs that keep a condition: `p.Steady W G H` says that `p` can be run wherever `H`
holds and leaves `H` true, whatever it finds on its way.

The requests of a step's code are put together from a few parts.  `Survives` lists
the parts; a condition that survives all of them survives every request and, by
induction over its tree, the whole of the code that makes them.
-/
namespace RowFlow

/-- Code that makes no other requests than these. -/
def Behaviour.Asks {α : Type} (allowed : Request → Prop) : Behaviour α → Prop
  | .done _ => True
  | .ask q next => allowed q ∧ ∀ x, (next x).Asks allowed

theorem Behaviour.Asks.bind {α β : Type} {allowed : Request → Prop} {b : Behaviour α}
    {f : α → Behaviour β} (hb : b.Asks allowed) (hf : ∀ a, (f a).Asks allowed) :
    (b.bind f).Asks allowed := by
  induction b with
  | done a => exact hf a
  | ask q next ih => exact ⟨hb.1, fun x => ih x (hb.2 x)⟩

theorem Behaviour.Asks.mono {α : Type} {allowed allowed' : Request → Prop} {b : Behaviour α}
    (hb : b.Asks allowed) (h : ∀ q, allowed q → allowed' q) : b.Asks allowed' := by
  induction b with
  | done a => trivial
  | ask q next ih => exact ⟨h q hb.1, fun x => ih x (hb.2 x)⟩

theorem Behaviour.asks_all {α : Type} (b : Behaviour α) : b.Asks fun _ => True := by
  induction b with
  | done a => trivial
  | ask q next ih => exact ⟨trivial, ih⟩

namespace Program

variable {α β : Type} {W : Shared → Prop} {G : Node → Position → Prop}

/-- An action followed by the rest of the program. -/
theorem keeps_perform {a : Action} {f : a.Answer → Program β} {R : β → Position → Prop}
    {pos : Position}
    (h : ∀ q, pos.Drift q → W q.shared →
      G (.act a) q ∧ a.Then q fun x q => (f x).Keeps W G R q) :
    (perform a >>= f).Keeps W G R pos := h

/-- The same from a condition that others cannot break. -/
theorem keeps_act {a : Action} {f : a.Answer → Program β} {R : β → Position → Prop}
    {P : Position → Prop} {pos : Position} (hP : Stable W P) (hpos : P pos)
    (h : ∀ q, W q.shared → P q → G (.act a) q ∧ a.Then q fun x q => (f x).Keeps W G R q) :
    (perform a >>= f).Keeps W G R pos :=
  keeps_perform fun q hd hw => h q hw (hP pos q hd hw hpos)

/-- A program followed by another one. -/
theorem keeps_bind {p : Program α} {f : α → Program β} {R : β → Position → Prop} {pos : Position}
    (h : p.Keeps W G (fun a => (f a).Keeps W G R) pos) : (p >>= f).Keeps W G R pos :=
  Keeps.bind h

/-- Where the first program ends the other one goes on. -/
theorem Keeps.chain {p : Program α} {f : α → Program β} {Q : α → Position → Prop}
    {R : β → Position → Prop} {pos : Position} (h : p.Keeps W G Q pos)
    (hf : ∀ a q, W q.shared → Q a q → (f a).Keeps W G R q) : (p >>= f).Keeps W G R pos :=
  keeps_bind (h.imp hf)

def Steady (W : Shared → Prop) (G : Node → Position → Prop) (H : Position → Prop)
    (p : Program α) : Prop :=
  ∀ pos, H pos → p.Keeps W G (fun _ => H) pos

variable {H : Position → Prop}

theorem steady_pure (hs : Stable W H) (a : α) : (pure a : Program α).Steady W G H :=
  fun _ hpos q hd hw => hs _ q hd hw hpos

theorem Steady.bind {p : Program α} {f : α → Program β} (hp : p.Steady W G H)
    (hf : ∀ a, (f a).Steady W G H) : (p >>= f).Steady W G H :=
  fun pos hpos => (hp pos hpos).chain fun a q _ hq => hf a q hq

structure Survives (W : Shared → Prop) (G : Node → Position → Prop) (H : Position → Prop) :
    Prop where
  stable : Stable W H
  get : (perform (.mark .get)).Steady W G H
  got : ∀ row, (perform (.mark (.got row))).Steady W G H
  put : ∀ row, (perform (.mark (.put row))).Steady W G H
  putDone : ∀ r, (perform (.mark (.putDone r))).Steady W G H
  reject : ∀ row d, (perform (.mark (.reject row d))).Steady W G H
  rejectDone : ∀ r, (perform (.mark (.rejectDone r))).Steady W G H
  own : (perform .own).Steady W G H
  isStopped : (perform .isStopped).Steady W G H
  add : ∀ c n, (perform (.add c n)).Steady W G H
  note : ∀ n, (perform (.note n)).Steady W G H
  receive : (receive .start done).Steady W G H
  sendTo : ∀ place row, (sendTo (.output place) row).Steady W G H
  sendError : ∀ row, (sendError row).Steady W G H
  addOneError : (addRunErrors 1).Steady W G H
  recordOneRow : (recordSourceRows 1).Steady W G H
  endOutput : endOutput.Steady W G H

namespace Survives

variable (h : Survives W G H)

include h

theorem addError : addError.Steady W G H :=
  (h.add _ _).bind fun _ => h.addOneError.bind fun _ => steady_pure h.stable ()

theorem getRow : getRow.Steady W G H :=
  h.get.bind fun _ => h.receive.bind fun row => (h.got row).bind fun _ => steady_pure h.stable row

theorem sendToAll (row : Row) (places : List Nat) : (sendToAll row places).Steady W G H := by
  induction places with
  | nil => exact steady_pure h.stable _
  | cons place rest ih =>
    refine (h.sendTo place row).bind fun r => ?_
    cases r with
    | ok _ => exact ih
    | error f => exact steady_pure h.stable _

theorem putRow (row : Row) : (putRow row).Steady W G H := by
  refine (h.put row).bind fun _ => Steady.bind ?_ fun r => (h.putDone r).bind fun _ =>
    steady_pure h.stable r
  refine h.own.bind fun l => ?_
  split
  · exact steady_pure h.stable _
  · refine h.isStopped.bind fun stopped => ?_
    split
    · exact steady_pure h.stable _
    · refine (h.sendToAll row _).bind fun r => ?_
      cases r with
      | error f => exact steady_pure h.stable _
      | ok _ =>
        refine (h.add _ _).bind fun _ => ?_
        split
        · exact h.recordOneRow.bind fun _ => steady_pure h.stable _
        · exact steady_pure h.stable _

theorem rejectRow (row : Row) (d : Diagnostic) : (rejectRow row d).Steady W G H := by
  refine (h.reject row d).bind fun _ => Steady.bind ?_ fun r => (h.rejectDone r).bind fun _ =>
    steady_pure h.stable r
  refine h.own.bind fun l => ?_
  split
  · exact steady_pure h.stable _
  · split
    · exact steady_pure h.stable _
    · refine (h.sendError _).bind fun r => ?_
      cases r with
      | error f => exact steady_pure h.stable _
      | ok _ => exact (h.add _ _).bind fun _ => h.addError.bind fun _ => steady_pure h.stable _

end Survives

end Program

namespace Request

/-- Requests that have their effect on the control of the run alone, or wait for it. -/
def Direct : Request → Prop
  | stop _ => True
  | addRunErrors _ => True
  | recordSourceRows _ => True
  | hold => True
  | _ => False

end Request

namespace Program

variable {α : Type} {W : Shared → Prop} {G : Node → Position → Prop} {H : Position → Prop}

theorem Survives.request (h : Survives W G H) {q : Request}
    (hq : q.Direct → q.program.Steady W G H) : q.program.Steady W G H := by
  cases q with
  | getRow => exact h.getRow
  | putRow row => exact h.putRow row
  | rejectRow row d => exact h.rejectRow row d
  | endOutput => exact h.endOutput
  | addError => exact h.addError
  | add c n => exact h.add c n
  | look => exact h.own.bind fun l => steady_pure h.stable _
  | isStopped => exact h.isStopped
  | note n => exact h.note n
  | stop r => exact hq trivial
  | addRunErrors n => exact hq trivial
  | recordSourceRows n => exact hq trivial
  | hold => exact hq trivial

/-- Code that makes requests which a condition survives. -/
theorem steady_behaviour (hs : Stable W H) {allowed : Request → Prop}
    (hq : ∀ q, allowed q → q.program.Steady W G H) {b : Behaviour α} (hb : b.Asks allowed) :
    b.program.Steady W G H := by
  induction b with
  | done a => exact steady_pure hs a
  | ask q next ih => exact (hq q hb.1).bind fun x => ih x (hb.2 x)

end Program
end RowFlow
