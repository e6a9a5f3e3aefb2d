import RowFlow.Proofs.Program.Parts
import RowFlow.Proofs.Program.Runs

/-
Code that keeps to itself.  To learn about the copy, to count for it, to make a note and to
end the outputs takes nobody else, and has nothing to do with the control of the run.  As long
as code makes such requests only, what it comes to is settled by the copy alone
(`Behaviour.alone?`), whatever the other copies do meanwhile (`runs_alone`).

So it is known of a copy that was just made how the call of its hook for the start will end,
if the hook keeps to itself (`Copy.ending?`).
-/
namespace RowFlow

def faultOf? {α : Type} : Except Fault α → Option Fault
  | .ok _ => none
  | .error f => some f

/-- The answer to a request that takes the copy alone, and what becomes of the copy. -/
def Request.alone? : (q : Request) → Local → Option (q.Answer × Local)
  | endOutput, l => some ((), { l with outputDone := true })
  | add counter n, l =>
    let counts := l.counts.add n counter
    some (counts.get counter, { l with counts })
  | look, l => some (l.view, l)
  | note _, l => some ((), l)
  | _, _ => none

def Behaviour.alone? {α : Type} : Behaviour α → Local → Option α
  | .done a, _ => some a
  | .ask q next, l => (q.alone? l).bind fun (x, l) => (next x).alone? l

namespace Request

def Lone : Request → Prop
  | endOutput => True
  | add _ _ => True
  | look => True
  | note _ => True
  | _ => False

theorem exists_alone {q : Request} (h : q.Lone) (l : Local) : ∃ x, q.alone? l = some x := by
  cases q <;> first | exact ⟨_, rfl⟩ | exact absurd h id

theorem alone?_withCancelled (q : Request) (l : Local) (b : Bool) :
    q.alone? (l.withCancelled b) =
      (q.alone? l).map fun (x, l) => (x, l.withCancelled b) := by
  cases q <;> rfl

end Request

namespace Behaviour

variable {α : Type}

theorem exists_alone {b : Behaviour α} (h : b.Asks Request.Lone) (l : Local) :
    ∃ a, b.alone? l = some a := by
  induction b generalizing l with
  | done a => exact ⟨a, rfl⟩
  | ask q next ih =>
    obtain ⟨⟨x, l'⟩, hx⟩ := q.exists_alone h.1 l
    obtain ⟨a, ha⟩ := ih x (h.2 x) l'
    exact ⟨a, by rw [alone?, hx, Option.bind_some]; exact ha⟩

/-- Whether the work of the copy was cancelled makes no difference. -/
theorem alone?_withCancelled (b : Behaviour α) (l : Local) (cancelled : Bool) :
    b.alone? (l.withCancelled cancelled) = b.alone? l := by
  induction b generalizing l with
  | done a => rfl
  | ask q next ih =>
    rw [alone?, alone?, q.alone?_withCancelled]
    cases q.alone? l with
    | none => rfl
    | some x => exact ih x.1 x.2

end Behaviour

def Node.Lone : Node → Prop
  | act .own => True
  | act .endOutput => True
  | act (.close _) => True
  | act (.add _ _) => True
  | act (.note _) => True
  | _ => False

namespace Program

variable {α : Type} {l l' m : Local} {ds : List Doing}

theorem lone_endOutput : endOutput.Within Node.Lone :=
  within_parts_endOutput.mono fun n h => by cases h <;> trivial

theorem runs_closeAll {places : List Nat} {u : Unit} (h : (closeAll places).Runs l ds u m) :
    ∃ b, m = l.withCancelled b := by
  induction places generalizing l ds with
  | nil =>
    cases h with
    | done _ _ b => exact ⟨b, rfl⟩
  | cons i rest ih =>
    obtain ⟨_, _, _, _, _, _, hclose, hrest, -⟩ := h.perform
    cases hclose
    obtain ⟨b, rfl⟩ := ih hrest
    exact ⟨b, rfl⟩

theorem runs_endOutput {u : Unit} (h : endOutput.Runs l ds u m) :
    ∃ b, m = ({ l with outputDone := true } : Local).withCancelled b := by
  obtain ⟨b, es, hes, rfl⟩ := h.own
  rw [done_bind] at hes
  split at hes
  · next hdone =>
    cases hes with
    | done _ _ b' =>
      have hsame : ({ l with outputDone := true } : Local) = l := by
        rw [← show l.outputDone = true from hdone]
      exact ⟨b', by rw [hsame]⟩
  · obtain ⟨_, _, _, _, _, _, hend, hrest, -⟩ := hes.perform
    cases hend
    obtain ⟨b', rfl⟩ := runs_closeAll hrest
    exact ⟨b', rfl⟩

/-- Such a request is answered as it is by the copy alone. -/
theorem runs_alone_request {q : Request} {x y : q.Answer} (h : q.program.Runs l ds x m)
    (hq : q.alone? l = some (y, l')) :
    x = y ∧ (∃ b, m = l'.withCancelled b) ∧ ∀ d ∈ ds, d.node.Lone := by
  cases q with
  | endOutput =>
    cases hq
    exact ⟨rfl, runs_endOutput h, h.nodes lone_endOutput⟩
  | add counter n =>
    have hnodes : ∀ d ∈ ds, d.node.Lone := h.nodes (within_perform trivial)
    cases hq
    cases h with
    | act hl hr =>
      cases hl
      cases hr with
      | done _ _ b => exact ⟨rfl, ⟨b, rfl⟩, hnodes⟩
  | look =>
    have hnodes : ∀ d ∈ ds, d.node.Lone :=
      h.nodes ((within_perform (a := .own) trivial).bind fun _ => within_pure _)
    cases hq
    have hlook : (act .own fun l => done l.view).Runs l ds x m := h
    obtain ⟨b, es, hes, -⟩ := hlook.own
    cases hes with
    | done _ _ b' => exact ⟨rfl, ⟨b', rfl⟩, hnodes⟩
  | note n =>
    have hnodes : ∀ d ∈ ds, d.node.Lone := h.nodes (within_perform trivial)
    cases hq
    cases h with
    | act hl hr =>
      cases hl
      cases hr with
      | done _ _ b => exact ⟨rfl, ⟨b, rfl⟩, hnodes⟩
  | _ => cases hq

/-- Code that keeps to itself comes to what it comes to alone. -/
theorem runs_alone {b : Behaviour α} {x y : α} (h : b.program.Runs l ds x m)
    (hb : b.alone? l = some y) : x = y ∧ ∀ d ∈ ds, d.node.Lone := by
  induction b generalizing l ds with
  | done a =>
    cases hb
    cases h
    exact ⟨rfl, fun _ hd => absurd hd List.not_mem_nil⟩
  | ask q next ih =>
    obtain ⟨es, v, l₁, es', hrequest, hrest, rfl⟩ := Runs.bind (p := q.program) h
    obtain ⟨⟨w, l₂⟩, hw, hy⟩ := Option.bind_eq_some_iff.mp hb
    obtain ⟨rfl, ⟨cancelled, rfl⟩, hes⟩ := runs_alone_request hrequest hw
    obtain ⟨hx, hes'⟩ := ih v hrest (by rw [Behaviour.alone?_withCancelled]; exact hy)
    exact ⟨hx, List.forall_mem_append.mpr ⟨hes, hes'⟩⟩

end Program

namespace Copy

def starting (c : Copy) : Local :=
  { c.own with errorHandling := c.op.capabilities.errorHandling && c.own.errorOutput.isSome }

/-- How the call of the hook for the start will end, if the hook keeps to itself. -/
def ending? (c : Copy) : Option (Ending Unit) :=
  ((c.op.init c.op.start).alone? c.starting).map (·.2)

/-- The fault of the hook for the start, if it is going to fail. -/
def failure? (c : Copy) : Option Fault :=
  c.ending?.bind fun e => faultOf? (Program.resultOf c.own.info.name e)

theorem isSome_ending? {c : Copy} (h : (c.op.init c.op.start).Asks Request.Lone) :
    c.ending?.isSome = true := by
  obtain ⟨a, ha⟩ := Behaviour.exists_alone h c.starting
  rw [ending?, ha]
  rfl

end Copy
end RowFlow
