import RowFlow.Proofs.Determinacy.Stride
import RowFlow.Proofs.Run.Joined

/-
What a copy does at a time: an action of its task, or the change from one task to the
next.  `Strides` lists these.  Either way the copy on its own comes to the same
(`Strides.alone`), and what its task has to keep to is kept.
-/
namespace RowFlow

namespace Task

variable {op : Operator}

def Secluded (o : Local) : Task op → Prop
  | .beginning p => p.Secluded o
  | .working p => p.Secluded o
  | .leaving p => p.Secluded o
  | _ => True

/-- The copy is going to stop the run before it comes to its end, or cannot start. -/
def Doomed : Task op → Prop
  | .beginning p => p.Doomed fun a => ∃ f : Fault, a.2 = .error f
  | .refused _ _ => True
  | .working p => p.Doomed fun _ => False
  | .leaving p => p.Doomed fun _ => False
  | _ => False

/-- The copy is doomed once a row of its hooks was refused for its layout. -/
def Strict : Task op → Prop
  | .beginning p => p.Strict fun a => ∃ f : Fault, a.2 = .error f
  | .working p => p.Strict fun _ => False
  | _ => True

def Parting : Task op → Prop
  | .beginning p => p.Parting
  | .working p => p.Parting
  | .leaving p => p.Parting
  | _ => False

def Closing (i : Nat) : Task op → Prop
  | .beginning p => p.Closing i
  | .working p => p.Closing i
  | .leaving p => p.Closing i
  | _ => False

/-- A copy that leaves ends its outputs before it delivers anything. -/
def Late : Task op → Prop
  | .leaving p => p.Late
  | _ => True

end Task

namespace Copy

open Program

inductive Strides (s : Shared) : Copy → Option Trade → Copy → Shared → Prop
  | still (c : Copy) : Strides s c none c s
  | begin {op : Operator} {own : Local} :
      Strides s ⟨op, own, .created⟩ none ⟨op, own, .beginning (begin op op.start)⟩ s
  | beginning {op : Operator} {own : Local} (p : Program (op.State × Except Fault Unit)) :
      Strides s ⟨op, own, .beginning p⟩ (p.trade? own s)
        ⟨op, (p.step own s).2.1, .beginning (p.step own s).1⟩ (p.step own s).2.2
  | ready {op : Operator} {own : Local} (m : op.State) :
      Strides s ⟨op, own, .beginning (.done (m, .ok ()))⟩ none ⟨op, own, .ready m⟩ s
  | refused {op : Operator} {own : Local} (m : op.State) (f : Fault) :
      Strides s ⟨op, own, .beginning (.done (m, .error f))⟩ none ⟨op, own, .refused m f⟩ s
  | work {op : Operator} {own : Local} (m : op.State) :
      Strides s ⟨op, own, .ready m⟩ none
        ⟨op, own, .working (.act (.publish .running) fun _ => .done (m, .again))⟩ s
  | working {op : Operator} {own : Local} (p : Program (op.State × Turn)) :
      Strides s ⟨op, own, .working p⟩ (p.trade? own s)
        ⟨op, (p.step own s).2.1, .working (p.step own s).1⟩ (p.step own s).2.2
  | again {op : Operator} {own : Local} (m : op.State) :
      Strides s ⟨op, own, .working (.done (m, .again))⟩ none
        ⟨op, own, .working (round op m)⟩ s
  | leave {op : Operator} {own : Local} (m : op.State) (o : Outcome) :
      Strides s ⟨op, own, .working (.done (m, .leave o))⟩ none
        ⟨op, own, .leaving (leave op m o)⟩ s
  | leaving {op : Operator} {own : Local} (p : Program Unit) :
      Strides s ⟨op, own, .leaving p⟩ (p.trade? own s)
        ⟨op, (p.step own s).2.1, .leaving (p.step own s).1⟩ (p.step own s).2.2
  | gone {op : Operator} {own : Local} :
      Strides s ⟨op, own, .leaving (.done ())⟩ none ⟨op, own, .gone⟩ s

theorem strides_step (c : Copy) (s : Shared) :
    Strides s c (c.trade? s) (c.step s).1 (c.step s).2 := by
  obtain ⟨op, own, task⟩ := c
  cases task with
  | beginning p =>
    cases p with
    | done a =>
      obtain ⟨m, r⟩ := a
      cases r with
      | ok _ => exact .ready m
      | error f => exact .refused m f
    | _ => exact .beginning _
  | working p =>
    cases p with
    | done a =>
      obtain ⟨m, t⟩ := a
      cases t with
      | again => exact .again m
      | leave o => exact .leave m o
    | _ => exact .working _
  | leaving p =>
    cases p with
    | done a => exact .gone
    | _ => exact .leaving _
  | _ => exact .still _

theorem strides_toBegin (c : Copy) (s : Shared) : Strides s c none c.toBegin s := by
  obtain ⟨op, own, task⟩ := c
  cases task with
  | created => exact .begin
  | _ => exact .still _

theorem strides_toWork (c : Copy) (s : Shared) : Strides s c none c.toWork s := by
  obtain ⟨op, own, task⟩ := c
  cases task with
  | ready m => exact .work m
  | _ => exact .still _

namespace Strides

variable {s s' : Shared} {c c' : Copy} {d : Option Trade} {names : Nat → String}

theorem becomes (h : Strides s c d c' s') : c.Becomes c' := by
  have hprogram : ∀ {α : Type} (p : Program α) (own : Local),
      (p.step own s).2.1.origin = own.origin := by
    intro α p own
    rcases p.step_leads [] own s with hsame | ⟨n, -, hl⟩
    · rw [show (p.step own s).2.1 = own from congrArg Position.own hsame]
    · exact hl.origin
  cases h with
  | beginning p => exact ⟨rfl, hprogram p _⟩
  | working p => exact ⟨rfl, hprogram p _⟩
  | leaving p => exact ⟨rfl, hprogram p _⟩
  | _ => exact ⟨rfl, rfl⟩

theorem pending (h : Strides s c d c' s') : c'.own.pending.Sublist c.own.pending := by
  cases h with
  | beginning p => exact pending_step p _ s
  | working p => exact pending_step p _ s
  | leaving p => exact pending_step p _ s
  | _ => exact List.Sublist.refl _

theorem secluded (h : Strides s c d c' s') (hop : c.op.Secluded)
    (hc : c.task.Secluded c.own.origin) : c'.task.Secluded c.own.origin := by
  cases h with
  | still => exact hc
  | begin => exact secluded_begin hop
  | beginning p => exact secluded_step hc rfl
  | work m => exact (secluded_perform (a := .publish .running) trivial).bind fun _ => trivial
  | working p => exact secluded_step hc rfl
  | again m => exact secluded_round hop m
  | leave m o => exact secluded_leave hop m o
  | leaving p => exact secluded_step hc rfl
  | _ => trivial

theorem doomed (h : Strides s c d c' s') (hdown : s'.control.stopped = false)
    (hc : c.task.Doomed) : c'.task.Doomed := by
  cases h with
  | still => exact hc
  | beginning p => exact doomed_step hc hdown
  | refused m f => trivial
  | working p => exact doomed_step hc hdown
  | leaving p => exact doomed_step hc hdown
  | ready m =>
    obtain ⟨f, hf⟩ := hc
    cases hf
  | _ => exact absurd hc id

theorem strict (h : Strides s c d c' s') (hop : c.op.HandsBack) (hc : c.task.Strict) :
    c'.task.Strict := by
  cases h with
  | still => exact hc
  | begin => exact strict_begin hop
  | beginning p => exact strict_step hc
  | work m => exact fun _ => trivial
  | working p => exact strict_step hc
  | again m => exact strict_round hop m
  | _ => trivial

theorem closing (h : Strides s c d c' s') {i : Nat} (hc : c.task.Closing i) :
    c'.task.Closing i ∨ d = some (.ended i) := by
  cases h with
  | still => exact .inl hc
  | beginning p => exact closing_step hc
  | working p => exact closing_step hc
  | leaving p => exact closing_step hc
  | _ => exact absurd hc id

theorem closing_of_outputDone (h : Strides s c d c' s') (hc : c.task.Secluded c.own.origin)
    (hopen : c.own.outputDone = false) (hdone : c'.own.outputDone = true) {i : Nat}
    (hi : i ∈ c.own.outlets) : c'.task.Closing i := by
  rw [← Local.outlets_origin] at hi
  cases h with
  | beginning p => exact Program.closing_of_outputDone hc hopen hdone hi
  | working p => exact Program.closing_of_outputDone hc hopen hdone hi
  | leaving p => exact Program.closing_of_outputDone hc hopen hdone hi
  | _ =>
    rw [hopen] at hdone
    cases hdone

theorem late (h : Strides s c d c' s') (hc : c.task.Late ∨ c.own.outputDone = true) :
    c'.task.Late ∨ c'.own.outputDone = true := by
  cases h with
  | still => exact hc
  | leave m o => exact .inl (late_leave _ m o)
  | leaving p =>
    rcases hc with hlate | hdone
    · exact late_step hlate
    · exact .inr (p.outputDone_mono_step hdone)
  | _ => exact .inl trivial

theorem parting (h : Strides s c d c' s') (hc : c.task.Parting) :
    c'.task.Parting ∨ c'.own.pending = [] := by
  cases h with
  | still => exact .inl hc
  | beginning p => exact parting_step hc
  | working p => exact parting_step hc
  | leaving p => exact parting_step hc
  | _ => exact absurd hc id

theorem touches (h : Strides s c d c' s') (hc : c.task.Secluded c.own.origin)
    (hpending : ∀ i ∈ c.own.pending, i ∈ c.own.inputs)
    (hexists : ∀ i, i ∈ c.own.inputs ∨ i ∈ c.own.outlets → ∃ rs, s.rowSets[i]? = some rs) :
    Touches c.own.inputs c.own.outlets c'.task.Parting s.rowSets d s'.rowSets := by
  rw [← Local.outlets_origin] at hexists ⊢
  cases h with
  | beginning p => exact touches_step hc hpending hexists
  | working p => exact touches_step hc hpending hexists
  | leaving p => exact touches_step hc hpending hexists
  | _ => exact .nothing

def Dry (c : Copy) (s : Shared) (rows : List Row) : Prop :=
  ∀ i, c.own.pending = [i] → c.node? = some .receive → (s.poll i).2 = .done → rows = []

/-- A copy that cannot go on after a row of its own was refused for its layout.  When it
leaves there are no such refusals any more. -/
theorem doomed_of_clash (h : Strides s c d c' s') (hstrict : c.task.Strict)
    (hc : c.task.Secluded c.own.origin) (hlate : c.task.Late ∨ c.own.outputDone = true)
    (hended : c.own.outputDone = true → ∀ i ∈ c.own.outlets, c.task.Closing i ∨
      ∃ rs, s.rowSets[i]? = some rs ∧ rs.closed = true)
    {x : Trade} (hd : d = some x) (hclash : x.Clash) : c'.task.Doomed := by
  rw [← Local.outlets_origin] at hended
  cases h with
  | beginning p => exact doomed_step_of_clash hstrict hd hclash
  | working p => exact doomed_step_of_clash hstrict hd hclash
  | leaving p => exact absurd hclash (not_clash_of_late hc hlate hended hd)
  | _ => cases hd

section Alone

variable {op : Operator} {own : Local} {log : List Trade}

theorem alone_again (m : op.State) (n : Nat) (x : Solo) :
    (⟨op, own, .working (.done (m, .again))⟩ : Copy).alone names (n + 1) x =
      (⟨op, own, .working (round op m)⟩ : Copy).alone names n x := rfl

theorem alone_leave (m : op.State) (o : Outcome) (n : Nat) (x : Solo) :
    (⟨op, own, .working (.done (m, .leave o))⟩ : Copy).alone names n x =
      (⟨op, own, .leaving (Program.leave op m o)⟩ : Copy).alone names n x := by
  cases n <;> rfl

/-- A copy on its own does what it does in the midst of others. -/
theorem alone (h : Strides s c d c' s') (hc : c.task.Secluded c.own.origin)
    (hdown : s'.control.stopped = false) (hpending : c.own.pending.length ≤ 1)
    (hknown : ∀ i ∈ c.own.outlets, Known names s.rowSets log i)
    (hclash : ∀ x, d = some x → ¬ x.Clash) (hdoomed : ¬ c'.task.Doomed) :
    ∃ j, ∀ rows, Dry c s rows → ∀ n,
      c.alone names (n + j) ⟨c.own.still, rowsTaken d.toList ++ rows, log⟩ =
        c'.alone names n ⟨c'.own.still, rows, log ++ d.toList⟩ := by
  rw [← Local.outlets_origin] at hknown
  have hprogram : ∀ {α : Type} (p : Program α), p.Secluded c.own.origin →
      (p.step c.own s).2.2.control.stopped = false →
      (∀ x, p.trade? c.own s = some x → ¬ x.Clash) →
      ¬ (p.step c.own s).1.Doomed (fun _ => False) → p.node? = c.node? →
      ∀ rows, Dry c s rows →
        p.alone names ⟨c.own.still, rowsTaken (p.trade? c.own s).toList ++ rows, log⟩ =
          (p.step c.own s).1.alone names
            ⟨(p.step c.own s).2.1.still, rows, log ++ (p.trade? c.own s).toList⟩ := by
    intro α p hp hflag hclash hnot hnode rows hdry
    refine (alone_step hp rfl hflag hpending hknown hclash ?_).resolve_left hnot
    rw [hnode]
    exact hdry
  cases h with
  | still => exact ⟨0, fun rows _ n => by simp [rowsTaken]⟩
  | begin => exact ⟨0, fun rows _ n => by simp [rowsTaken]; rfl⟩
  | beginning p =>
    refine ⟨0, fun rows hdry n => ?_⟩
    have hnot : ¬ (p.step _ s).1.Doomed fun _ => False :=
      fun h => hdoomed (h.mono fun _ hfalse => absurd hfalse id)
    exact congrArg (Option.bind · _) (hprogram p hc hdown hclash hnot rfl rows hdry)
  | ready m => exact ⟨0, fun rows _ n => by simp [rowsTaken]; rfl⟩
  | refused m f => exact absurd trivial hdoomed
  | work m => exact ⟨0, fun rows _ n => by simp [rowsTaken]; rfl⟩
  | working p =>
    refine ⟨0, fun rows hdry n => ?_⟩
    exact congrArg (Option.bind · _) (hprogram p hc hdown hclash hdoomed rfl rows hdry)
  | again m => exact ⟨1, fun rows _ n => by simpa [rowsTaken] using alone_again m n _⟩
  | leave m o => exact ⟨0, fun rows _ n => by simpa [rowsTaken] using alone_leave m o n _⟩
  | leaving p =>
    refine ⟨0, fun rows hdry n => ?_⟩
    exact congrArg (Option.map _) (hprogram p hc hdown hclash hdoomed rfl rows hdry)
  | gone => exact ⟨0, fun rows _ n => by simp [rowsTaken]; rfl⟩

end Alone

end Strides
end Copy
end RowFlow
