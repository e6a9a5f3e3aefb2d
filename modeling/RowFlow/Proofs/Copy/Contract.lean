import RowFlow.Copy.Basic
import RowFlow.Proofs.Program.Frame

/-
Contracts of step copies.  A contract says of a copy with a given operator what holds
at the seams of its life, where one task follows another, and what guards each of its
actions in between.  It is lawful if every task leads from the condition at the seam
before it to the condition at the seam after it.

Whether the copy is at work matters at its end: a copy leaves after work, or it is
abandoned and has never worked.  An agreement has a contract for every operator that
fits, with a condition on what is shared that all the copies keep together.

A step of a copy that meets its contract leads to one that meets it (`Meets.step`),
and what others do does not break it (`Meets.drift`).
-/
namespace RowFlow

structure Contract (W : Shared → Prop) (op : Operator) where
  /-- For each action of a copy that is at work, or is not. -/
  guard : Bool → Node → Position → Prop
  made : Position → Prop
  ready : op.State → Position → Prop
  refused : op.State → Position → Prop
  /-- Between two rounds. -/
  idle : op.State → Position → Prop
  leaving : op.State → Outcome → Position → Prop
  gone : Bool → Position → Prop

namespace Contract

variable {W : Shared → Prop} {op : Operator} (C : Contract W op)

def begun : op.State × Except Fault Unit → Position → Prop
  | (m, .ok _) => C.ready m
  | (m, .error _) => C.refused m

def turned : op.State × Turn → Position → Prop
  | (m, .again) => C.idle m
  | (m, .leave o) => C.leaving m o

def Holds (atWork : Bool) (t : Task op) (q : Position) : Prop :=
  match t with
  | .created => atWork = false ∧ C.made q
  | .beginning p => atWork = false ∧ p.Keeps W (C.guard false) C.begun q
  | .ready m => atWork = false ∧ C.ready m q
  | .refused m _ => atWork = false ∧ C.refused m q
  | .working p => atWork = true ∧ p.Keeps W (C.guard true) C.turned q
  | .leaving p => p.Keeps W (C.guard atWork) (fun _ => C.gone atWork) q
  | .gone => C.gone atWork q

/-- A condition that holds at the seams and follows from the guard. -/
structure Implies (I : Bool → Position → Prop) : Prop where
  guard : ∀ b n q, C.guard b n q → I b q
  made : ∀ q, C.made q → I false q
  ready : ∀ m q, C.ready m q → I false q
  refused : ∀ m q, C.refused m q → I false q
  idle : ∀ m q, C.idle m q → I true q
  leaving : ∀ m o q, C.leaving m o q → I true q
  gone : ∀ b q, C.gone b q → I b q

structure Lawful : Prop where
  made : Stable W C.made
  ready : ∀ m, Stable W (C.ready m)
  refused : ∀ m, Stable W (C.refused m)
  gone : ∀ atWork, Stable W (C.gone atWork)
  begin : ∀ p, W p.shared → C.made p →
    (Program.begin op op.start).Keeps W (C.guard false) C.begun p
  start : ∀ m p, W p.shared → C.ready m p →
    C.guard true (.act (.publish .running)) p ∧ C.idle m
      { p with own := { p.own with status := p.own.status.set .running } }
  idle : ∀ m, Stable W (C.idle m)
  round : ∀ m p, W p.shared → C.idle m p →
    (Program.round op m).Keeps W (C.guard true) C.turned p
  leave : ∀ m o p, W p.shared → C.leaving m o p →
    (Program.leave op m o).Keeps W (C.guard true) (fun _ => C.gone true) p
  abandon : ∀ m p, W p.shared → C.ready m p ∨ C.refused m p →
    (Program.abandon op m).Keeps W (C.guard false) (fun _ => C.gone false) p

variable {C}

theorem Holds.drift (hC : C.Lawful) {atWork : Bool} {t : Task op} {p q : Position}
    (h : C.Holds atWork t p) (hd : p.Drift q) (hw : W q.shared) : C.Holds atWork t q := by
  cases t with
  | created => exact ⟨h.1, hC.made p q hd hw h.2⟩
  | beginning r => exact ⟨h.1, Program.Keeps.drift h.2 hd⟩
  | ready m => exact ⟨h.1, hC.ready m p q hd hw h.2⟩
  | refused m f => exact ⟨h.1, hC.refused m p q hd hw h.2⟩
  | working r => exact ⟨h.1, Program.Keeps.drift h.2 hd⟩
  | leaving r => exact Program.Keeps.drift h hd
  | gone => exact hC.gone atWork p q hd hw h

/-- Such a condition holds all the time. -/
theorem Holds.now {I : Bool → Position → Prop} (hI : C.Implies I) {atWork : Bool} {t : Task op}
    {p : Position} (h : C.Holds atWork t p) (hw : W p.shared) : I atWork p := by
  cases t with
  | created => exact h.1 ▸ hI.made p h.2
  | ready m => exact h.1 ▸ hI.ready m p h.2
  | refused m f => exact h.1 ▸ hI.refused m p h.2
  | beginning r =>
    obtain ⟨rfl, h⟩ := h
    refine Program.Keeps.now h hw (fun n q => hI.guard false n q) fun a q => ?_
    obtain ⟨m, r⟩ := a
    cases r
    · exact hI.refused m q
    · exact hI.ready m q
  | working r =>
    obtain ⟨rfl, h⟩ := h
    refine Program.Keeps.now h hw (fun n q => hI.guard true n q) fun a q => ?_
    obtain ⟨m, t⟩ := a
    cases t
    · exact hI.idle m q
    · exact hI.leaving m _ q
  | leaving r =>
    exact Program.Keeps.now h hw (fun n q => hI.guard atWork n q) fun _ q => hI.gone atWork q
  | gone => exact hI.gone atWork p h

end Contract

/-- What the copies of a run keep between them. -/
structure Agreement where
  world : Shared → Prop
  fits : Operator → Prop
  contract : (op : Operator) → fits op → Contract world op

namespace Agreement

variable (A : Agreement)

structure Lawful : Prop where
  contract : ∀ op h, (A.contract op h).Lawful
  /-- What the guard lets through keeps the world. -/
  leads : ∀ op h atWork n p q, A.world p.shared → (A.contract op h).guard atWork n p →
    n.Leads p q → A.world q.shared
  external : ∀ s, A.world s → A.world { s with control := s.control.giveReason .external }
  raise : ∀ s, A.world s → s.control.reason ≠ none →
    A.world { s with control := s.control.raiseFlag.1 }
  refusal : ∀ op h m p step, A.world p.shared → (A.contract op h).refused m p →
    A.world { p.shared with control := p.shared.control.giveReason (.stepFailed step) }

end Agreement

namespace Copy

def deed? (c : Copy) (s : Shared) : Option Deed :=
  match c.task with
  | .beginning p => p.deed? c.own s
  | .working p => p.deed? c.own s
  | .leaving p => p.deed? c.own s
  | _ => none

def node? (c : Copy) : Option Node :=
  match c.task with
  | .beginning p => p.node?
  | .working p => p.node?
  | .leaving p => p.node?
  | _ => none

/-- A step of a copy changes nothing but its task, or is the next action of its task. -/
theorem step_leads (c : Copy) (past : List Deed) (s : Shared) :
    let q : Position := ⟨(c.deed? s).toList ++ past, (c.step s).1.own, (c.step s).2⟩
    q = ⟨past, c.own, s⟩ ∨ ∃ n, c.node? = some n ∧ n.Leads ⟨past, c.own, s⟩ q := by
  obtain ⟨op, own, task⟩ := c
  cases task with
  | created => exact .inl rfl
  | ready m => exact .inl rfl
  | refused m f => exact .inl rfl
  | gone => exact .inl rfl
  | beginning p =>
    cases p with
    | done a =>
      obtain ⟨m, r⟩ := a
      cases r <;> exact .inl rfl
    | act a next => exact Program.step_leads (.act a next) past own s
    | receive scan next => exact Program.step_leads (.receive scan next) past own s
    | deliver i row refused next =>
      exact Program.step_leads (.deliver i row refused next) past own s
  | working p =>
    cases p with
    | done a =>
      obtain ⟨m, t⟩ := a
      cases t <;> exact .inl rfl
    | act a next => exact Program.step_leads (.act a next) past own s
    | receive scan next => exact Program.step_leads (.receive scan next) past own s
    | deliver i row refused next =>
      exact Program.step_leads (.deliver i row refused next) past own s
  | leaving p =>
    cases p with
    | done a => exact .inl rfl
    | act a next => exact Program.step_leads (.act a next) past own s
    | receive scan next => exact Program.step_leads (.receive scan next) past own s
    | deliver i row refused next =>
      exact Program.step_leads (.deliver i row refused next) past own s

def Meets (A : Agreement) (atWork : Bool) (past : List Deed) (s : Shared) (c : Copy) : Prop :=
  ∃ h : A.fits c.op, (A.contract c.op h).Holds atWork c.task ⟨past, c.own, s⟩

section Meets

variable {A : Agreement} {atWork : Bool} {past : List Deed} {s t : Shared} {c : Copy}

theorem Meets.drift (hA : A.Lawful) (h : c.Meets A atWork past s) (hle : s ≤ t)
    (hw : A.world t) : c.Meets A atWork past t := by
  obtain ⟨hop, h⟩ := h
  exact ⟨hop, h.drift (hA.contract _ hop) ⟨rfl, ⟨c.own.cancelled, rfl⟩, hle⟩ hw⟩

theorem Meets.cancelled (hA : A.Lawful) (h : c.Meets A atWork past s) (hw : A.world s) :
    Copy.Meets A atWork past s { c with own := { c.own with cancelled := true } } := by
  obtain ⟨hop, h⟩ := h
  exact ⟨hop, h.drift (hA.contract _ hop) ⟨rfl, ⟨true, rfl⟩, le_refl s⟩ hw⟩

/-- The guard of the contract holds for what the copy is about to do. -/
theorem Meets.guard (h : c.Meets A atWork past s) (hw : A.world s) {n : Node}
    (hn : c.node? = some n) :
    ∃ hop : A.fits c.op, (A.contract c.op hop).guard atWork n ⟨past, c.own, s⟩ := by
  obtain ⟨hop, h⟩ := h
  obtain ⟨op, own, task⟩ := c
  cases task with
  | beginning p => exact ⟨hop, h.1 ▸ Program.Keeps.guard h.2 hw hn⟩
  | working p => exact ⟨hop, h.1 ▸ Program.Keeps.guard h.2 hw hn⟩
  | leaving p => exact ⟨hop, Program.Keeps.guard h hw hn⟩
  | _ => simp [node?] at hn

theorem Meets.world (hA : A.Lawful) (h : c.Meets A atWork past s) (hw : A.world s) :
    A.world (c.step s).2 := by
  rcases c.step_leads past s with hsame | ⟨n, hn, hl⟩
  · rw [show (c.step s).2 = s from congrArg Position.shared hsame]
    exact hw
  · obtain ⟨hop, hg⟩ := h.guard hw hn
    exact hA.leads _ hop atWork n _ _ hw hg hl

theorem Meets.step (hA : A.Lawful) (h : c.Meets A atWork past s) (hw : A.world s) :
    (c.step s).1.Meets A atWork ((c.deed? s).toList ++ past) (c.step s).2 := by
  obtain ⟨hop, h⟩ := h
  obtain ⟨op, own, task⟩ := c
  have hC := hA.contract op hop
  have hrefl : Position.Drift ⟨past, own, s⟩ ⟨past, own, s⟩ := .refl _
  cases task with
  | created => exact ⟨hop, h⟩
  | ready m => exact ⟨hop, h⟩
  | refused m f => exact ⟨hop, h⟩
  | gone => exact ⟨hop, h⟩
  | beginning p =>
    obtain ⟨rfl, h⟩ := h
    cases p with
    | done a =>
      obtain ⟨m, r⟩ := a
      cases r with
      | ok _ => exact ⟨hop, rfl, h _ hrefl hw⟩
      | error f => exact ⟨hop, rfl, h _ hrefl hw⟩
    | _ => exact ⟨hop, rfl, Program.Keeps.step h hw⟩
  | working p =>
    obtain ⟨rfl, h⟩ := h
    cases p with
    | done a =>
      obtain ⟨m, t⟩ := a
      cases t with
      | again => exact ⟨hop, rfl, hC.round m _ hw (h _ hrefl hw)⟩
      | leave o => exact ⟨hop, hC.leave m o _ hw (h _ hrefl hw)⟩
    | _ => exact ⟨hop, rfl, Program.Keeps.step h hw⟩
  | leaving p =>
    cases p with
    | done a => exact ⟨hop, h _ hrefl hw⟩
    | _ => exact ⟨hop, Program.Keeps.step h hw⟩

end Meets
end Copy
end RowFlow
