import RowFlow.Proofs.Copy.Lives
import RowFlow.Proofs.Program.Watch

/-
Copies under watch.  A regime says what a watch has come to at the seams of a copy's
life.  It is lawful if each program of the copy leads under watch from the seam before
it to the seam after it.  Then a copy that obeys the regime does nothing unexpected, and
goes on to obey it (`Obeys.step`).
-/
namespace RowFlow

structure Regime (w : Watch) where
  fits : Operator → Prop
  seam : (op : Operator) → Local → Seam op → w.State → Prop

namespace Regime

variable {w : Watch}

open Program

structure Lawful (R : Regime w) : Prop where
  watch : w.Lawful
  lasts : ∀ op o t, w.Lasts (R.seam op o t)
  begin : ∀ op o x, R.fits op → R.seam op o .created x →
    (begin op op.start).Heeds w o (fun a => R.seam op o (.begun a)) x
  start : ∀ op o m x, R.seam op o (.ready m) x →
    (act (.publish .running) fun _ => .done (m, .again)).Heeds w o
      (fun a => R.seam op o (.turned a)) x
  round : ∀ op o m x, R.fits op → R.seam op o (.idle m) x →
    (round op m).Heeds w o (fun a => R.seam op o (.turned a)) x
  leave : ∀ op o m e x, R.fits op → R.seam op o (.leaving m e) x →
    (leave op m e).Heeds w o (fun _ => R.seam op o .gone) x
  abandon : ∀ op o m x, R.fits op → R.seam op o (.ready m) x ∨ R.seam op o (.refused m) x →
    (abandon op m).Heeds w o (fun _ => R.seam op o .gone) x

def Leads (R : Regime w) {op : Operator} (o : Local) (t : Task op) (x : w.State) : Prop :=
  match t with
  | .created => R.seam op o .created x
  | .beginning p => p.Heeds w o (fun a => R.seam op o (.begun a)) x
  | .ready m => R.seam op o (.ready m) x
  | .refused m _ => R.seam op o (.refused m) x
  | .working p => p.Heeds w o (fun a => R.seam op o (.turned a)) x
  | .leaving p => p.Heeds w o (fun _ => R.seam op o .gone) x
  | .gone => R.seam op o .gone x

structure Obeys (R : Regime w) (c : Copy) (x : w.State) : Prop where
  fits : R.fits c.op
  leads : R.Leads c.own.origin c.task x

end Regime

open Program in
inductive Task.Turns {op : Operator} : Task op → Task op → Prop
  | begin : Turns .created (.beginning (begin op op.start))
  | ready (m : op.State) : Turns (.beginning (.done (m, .ok ()))) (.ready m)
  | refused (m : op.State) (f : Fault) : Turns (.beginning (.done (m, .error f))) (.refused m f)
  | start (m : op.State) :
      Turns (.ready m) (.working (.act (.publish .running) fun _ => .done (m, .again)))
  | again (m : op.State) : Turns (.working (.done (m, .again))) (.working (round op m))
  | leave (m : op.State) (o : Outcome) :
      Turns (.working (.done (m, .leave o))) (.leaving (leave op m o))
  | gone : Turns (.leaving (.done ())) .gone
  | giveUp (m : op.State) : Turns (.ready m) (.leaving (abandon op m))
  | giveUpRefused (m : op.State) (f : Fault) : Turns (.refused m f) (.leaving (abandon op m))

namespace Copy

def doing? (c : Copy) (s : Shared) : Option Doing :=
  match c.task with
  | .beginning p => p.doing? c.own s
  | .working p => p.doing? c.own s
  | .leaving p => p.doing? c.own s
  | _ => none

/-- The steps of copies, each with what is done and what can be told of it. -/
inductive Goes (s : Shared) : Copy → Option Doing → Option Deed → Copy → Shared → Prop
  | still (c : Copy) : Goes s c none none c s
  | turn {op : Operator} {own : Local} {t t' : Task op} (h : t.Turns t') :
      Goes s ⟨op, own, t⟩ none none ⟨op, own, t'⟩ s
  | beginning {op : Operator} {own l' : Local} {s' : Shared}
      {p p' : Program (op.State × Except Fault Unit)} {d : Option Doing} {deed : Option Deed}
      (h : p.Goes own s d deed p' l' s') :
      Goes s ⟨op, own, .beginning p⟩ d deed ⟨op, l', .beginning p'⟩ s'
  | working {op : Operator} {own l' : Local} {s' : Shared} {p p' : Program (op.State × Turn)}
      {d : Option Doing} {deed : Option Deed} (h : p.Goes own s d deed p' l' s') :
      Goes s ⟨op, own, .working p⟩ d deed ⟨op, l', .working p'⟩ s'
  | leaving {op : Operator} {own l' : Local} {s' : Shared} {p p' : Program Unit}
      {d : Option Doing} {deed : Option Deed} (h : p.Goes own s d deed p' l' s') :
      Goes s ⟨op, own, .leaving p⟩ d deed ⟨op, l', .leaving p'⟩ s'

theorem goes_step (c : Copy) (s : Shared) :
    c.Goes s (c.doing? s) (c.deed? s) (c.step s).1 (c.step s).2 := by
  obtain ⟨op, own, task⟩ := c
  cases task with
  | beginning p =>
    cases p with
    | done a =>
      obtain ⟨m, r⟩ := a
      cases r with
      | ok _ => exact .turn (.ready m)
      | error f => exact .turn (.refused m f)
    | act a next => exact .beginning (Program.goes_step (.act a next) own s)
    | receive scan next => exact .beginning (Program.goes_step (.receive scan next) own s)
    | deliver i row refused next =>
      exact .beginning (Program.goes_step (.deliver i row refused next) own s)
  | working p =>
    cases p with
    | done a =>
      obtain ⟨m, t⟩ := a
      cases t with
      | again => exact .turn (.again m)
      | leave o => exact .turn (.leave m o)
    | act a next => exact .working (Program.goes_step (.act a next) own s)
    | receive scan next => exact .working (Program.goes_step (.receive scan next) own s)
    | deliver i row refused next =>
      exact .working (Program.goes_step (.deliver i row refused next) own s)
  | leaving p =>
    cases p with
    | done a => exact .turn .gone
    | act a next => exact .leaving (Program.goes_step (.act a next) own s)
    | receive scan next => exact .leaving (Program.goes_step (.receive scan next) own s)
    | deliver i row refused next =>
      exact .leaving (Program.goes_step (.deliver i row refused next) own s)
  | _ => exact .still _

section Goes

variable {c c' : Copy} {s s' : Shared} {deed : Option Deed}

/-- A step that does something leads where that leads. -/
theorem Goes.leads {d : Doing} (h : c.Goes s (some d) deed c' s') (past : List Deed) :
    d.Leads ⟨past, c.own, s⟩ ⟨deed.toList ++ past, c'.own, s'⟩ := by
  cases h with
  | beginning h => exact h.leads past
  | working h => exact h.leads past
  | leaving h => exact h.leads past

/-- Another step leaves everything but the task as it is. -/
theorem Goes.rests (h : c.Goes s none deed c' s') :
    deed = none ∧ c.own.Rests c'.own ∧ s' = s := by
  cases h with
  | still => exact ⟨rfl, .refl _, rfl⟩
  | turn h => exact ⟨rfl, .refl _, rfl⟩
  | beginning h => exact h.rests
  | working h => exact h.rests
  | leaving h => exact h.rests

end Goes

end Copy

namespace Regime

variable {w : Watch} {R : Regime w} {c c' : Copy} {x y : w.State}

theorem Lawful.turn (hR : R.Lawful) {op : Operator} {o : Local} {t t' : Task op}
    (h : t.Turns t') (hfits : R.fits op) (hleads : R.Leads o t x) : R.Leads o t' x := by
  have hx := hR.watch.refl x
  cases h with
  | begin => exact hR.begin op o x hfits hleads
  | ready m => exact hleads x hx
  | refused m f => exact hleads x hx
  | start m => exact hR.start op o m x hleads
  | again m => exact hR.round op o m x hfits (hleads x hx)
  | leave m e => exact hR.leave op o m e x hfits (hleads x hx)
  | gone => exact hleads x hx
  | giveUp m => exact hR.abandon op o m x hfits (.inl hleads)
  | giveUpRefused m f => exact hR.abandon op o m x hfits (.inr hleads)

theorem Obeys.drift (hR : R.Lawful) (h : R.Obeys c x) (hd : w.Drift x y) : R.Obeys c y := by
  refine ⟨h.fits, ?_⟩
  have hleads := h.leads
  obtain ⟨op, own, task⟩ := c
  cases task with
  | beginning p => exact Program.Heeds.drift hR.watch hleads hd
  | working p => exact Program.Heeds.drift hR.watch hleads hd
  | leaving p => exact Program.Heeds.drift hR.watch hleads hd
  | _ => exact hR.lasts _ _ _ x y hd hleads

/-- The copy may have been cancelled meanwhile, or has gone on with a search. -/
theorem Obeys.rests {op : Operator} {own own' : Local} {t : Task op} (h : R.Obeys ⟨op, own, t⟩ x)
    (hrests : own.Rests own') : R.Obeys ⟨op, own', t⟩ x :=
  ⟨h.fits, hrests.origin ▸ h.leads⟩

/-- A copy that obeys is at a seam, or about to do something expected. -/
theorem Obeys.exists_next (hR : R.Lawful) (h : R.Obeys c x) :
    (∃ t, R.seam c.op c.own.origin t x) ∨ ∃ d z, c.node? = some d.node ∧ w.Next x d z := by
  have hleads := h.leads
  obtain ⟨op, own, task⟩ := c
  cases task with
  | beginning p =>
    exact (Program.Heeds.exists_next hR.watch hleads).imp_left fun ⟨a, _, ha⟩ => ⟨_, ha⟩
  | working p =>
    exact (Program.Heeds.exists_next hR.watch hleads).imp_left fun ⟨a, _, ha⟩ => ⟨_, ha⟩
  | leaving p =>
    exact (Program.Heeds.exists_next hR.watch hleads).imp_left fun ⟨a, _, ha⟩ => ⟨_, ha⟩
  | _ => exact .inl ⟨_, hleads⟩

section Step

variable {s s' : Shared} {deed : Option Deed} (hR : R.Lawful) (h : R.Obeys c x)
  (hdown : w.Down x → s.control.stopped = true)
include hR h hdown

/-- What the copy does is expected, and it goes on to obey. -/
theorem Obeys.goes {d : Doing} (hg : c.Goes s (some d) deed c' s') :
    ∃ z, w.Next x d z ∧ R.Obeys c' z := by
  have horigin : c'.own.origin = c.own.origin := (hg.leads []).origin
  obtain ⟨hfits, hleads⟩ := h
  cases hg with
  | beginning hg =>
    obtain ⟨z, hz, hnext⟩ := Program.Heeds.goes hR.watch hg hleads hdown
    exact ⟨z, hz, hfits, horigin ▸ hnext⟩
  | working hg =>
    obtain ⟨z, hz, hnext⟩ := Program.Heeds.goes hR.watch hg hleads hdown
    exact ⟨z, hz, hfits, horigin ▸ hnext⟩
  | leaving hg =>
    obtain ⟨z, hz, hnext⟩ := Program.Heeds.goes hR.watch hg hleads hdown
    exact ⟨z, hz, hfits, horigin ▸ hnext⟩

/-- As long as it does nothing the watch waits. -/
theorem Obeys.waits (hg : c.Goes s none deed c' s') : R.Obeys c' x := by
  have horigin : c'.own.origin = c.own.origin := hg.rests.2.1.origin
  obtain ⟨hfits, hleads⟩ := h
  cases hg with
  | still => exact ⟨hfits, hleads⟩
  | turn ht => exact ⟨hfits, hR.turn ht hfits hleads⟩
  | beginning hg =>
    exact ⟨hfits, horigin ▸ Program.Heeds.rests hR.watch hg hleads hdown⟩
  | working hg => exact ⟨hfits, horigin ▸ Program.Heeds.rests hR.watch hg hleads hdown⟩
  | leaving hg => exact ⟨hfits, horigin ▸ Program.Heeds.rests hR.watch hg hleads hdown⟩

end Step

end Regime
end RowFlow
