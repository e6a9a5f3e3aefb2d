import RowFlow.Proofs.Copy.Watch
import RowFlow.Proofs.Program.Parts

/-
What a copy may still do once the flag is up.  A copy looks at the flag before it calls the
hook for work, before it searches for a row and before it sends one; between the look and
what follows it the flag may go up.  The slack of a copy says which of these looks it has
passed.  What is begun while the flag is known to be up is told apart from what was begun
before (`Errand.late`, `Errand.begun`, `Errand.barred`): there is no look to pass any more.

The flag itself is the drift of the watch: it may go up at any time by what others do.
-/
namespace RowFlow
namespace Stopping

inductive Fate where
  | fine
  | faulty (f : Fault)
  /-- The row that has failed was rejected. -/
  | routed
  | lost

def Fate.outcome : Fate → Outcome
  | fine => .stopped
  | routed => .stopped
  | _ => .failed

inductive Calling where
  | outside
  /-- The flag was seen down, so the hook for work may be called. -/
  | cleared
  | inside (hook : Hook)
  /-- The hook for work has come back, maybe with the flag up. -/
  | back (late : Bool) (fate : Fate)
  /-- The outcome of the work is settled. -/
  | closed

namespace Calling

def Inside : Calling → Prop
  | inside _ => True
  | _ => False

/-- The flag was looked at; inside of hooks this is their own affair. -/
def looks (stopped : Bool) : Calling → Calling
  | inside hook => inside hook
  | c => if stopped then c else cleared

def Admits : Calling → Hook → Prop
  | outside, .init => True
  | cleared, .process => True
  | outside, .dispose => True
  | closed, .dispose => True
  | _, _ => False

def after (down : Bool) : Hook → Except Fault Bool → Calling
  | .init, _ => outside
  | .process, .ok _ => back down .fine
  | .process, .error f => back down (.faulty f)
  | .dispose, _ => closed

/-- A row may be rejected, outside of hooks only the one for which the hook has failed. -/
def Rejects (row : Row) (d : Diagnostic) : Calling → Prop
  | inside _ => True
  | back _ fate => fate = .faulty (.rowFailed row d)
  | _ => False

def routes (ok : Bool) : Calling → Calling
  | back late _ => back late (if ok then .routed else .lost)
  | c => c

def Settles (e : Outcome) : Calling → Prop
  | outside => True
  | cleared => True
  | back late fate => late = true → e = fate.outcome
  | _ => False

def settled : Calling → Calling
  | outside => outside
  | _ => closed

end Calling

/-- What a copy is in the middle of, besides its hooks. -/
inductive Errand where
  | none
  /-- It searches for a row. -/
  | asked
  | took (row : Row)
  | dried
  /-- It has begun to ask for a row with the flag up. -/
  | late
  /-- It sends a row; it may have seen the flag down, has sent to these outlets, and has
  chosen a row set of one of them. -/
  | sending (cleared : Bool) (used : List Outlet) (aim : Option (Outlet × Nat))
  /-- It has seen the flag up while sending, or has begun to reject a row with the flag up. -/
  | barred
  /-- It has begun to put a row with the flag up. -/
  | begun
  /-- It has looked then whether its outputs have ended. -/
  | looked (ended : Bool)
  | skipped

namespace Errand

def Busy : Errand → Prop
  | sending _ _ _ => True
  | barred => True
  | _ => False

/-- Where anything may be done that has nothing to do with rows, hooks and the flag. -/
def Loose : Errand → Prop
  | none => True
  | e => e.Busy

theorem Busy.loose {e : Errand} (h : e.Busy) : e.Loose := by
  cases e <;> trivial

end Errand

structure Slack where
  /-- The flag is known to be up. -/
  down : Bool
  call : Calling
  errand : Errand

def Aside : Node → Prop
  | .receive => False
  | .deliver _ _ => False
  | .act (.mark _) => False
  | .act .isStopped => False
  | .act (.choose _) => False
  | .act (.settle _) => False
  | _ => True

open Errand in
inductive Slack.Next : Slack → Doing → Slack → Prop
  | aside {b : Bool} {c : Calling} {e : Errand} {d : Doing} (he : e.Loose) (hd : Aside d.node) :
      Next ⟨b, c, e⟩ d ⟨b, c, e⟩
  | look {b : Bool} {c : Calling} {v : Bool} (hv : b = true → v = true) :
      Next ⟨b, c, none⟩ (.act .isStopped v) ⟨b, c.looks v, none⟩
  | enter {b : Bool} {c : Calling} {hook : Hook} {v : Unit} (hc : c.Admits hook) :
      Next ⟨b, c, none⟩ (.act (.mark (.enter hook)) v) ⟨b, .inside hook, none⟩
  | exit {b : Bool} {hook : Hook} {r : Except Fault Bool} {v : Unit} :
      Next ⟨b, .inside hook, none⟩ (.act (.mark (.exit hook r)) v) ⟨b, .after b hook r, none⟩
  | settle {b : Bool} {c : Calling} {e : Outcome} {v : Unit} (hc : c.Settles e) :
      Next ⟨b, c, none⟩ (.act (.settle e) v) ⟨b, c.settled, none⟩
  | get {b : Bool} {c : Calling} {v : Unit} (hc : c.Inside) :
      Next ⟨b, c, none⟩ (.act (.mark .get) v) ⟨b, c, if b then late else asked⟩
  | take {b : Bool} {c : Calling} {row : Row} :
      Next ⟨b, c, asked⟩ (.took row) ⟨b, c, took row⟩
  | dry {b : Bool} {c : Calling} : Next ⟨b, c, asked⟩ .dry ⟨b, c, dried⟩
  | dryLate {b : Bool} {c : Calling} : Next ⟨b, c, late⟩ .dry ⟨b, c, dried⟩
  | got {b : Bool} {c : Calling} {row : Row} {v : Unit} :
      Next ⟨b, c, took row⟩ (.act (.mark (.got (some row))) v) ⟨b, c, none⟩
  | gotNone {b : Bool} {c : Calling} {v : Unit} :
      Next ⟨b, c, dried⟩ (.act (.mark (.got Option.none)) v) ⟨b, c, none⟩
  | put {b : Bool} {c : Calling} {row : Row} {v : Unit} (hc : c.Inside) :
      Next ⟨b, c, none⟩ (.act (.mark (.put row)) v)
        ⟨b, c, if b then begun else sending false [] Option.none⟩
  | putLooks {b : Bool} {c : Calling} {l : Local} :
      Next ⟨b, c, begun⟩ (.act .own l) ⟨b, c, looked l.outputDone⟩
  | putRefused {b : Bool} {c : Calling} {f : Fault} {v : Unit} :
      Next ⟨b, c, looked true⟩ (.act (.mark (.putDone (.error f))) v) ⟨b, c, none⟩
  | putSkips {b : Bool} {c : Calling} :
      Next ⟨b, c, looked false⟩ (.act .isStopped true) ⟨b, c, skipped⟩
  | putSkipped {b : Bool} {c : Calling} {v : Unit} :
      Next ⟨b, c, skipped⟩ (.act (.mark (.putDone (.ok ()))) v) ⟨b, c, none⟩
  | putDone {b : Bool} {c : Calling} {e : Errand} {r : Except Fault Unit} {v : Unit}
      (hc : c.Inside) (he : e.Busy) : Next ⟨b, c, e⟩ (.act (.mark (.putDone r)) v) ⟨b, c, none⟩
  | reject {b : Bool} {c : Calling} {row : Row} {d : Diagnostic} {v : Unit}
      (hc : c.Rejects row d) : Next ⟨b, c, none⟩ (.act (.mark (.reject row d)) v)
        ⟨b, c, if b then barred else sending false [] Option.none⟩
  | rejectDone {b : Bool} {c : Calling} {e : Errand} {r : Except Fault Unit} {v : Unit}
      (he : e.Busy) : Next ⟨b, c, e⟩ (.act (.mark (.rejectDone r)) v) ⟨b, c.routes r.isOk, none⟩
  | clear {c : Calling} {used : List Outlet} {aim : Option (Outlet × Nat)} :
      Next ⟨false, c, sending false used aim⟩ (.act .isStopped false)
        ⟨false, c, sending true used aim⟩
  | bar {b : Bool} {c : Calling} {used : List Outlet} {aim : Option (Outlet × Nat)} :
      Next ⟨b, c, sending false used aim⟩ (.act .isStopped true) ⟨b, c, barred⟩
  | barredLooks {b : Bool} {c : Calling} :
      Next ⟨b, c, barred⟩ (.act .isStopped true) ⟨b, c, barred⟩
  | choose {b : Bool} {c : Calling} {seen : Bool} {used : List Outlet} {outlet : Outlet}
      {v : Option Nat} (hnew : outlet ∉ used) :
      Next ⟨b, c, sending seen used Option.none⟩ (.act (.choose outlet) v)
        ⟨b, c, sending seen used (v.map (outlet, ·))⟩
  | barredChooses {b : Bool} {c : Calling} {outlet : Outlet} {v : Option Nat} :
      Next ⟨b, c, barred⟩ (.act (.choose outlet) v) ⟨b, c, barred⟩
  | deliver {b : Bool} {c : Calling} {used : List Outlet} {outlet : Outlet} {i : Nat} {row : Row}
      {r : Except Fault Delivery} :
      Next ⟨b, c, sending true used (some (outlet, i))⟩ (.delivered i row r)
        ⟨b, c, sending true (outlet :: used) Option.none⟩

theorem Slack.Next.down {x z : Slack} {d : Doing} (h : x.Next d z) : z.down = x.down := by
  cases h <;> rfl

def watch : Watch where
  State := Slack
  Next := Slack.Next
  Drift x y := y = x ∨ y = { x with down := true }
  Down x := x.down = true

theorem lawful_watch : watch.Lawful where
  refl x := .inl rfl
  trans x y z hxy hyz := by
    rcases hxy with rfl | rfl
    · exact hyz
    · rcases hyz with rfl | rfl
      · exact .inr rfl
      · exact .inr rfl
  right hn hl hx hz := by
    rw [show watch.Down _ = (_ = true) from rfl, Slack.Next.down hn] at hz
    exact (Shared.Le.control hl.shared_le).stopped (hx hz)

structure At (m : Bool) (c : Calling) (e : Errand) (x : Slack) : Prop where
  call : x.call = c
  errand : x.errand = e
  down : m = true → x.down = true

section At

variable {m : Bool} {c : Calling} {e : Errand} {x : Slack}

theorem at_mk (b : Bool) (c : Calling) (e : Errand) : At b c e ⟨b, c, e⟩ := ⟨rfl, rfl, id⟩

theorem lasts_at (m : Bool) (c : Calling) (e : Errand) : watch.Lasts (At m c e) := by
  rintro x y (rfl | rfl) h
  · exact h
  · exact ⟨h.call, h.errand, fun _ => rfl⟩

theorem At.exists_down (h : At m c e x) : ∃ b, (m = true → b = true) ∧ x = ⟨b, c, e⟩ := by
  obtain ⟨b, c', e'⟩ := x
  obtain ⟨rfl, rfl, hb⟩ := h
  exact ⟨b, hb, rfl⟩

theorem At.drift {y : Slack} (h : At m c e x) (hy : watch.Drift x y) :
    ∃ b, (m = true → b = true) ∧ y = ⟨b, c, e⟩ :=
  (lasts_at m c e x y hy h).exists_down

theorem At.of_le {m' : Bool} (h : At m c e x) (hm : m' = true → m = true) : At m' c e x :=
  ⟨h.call, h.errand, fun hm' => h.down (hm hm')⟩

open Program

variable {α β : Type} {o : Local} {a : Action} {Q : α → Slack → Prop} {R : β → Slack → Prop}

theorem At.heeds_act (hx : At m c e x) {f : a.Answer → Program β}
    (h : ∀ b, (m = true → b = true) → ∀ v, a.Tells o (b = true) v →
      ∃ z, Slack.Next ⟨b, c, e⟩ (.act a v) z ∧ (f v).Heeds watch o R z) :
    (perform a >>= f).Heeds watch o R x := by
  intro y hy v hv
  obtain ⟨b, hb, rfl⟩ := hx.drift hy
  exact h b hb v hv

theorem At.heeds_pure (hx : At m c e x) {a : α} (h : ∀ y, At m c e y → Q a y) :
    (pure a : Program α).Heeds watch o Q x :=
  fun y hy => h y (lasts_at _ _ _ _ _ hy hx)

theorem stays_aside (he : e.Loose) {p : Program α} (hp : p.Within Aside) :
    p.Stays watch o (At m c e) := by
  refine stays_within (lasts_at m c e) (fun d x hd hx => ?_) hp
  obtain ⟨b, hb, rfl⟩ := hx.exists_down
  exact ⟨_, .aside he hd, rfl, rfl, hb⟩

/-- A program that does not concern the watch, followed by another one. -/
theorem At.heeds_aside (hx : At m c e x) (he : e.Loose) {p : Program α} {f : α → Program β}
    (hp : p.Within Aside) (hf : ∀ a y, At m c e y → (f a).Heeds watch o R y) :
    (p >>= f).Heeds watch o R x :=
  (stays_aside he hp x hx).chain lawful_watch hf

end At

end Stopping
end RowFlow
