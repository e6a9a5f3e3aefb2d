import RowFlow.Proofs.Stopping.Waning

/-
How a copy ends whose hook for work has come back with the flag up.  There is no other call
of the hook, so what is left is the fault that it may have come back with: the row that has
failed may be rejected at once, and then the copy ends as stopped, or it fails.
-/
namespace RowFlow

/-- The last return from the hook for work, with what was done after it, the latest first. -/
def lastReturn : List Deed → Option (Except Fault Bool × List Deed)
  | [] => none
  | .mark (.exit .process r) :: _ => some (r, [])
  | d :: past => (lastReturn past).map fun (r, after) => (r, d :: after)

def Routed (f : Fault) (after : List Deed) : Prop :=
  ∃ row d, f = .rowFailed row d ∧
    [.mark (.rejectDone (.ok ())), .mark (.reject row d)] <:+ after

/-- The outcome of a stopped copy by the last return and what was done after it. -/
inductive Ruling : Except Fault Bool → List Deed → Outcome → Prop
  | fine (more : Bool) (after : List Deed) : Ruling (.ok more) after .stopped
  | routed {f : Fault} {after : List Deed} (h : Routed f after) : Ruling (.error f) after .stopped
  | failed {f : Fault} {after : List Deed} (h : ¬ Routed f after) :
      Ruling (.error f) after .failed

theorem lastReturn_cons {d : Deed} (hd : ∀ r, d ≠ .mark (.exit .process r)) (past : List Deed) :
    lastReturn (d :: past) = (lastReturn past).map fun (r, after) => (r, d :: after) := by
  rw [lastReturn]
  exact hd

/-- What follows something else than a rejection alone does not change the verdict. -/
theorem Ruling.cons {r : Except Fault Bool} {after : List Deed} {e : Outcome}
    (h : Ruling r after e) (hlone : ∀ row d, after ≠ [.mark (.reject row d)]) (d : Deed) :
    Ruling r (d :: after) e := by
  have hsame : ∀ f, Routed f (d :: after) ↔ Routed f after := by
    refine fun f => exists_congr fun row => exists_congr fun d => and_congr_right fun _ => ?_
    rw [List.suffix_cons_iff, or_iff_right]
    intro heq
    exact hlone row d (List.cons.inj heq).2.symm
  cases h with
  | fine more => exact .fine more _
  | routed h => exact .routed ((hsame _).mpr h)
  | failed h => exact .failed fun h' => h ((hsame _).mp h')

namespace Stopping

inductive Ruled (x : Slack) (outcome : Option Outcome) : Except Fault Bool → List Deed → Prop
  | fine {more : Bool} (hc : x.call = .back true .fine) (he : x.errand = .none) :
      Ruled x outcome (.ok more) []
  | faulty {f : Fault} (hc : x.call = .back true (.faulty f)) (he : x.errand = .none) :
      Ruled x outcome (.error f) []
  | rejecting {row : Row} {d : Diagnostic}
      (hc : x.call = .back true (.faulty (.rowFailed row d))) (he : x.errand = .barred) :
      Ruled x outcome (.error (.rowFailed row d)) [.mark (.reject row d)]
  | routed {row : Row} {d : Diagnostic} (hc : x.call = .back true .routed)
      (he : x.errand = .none) : Ruled x outcome (.error (.rowFailed row d))
        [.mark (.rejectDone (.ok ())), .mark (.reject row d)]
  | lost {row : Row} {d : Diagnostic} {f : Fault} (hc : x.call = .back true .lost)
      (he : x.errand = .none) : Ruled x outcome (.error (.rowFailed row d))
        [.mark (.rejectDone (.error f)), .mark (.reject row d)]
  | closed {r : Except Fault Bool} {after : List Deed} {e : Outcome} (hc : x.call = .closed)
      (he : x.errand = .none) (ho : outcome = some e) (hv : Ruling r after e)
      (hlone : ∀ row d, after ≠ [.mark (.reject row d)]) : Ruled x outcome r after
  /-- Of the hooks only the one for the end is called after that. -/
  | ending {r : Except Fault Bool} {after : List Deed} {e : Outcome}
      (hc : x.call = .inside .dispose) (ho : outcome = some e) (hv : Ruling r after e)
      (hsome : after ≠ []) (hlone : ∀ row d, after ≠ [.mark (.reject row d)]) :
      Ruled x outcome r after

def Rules (x : Slack) (p : Position) : Prop :=
  ∀ r after, lastReturn p.past = some (r, after) → Ruled x p.own.outcome r after

section Ruled

variable {x z : Slack} {o : Option Outcome} {r : Except Fault Bool} {after : List Deed}

theorem Ruled.same (h : Ruled x o r after) (hc : z.call = x.call) (he : z.errand = x.errand) :
    Ruled z o r after := by
  cases h with
  | fine hc' he' => exact .fine (hc.trans hc') (he.trans he')
  | faulty hc' he' => exact .faulty (hc.trans hc') (he.trans he')
  | rejecting hc' he' => exact .rejecting (hc.trans hc') (he.trans he')
  | routed hc' he' => exact .routed (hc.trans hc') (he.trans he')
  | lost hc' he' => exact .lost (hc.trans hc') (he.trans he')
  | closed hc' he' ho hv hlone => exact .closed (hc.trans hc') (he.trans he') ho hv hlone
  | ending hc' ho hv hsome hlone => exact .ending (hc.trans hc') ho hv hsome hlone

/-- A row is on its way, but it is not the one that is rejected for a fault. -/
def Errand.Foreign (e : Errand) : Prop := e ≠ .none ∧ e ≠ .barred

/-- In a hook, and with a row on its way, the copy is in the hook for the end. -/
theorem Ruled.ends (h : Ruled x o r after) (hx : x.call.Inside ∨ x.errand.Foreign) :
    x.call = .inside .dispose ∧ after ≠ [] ∧ (∃ e, o = some e ∧ Ruling r after e) ∧
      ∀ row d, after ≠ [.mark (.reject row d)] := by
  have hout : ∀ {c}, x.call = c → ¬ c.Inside → x.errand = .none ∨ x.errand = .barred → False := by
    rintro c rfl hc he
    rcases hx with hx | ⟨hnone, hbarred⟩
    · exact hc hx
    · exact he.elim hnone hbarred
  cases h with
  | rejecting hc he => exact (hout hc id (.inr he)).elim
  | ending hc ho hv hsome hlone => exact ⟨hc, hsome, ⟨_, ho, hv⟩, hlone⟩
  | fine hc he | faulty hc he | routed hc he | lost hc he | closed hc he _ _ _ =>
    exact (hout hc id (.inl he)).elim

section Steps

variable {b : Bool} {c : Calling} {e e' : Errand}

theorem Ruled.keeps (h : Ruled ⟨b, c, e⟩ o r after) (hx : c.Inside ∨ e.Foreign) :
    Ruled ⟨b, c, e'⟩ o r after := by
  obtain ⟨hcall, hsome, ⟨_, ho, hv⟩, hlone⟩ := h.ends hx
  exact .ending hcall ho hv hsome hlone

theorem Ruled.adds (h : Ruled ⟨b, c, e⟩ o r after) (hx : c.Inside ∨ e.Foreign) {d : Deed} :
    Ruled ⟨b, c, e'⟩ o r (d :: after) := by
  obtain ⟨hcall, hsome, ⟨_, ho, hv⟩, hlone⟩ := h.ends hx
  refine .ending hcall ho (hv.cons hlone d) (List.cons_ne_nil _ _) fun row d' heq => ?_
  exact hsome (List.cons.inj heq).2

/-- Only the hook for the end may be called. -/
theorem Ruled.enter {hook : Hook} (h : Ruled ⟨b, c, .none⟩ o r after) (hc : c.Admits hook) :
    Ruled ⟨b, .inside hook, .none⟩ o r (.mark (.enter hook) :: after) := by
  cases h with
  | closed hcall _ ho hv hlone =>
    obtain rfl : c = .closed := hcall
    cases hook with
    | dispose => exact .ending rfl ho (hv.cons hlone _) (by simp) (by simp)
    | _ => exact absurd hc id
  | rejecting _ he => cases he
  | fine hcall _ | faulty hcall _ | routed hcall _ | lost hcall _ | ending hcall _ _ _ _ =>
    obtain rfl : c = _ := hcall
    cases hook <;> exact absurd hc id

theorem Ruled.exit {hook : Hook} (h : Ruled ⟨b, .inside hook, .none⟩ o r after) (d : Deed) :
    hook = .dispose ∧ Ruled ⟨b, .closed, .none⟩ o r (d :: after) := by
  obtain ⟨hcall, hsome, ⟨e, ho, hv⟩, hlone⟩ := h.ends (.inl trivial)
  cases hcall
  exact ⟨rfl, .closed rfl rfl ho (hv.cons hlone _) fun _ _ heq => hsome (List.cons.inj heq).2⟩

theorem Ruled.settle {e : Outcome} (h : Ruled ⟨b, c, .none⟩ o r after) (hc : c.Settles e) :
    Ruled ⟨b, c.settled, .none⟩ (some e) r after := by
  cases h with
  | fine hcall _ =>
    obtain rfl : c = _ := hcall
    obtain rfl : e = .stopped := hc rfl
    exact .closed rfl rfl rfl (.fine _ _) (by simp)
  | faulty hcall _ =>
    obtain rfl : c = _ := hcall
    obtain rfl : e = .failed := hc rfl
    refine .closed rfl rfl rfl (.failed ?_) (by simp)
    rintro ⟨row, d, -, hsuffix⟩
    exact absurd hsuffix.length_le (by simp)
  | routed hcall _ =>
    obtain rfl : c = _ := hcall
    obtain rfl : e = .stopped := hc rfl
    exact .closed rfl rfl rfl (.routed ⟨_, _, rfl, List.suffix_refl _⟩) (by simp)
  | lost hcall _ =>
    obtain rfl : c = _ := hcall
    obtain rfl : e = .failed := hc rfl
    refine .closed rfl rfl rfl (.failed ?_) (by simp)
    rintro ⟨row, d, -, hsuffix⟩
    exact absurd (hsuffix.eq_of_length rfl) (by simp)
  | rejecting _ he => cases he
  | closed hcall _ _ _ _ | ending hcall _ _ _ _ =>
    obtain rfl : c = _ := hcall
    exact absurd hc id

theorem Ruled.reject {row : Row} {d : Diagnostic} (h : Ruled ⟨b, c, .none⟩ o r after)
    (hc : c.Rejects row d) :
    Ruled ⟨b, c, .barred⟩ o r (.mark (.reject row d) :: after) := by
  cases h with
  | faulty hcall _ =>
    obtain rfl : c = _ := hcall
    cases hc
    exact .rejecting rfl rfl
  | ending hcall ho hv hsome hlone =>
    obtain rfl : c = _ := hcall
    exact (Ruled.ending (x := ⟨b, .inside .dispose, .none⟩) rfl ho hv hsome hlone).adds
      (.inl trivial)
  | rejecting _ he => cases he
  | closed hcall _ _ _ _ =>
    obtain rfl : c = _ := hcall
    exact absurd hc id
  | fine hcall _ | routed hcall _ | lost hcall _ =>
    obtain rfl : c = _ := hcall
    cases hc

theorem Ruled.rejectDone {e : Errand} {result : Except Fault Unit} (he : e.Busy)
    (h : Ruled ⟨b, c, e⟩ o r after) :
    Ruled ⟨b, c.routes result.isOk, .none⟩ o r (.mark (.rejectDone result) :: after) := by
  have hidle : ∀ {P : Prop}, e = .none → P := fun hnone => by
    subst hnone
    exact absurd he id
  cases h with
  | rejecting hcall _ =>
    obtain rfl : c = _ := hcall
    cases result with
    | ok u => exact .routed rfl rfl
    | error f => exact .lost rfl rfl
  | ending hcall ho hv hsome hlone =>
    obtain rfl : c = _ := hcall
    exact (Ruled.ending (x := ⟨b, .inside .dispose, e⟩) rfl ho hv hsome hlone).adds
      (.inl trivial)
  | fine _ he' | faulty _ he' | routed _ he' | lost _ he' | closed _ he' _ _ _ => exact hidle he'

end Steps

end Ruled

section Rules

variable {x z : Slack} {d : Doing} {p q : Position}

theorem Rules.quiet (h : Rules x p) (hpast : q.past = p.past) (ho : q.own.outcome = p.own.outcome)
    (hz : ∀ o r after, Ruled x o r after → Ruled z o r after) : Rules z q := by
  intro r after hlast
  rw [hpast] at hlast
  rw [ho]
  exact hz _ _ _ (h r after hlast)

theorem Rules.cons (h : Rules x p) {d : Deed} (hpast : q.past = d :: p.past)
    (hd : ∀ r, d ≠ .mark (.exit .process r)) (ho : q.own.outcome = p.own.outcome)
    (hz : ∀ o r after, Ruled x o r after → Ruled z o r (d :: after)) : Rules z q := by
  intro r after hlast
  rw [hpast, lastReturn_cons hd] at hlast
  obtain ⟨⟨r', after'⟩, hlast', heq⟩ := Option.map_eq_some_iff.mp hlast
  cases heq
  rw [ho]
  exact hz _ _ _ (h _ _ hlast')

theorem outcome?_of_aside {d : Doing} (hd : Aside d.node) : d.outcome? = none := by
  cases d with
  | act a v =>
    cases a with
    | settle e => exact absurd hd id
    | _ => rfl
  | _ => rfl

variable (hn : x.Next d z) (hl : d.Leads p q) (hx : x.down = true)
include hn hl hx

theorem Rules.next (h : Rules x p) : Rules z q := by
  have ho := hl.outcome
  cases hn with
  | aside he hd =>
    refine h.quiet (past_of_aside hd hl) ?_ fun _ _ _ hr => hr
    rw [ho, outcome?_of_aside hd, Option.none_or]
  | @look b c v hv =>
    obtain rfl : v = true := hv hx
    have hsame : c.looks true = c := by cases c <;> rfl
    cases hl with
    | act _ => exact h.quiet rfl ho fun _ _ _ hr => hr.same hsame rfl
  | enter hc =>
    cases hl with
    | act _ => exact h.cons rfl nofun ho fun _ _ _ hr => hr.enter hc
  | @exit b hook r v =>
    obtain rfl : b = true := hx
    cases hl with
    | act _ =>
      cases hook with
      | process =>
        intro r' after hlast
        cases hlast
        cases r with
        | ok more => exact .fine rfl rfl
        | error f => exact .faulty rfl rfl
      | init =>
        exact h.cons rfl nofun ho fun _ _ _ hr => nomatch (hr.exit (.mark (.exit .init r))).1
      | dispose => exact h.cons rfl nofun ho fun _ _ _ hr => (hr.exit _).2
  | settle hc =>
    cases hl with
    | act _ =>
      intro r after hlast
      rw [ho]
      exact (h r after hlast).settle hc
  | @reject b c row d v hc =>
    obtain rfl : b = true := hx
    cases hl with
    | act _ => exact h.cons rfl nofun ho fun _ _ _ hr => hr.reject hc
  | rejectDone he =>
    cases hl with
    | act _ => exact h.cons rfl nofun ho fun _ _ _ hr => hr.rejectDone he
  | get hc | put hc | putDone hc he =>
    cases hl with
    | act _ => exact h.cons rfl nofun ho fun _ _ _ hr => hr.adds (.inl hc)
  | got | gotNone | putRefused | putSkipped =>
    cases hl with
    | act _ => exact h.cons rfl nofun ho fun _ _ _ hr => hr.adds (.inr ⟨nofun, nofun⟩)
  | barredLooks | barredChooses =>
    cases hl with
    | act _ => exact h.quiet rfl ho fun _ _ _ hr => hr.same rfl rfl
  | putLooks | putSkips | clear | bar | choose =>
    cases hl with
    | act _ => exact h.quiet rfl ho fun _ _ _ hr => hr.keeps (.inr ⟨nofun, nofun⟩)
  | take =>
    cases hl
    exact h.cons rfl nofun ho fun _ _ _ hr => hr.adds (.inr ⟨nofun, nofun⟩)
  | dry | dryLate =>
    cases hl
    exact h.quiet rfl ho fun _ _ _ hr => hr.keeps (.inr ⟨nofun, nofun⟩)
  | deliver =>
    cases hl with
    | gave _ => exact h.cons rfl nofun ho fun _ _ _ hr => hr.adds (.inr ⟨nofun, nofun⟩)
    | kept _ => exact h.quiet rfl ho fun _ _ _ hr => hr.keeps (.inr ⟨nofun, nofun⟩)

end Rules

end Stopping
end RowFlow
