import RowFlow.Proofs.Run.Watch
import RowFlow.Proofs.Stopping.Programs

/-
How soon a request comes back that is begun with the flag up.  Nothing that it does has to
wait for others: to ask for a row in vain takes three moves of the copy, and to put a row
that goes nowhere takes four.
-/
namespace RowFlow

namespace Program

variable {α : Type} {p p' : Program α} {l l' : Local} {s s' : Shared} {deed : Option Deed}

theorem Goes.node? {d : Doing} (h : p.Goes l s (some d) deed p' l' s') :
    p.node? = some d.node := by
  cases h <;> rfl

end Program

namespace Copy

variable {c c' : Copy} {s s' : Shared} {deed : Option Deed} {m : Mark}

theorem Goes.node? {d : Doing} (h : c.Goes s (some d) deed c' s') : c.node? = some d.node := by
  cases h with
  | beginning h => exact h.node?
  | working h => exact h.node?
  | leaving h => exact h.node?

/-- A copy that is about to pass a mark does so at its next step. -/
theorem doing?_of_mark (h : c.node? = some (.act (.mark m))) (s : Shared) :
    c.doing? s = some (.act (.mark m) ()) := by
  have hprogram : ∀ {α : Type} (p : Program α) (l : Local), p.node? = some (.act (.mark m)) →
      p.doing? l s = some (.act (.mark m) ()) := by
    intro α p l hp
    cases p with
    | act a next =>
      cases hp
      rfl
    | _ => cases hp
  obtain ⟨op, own, task⟩ := c
  cases task with
  | beginning p => exact hprogram p own h
  | working p => exact hprogram p own h
  | leaving p => exact hprogram p own h
  | _ => cases h

theorem Waits.node?_of_mark (hw : c.Waits s c') (h : c.node? = some (.act (.mark m))) :
    c'.node? = some (.act (.mark m)) := by
  cases hw with
  | @cancelled _ _ t b => cases t <;> exact h
  | goes hg =>
    cases hg with
    | still => exact h
    | turn ht => cases ht <;> cases h
    | beginning hg | working hg | leaving hg =>
      cases hg with
      | done | again | wait | enter | search => cases h

end Copy

namespace Stopping

/-- With the flag up a request has begun, and there is one thing only to do next. -/
def Errand.Strict : Errand → Prop
  | late => True
  | dried => True
  | begun => True
  | looked _ => True
  | skipped => True
  | _ => False

theorem Errand.Strict.not_loose {e : Errand} (h : e.Strict) : ¬ e.Loose := by
  cases e with
  | late | dried | begun | looked _ | skipped => exact id
  | _ => exact absurd h id

section Strict

variable {x z : Slack} {s : Shared} {d : Doing}

theorem Slack.Next.node_of_strict (hn : x.Next d z) (hx : x.errand.Strict) :
    d.node ≠ .act .hold ∧ (∀ row, d ≠ .took row) ∧ ∀ i row r, d ≠ .delivered i row r := by
  cases hn with
  | aside he hd => exact absurd he (Errand.Strict.not_loose hx)
  | putDone hc he | rejectDone he => exact absurd he.loose (Errand.Strict.not_loose hx)
  | dryLate | gotNone | putLooks | putRefused | putSkips | putSkipped =>
    exact ⟨nofun, nofun, nofun⟩
  | _ => exact absurd hx id

theorem moves_of_strict {α : Type} {p : Program α} {l : Local} {Q : α → Slack → Prop}
    (h : p.Heeds watch l.origin Q x) (hQ : ∀ a y, Q a y → y.errand = .none)
    (hx : x.errand.Strict) (hdown : s.control.stopped = true) : p.doing? l s ≠ none := by
  have hrefl := lawful_watch.refl x
  cases p with
  | done a =>
    have hnone := hQ a x (h x hrefl)
    rw [hnone] at hx
    exact absurd hx id
  | act a next =>
    obtain ⟨v, hv⟩ := Program.exists_tells l (watch.Down x) a
    obtain ⟨z, hz, -⟩ := h x hrefl v hv
    have hhold := (Slack.Next.node_of_strict hz hx).1
    cases a with
    | hold => exact absurd rfl hhold
    | _ => exact Option.some_ne_none _
  | receive scan next =>
    cases scan with
    | start => simp [Program.doing?, hdown]
    | _ =>
      -- Where the search goes on it may find a row, which is not expected.
      obtain ⟨z, hz, -⟩ := (h x hrefl).2 (by simp) x hrefl ⟨⟨[]⟩, [], rfl⟩
      exact absurd rfl ((Slack.Next.node_of_strict hz hx).2.1 _)
  | deliver i row refused next =>
    obtain ⟨z, hz, -⟩ := h x hrefl (.ok .dropped)
    exact absurd rfl ((Slack.Next.node_of_strict hz hx).2.2 _ _ _)

theorem errand_of_seam (op : Operator) (o : Local) (t : Seam op) (h : seam op o t x) :
    x.errand = .none := by
  cases t with
  | idle m =>
    rcases h with h | ⟨_, _, _, h⟩ <;> exact h.errand
  | leaving m e =>
    obtain ⟨_, _, h⟩ := h
    exact h.errand
  | _ => exact At.errand h

/-- A copy that is bound to do one thing next can do it. -/
theorem exists_doing {c : Copy} (h : regime.Obeys c x) (hx : x.errand.Strict)
    (hdown : s.control.stopped = true) : c.doing? s ≠ none := by
  have hleads := h.leads
  have hout : ∀ t, ¬ seam c.op c.own.origin t x := fun t ht => by
    rw [errand_of_seam _ _ t ht] at hx
    exact hx
  obtain ⟨op, own, task⟩ := c
  cases task with
  | beginning p =>
    exact moves_of_strict hleads (fun _ _ => errand_of_seam op own.origin _) hx hdown
  | working p => exact moves_of_strict hleads (fun _ _ => errand_of_seam op own.origin _) hx hdown
  | leaving p =>
    exact moves_of_strict hleads (fun _ _ => errand_of_seam op own.origin .gone) hx hdown
  | created => exact absurd hleads (hout .created)
  | ready m => exact absurd hleads (hout (.ready m))
  | refused m f => exact absurd hleads (hout (.refused m))
  | gone => exact absurd hleads (hout .gone)

end Strict

/-- How far a copy has come that asks for a row with the flag up, by its moves. -/
inductive Asking : Nat → Slack → Copy → List Deed → Prop
  | poised {x : Slack} {c : Copy} (hx : x.down = true) (hc : c.node? = some (.act (.mark .get))) :
      Asking 0 x c []
  | late {call : Calling} {c : Copy} : Asking 1 ⟨true, call, .late⟩ c [.mark .get]
  | dried {call : Calling} {c : Copy} : Asking 2 ⟨true, call, .dried⟩ c [.mark .get]
  | done {n : Nat} {x : Slack} {c : Copy} {past : List Deed} (hn : 3 ≤ n)
      (h : [.mark (.got none), .mark .get] <:+ past) : Asking n x c past

inductive Putting (row : Row) : Nat → Slack → Copy → List Deed → Prop
  | poised {x : Slack} {c : Copy} (hx : x.down = true)
      (hc : c.node? = some (.act (.mark (.put row)))) (ho : c.own.outputDone = false) :
      Putting row 0 x c []
  | begun {call : Calling} {c : Copy} (ho : c.own.outputDone = false) :
      Putting row 1 ⟨true, call, .begun⟩ c [.mark (.put row)]
  | looked {call : Calling} {c : Copy} :
      Putting row 2 ⟨true, call, .looked false⟩ c [.mark (.put row)]
  | skipped {call : Calling} {c : Copy} :
      Putting row 3 ⟨true, call, .skipped⟩ c [.mark (.put row)]
  | done {n : Nat} {x : Slack} {c : Copy} {past : List Deed} (hn : 4 ≤ n)
      (h : [.mark (.putDone (.ok ())), .mark (.put row)] <:+ past) : Putting row n x c past

theorem Asking.told {n : Nat} {x : Slack} {c : Copy} {past : List Deed} (h : Asking n x c past)
    (hn : 3 ≤ n) : [.mark (.got none), .mark .get] <:+ past := by
  cases h with
  | done _ h => exact h
  | _ => exact absurd hn (by decide)

theorem Putting.told {row : Row} {n : Nat} {x : Slack} {c : Copy} {past : List Deed}
    (h : Putting row n x c past) (hn : 4 ≤ n) :
    [.mark (.putDone (.ok ())), .mark (.put row)] <:+ past := by
  cases h with
  | done _ h => exact h
  | _ => exact absurd hn (by decide)

section Moves

variable {n : Nat} {x z : Slack} {c c' : Copy} {past past' : List Deed} {s s' : Shared} {d : Doing}

theorem Asking.waits (h : Asking n x c past) (hw : c.Waits s c') : Asking n x c' past := by
  cases h with
  | poised hx hc => exact .poised hx (hw.node?_of_mark hc)
  | late => exact .late
  | dried => exact .dried
  | done hn h => exact .done hn h

theorem Asking.idle (hm : regime.Minds c s x) (h : Asking n x c past) (hd : c.doing? s = none) :
    Asking (n + 1) x c past := by
  cases h with
  | poised hx hc => rw [Copy.doing?_of_mark hc] at hd; cases hd
  | late | dried => exact absurd hd (exists_doing hm.obeys trivial (hm.right rfl))
  | done hn h => exact .done (Nat.le_succ_of_le hn) h

theorem Asking.does (h : Asking n x c past) (hd : c.doing? s = some d) (hn : x.Next d z)
    (hl : d.Leads ⟨past, c.own, s⟩ ⟨past', c'.own, s'⟩) : Asking (n + 1) z c' past' := by
  cases h with
  | poised hx hc =>
    rw [Copy.doing?_of_mark hc] at hd
    cases hd
    cases hn with
    | aside he hd => exact absurd hd id
    | @get b call =>
      obtain rfl : b = true := hx
      obtain ⟨-, rfl⟩ := hl.perform
      exact .late
  | late =>
    cases hn with
    | aside he hd => exact absurd he id
    | putDone hc he | rejectDone he => exact absurd he id
    | dryLate =>
      obtain rfl := hl.dried
      exact .dried
  | dried =>
    cases hn with
    | aside he hd => exact absurd he id
    | putDone hc he | rejectDone he => exact absurd he id
    | gotNone =>
      obtain ⟨-, rfl⟩ := hl.perform
      exact .done le_rfl (List.suffix_refl _)
  | done hn h => exact .done (Nat.le_succ_of_le hn) (h.trans hl.suffix)

theorem Putting.waits {row : Row} (h : Putting row n x c past) (hw : c.Waits s c') :
    Putting row n x c' past := by
  have hout : c'.own.outputDone = c.own.outputDone := by
    obtain ⟨_, _, _, hrests⟩ := hw.rests
    rw [hrests]
    rfl
  cases h with
  | poised hx hc ho => exact .poised hx (hw.node?_of_mark hc) (hout.trans ho)
  | begun ho => exact .begun (hout.trans ho)
  | looked => exact .looked
  | skipped => exact .skipped
  | done hn h => exact .done hn h

theorem Putting.idle {row : Row} (hm : regime.Minds c s x) (h : Putting row n x c past)
    (hd : c.doing? s = none) : Putting row (n + 1) x c past := by
  cases h with
  | poised hx hc ho =>
    rw [Copy.doing?_of_mark hc] at hd
    cases hd
  | begun ho => exact absurd hd (exists_doing hm.obeys trivial (hm.right rfl))
  | looked | skipped => exact absurd hd (exists_doing hm.obeys trivial (hm.right rfl))
  | done hn h => exact .done (Nat.le_succ_of_le hn) h

theorem Putting.does {row : Row} (h : Putting row n x c past) (hd : c.doing? s = some d)
    (hn : x.Next d z) (hl : d.Leads ⟨past, c.own, s⟩ ⟨past', c'.own, s'⟩) :
    Putting row (n + 1) z c' past' := by
  cases h with
  | poised hx hc ho =>
    rw [Copy.doing?_of_mark hc] at hd
    cases hd
    cases hn with
    | aside he hd => exact absurd hd id
    | @put b call =>
      obtain rfl : b = true := hx
      obtain ⟨hsame, rfl⟩ := hl.perform
      have hown : c.own = c'.own := congrArg (·.2.1) hsame
      exact .begun (hown ▸ ho)
  | begun ho =>
    cases hn with
    | aside he hd => exact absurd he id
    | putDone hc he | rejectDone he => exact absurd he id
    | @putLooks b call l =>
      obtain ⟨hsame, rfl⟩ := hl.perform
      have hown : c.own = l := Option.some.inj (congrArg (·.1) hsame)
      rw [← hown, ho]
      exact .looked
  | looked =>
    cases hn with
    | aside he hd => exact absurd he id
    | putDone hc he | rejectDone he => exact absurd he id
    | putSkips =>
      obtain ⟨-, rfl⟩ := hl.perform
      exact .skipped
  | skipped =>
    cases hn with
    | aside he hd => exact absurd he id
    | putDone hc he | rejectDone he => exact absurd he id
    | putSkipped =>
      obtain ⟨-, rfl⟩ := hl.perform
      exact .done le_rfl (List.suffix_refl _)
  | done hn h => exact .done (Nat.le_succ_of_le hn) (h.trans hl.suffix)

end Moves

end Stopping
end RowFlow
