import RowFlow.Proofs.Copy.Steady
import RowFlow.Proofs.Errors.Charge
import RowFlow.Proofs.Hooks.Order
import RowFlow.Proofs.Program.Effects
import RowFlow.Proofs.Run.Lives
import RowFlow.Proofs.Run.Watch

/-
The account of errors.  What the run has been told of and what its copies owe it is,
together, what they have counted; a step of a copy changes both sides alike, so this holds
at every moment (`Balanced`).  A copy that owes is just about to tell the run.

Where a copy stands, its errors have their grounds in the marks that it has passed and in
its outcome (`Tells`).  The counter of rejected rows is watched apart (`Rejects`), since
an operator may raise it without rejecting anything.
-/
namespace RowFlow

/-- Requests that leave the counter of rejected rows alone, but to reject rows. -/
def Request.LeavesRejected : Request → Prop
  | .add k _ => k ≠ .rejected
  | _ => True

def Mark.isRejection : Mark → Bool
  | rejectDone (.ok _) => true
  | _ => false

def Mark.isFailure (hook : Hook) : Mark → Bool
  | exit h (.error _) => decide (h = hook)
  | _ => false

def rejections (past : List Deed) : Nat := (marks past).countP Mark.isRejection

def failed (hook : Hook) (past : List Deed) : Bool := (marks past).any (Mark.isFailure hook)

section Leads

variable {d : Doing} {p q : Position}

theorem rejections_of_leads (h : d.Leads p q) :
    rejections q.past = rejections p.past + (d.mark?.toList.countP Mark.isRejection) := by
  rw [rejections, h.marks, List.countP_append, ← rejections]

theorem failed_of_leads (h : d.Leads p q) (hook : Hook) :
    failed hook q.past = (failed hook p.past || d.mark?.any (Mark.isFailure hook)) := by
  rw [failed, h.marks, List.any_append, ← failed]
  cases d.mark? <;> simp

end Leads

namespace Errors

structure Mute (d : Doing) : Prop where
  added : d.added .errors = 0
  amount : d.amount .errors = 0
  outcome : d.outcome? = none
  rejection : d.mark?.toList.countP Mark.isRejection = 0
  init : d.mark?.any (Mark.isFailure .init) = false
  dispose : d.mark?.any (Mark.isFailure .dispose) = false

theorem mute_of_free {d : Doing} (h : Free d.node) : Mute d := by
  cases d with
  | act a v =>
    cases a with
    | mark m =>
      cases m with
      | rejectDone r =>
        cases r with
        | ok u => exact absurd h id
        | error f => exact ⟨rfl, rfl, rfl, rfl, rfl, rfl⟩
      | exit hook r =>
        cases r with
        | ok b => exact ⟨rfl, rfl, rfl, rfl, rfl, rfl⟩
        | error f =>
          cases hook with
          | process => exact ⟨rfl, rfl, rfl, rfl, rfl, rfl⟩
          | _ => exact absurd h id
      | _ => exact ⟨rfl, rfl, rfl, rfl, rfl, rfl⟩
    | add k n =>
      cases k with
      | errors => exact absurd h id
      | _ => exact ⟨rfl, rfl, rfl, rfl, rfl, rfl⟩
    | countErrors n => exact absurd h id
    | settle o => exact absurd h id
    | _ => exact ⟨rfl, rfl, rfl, rfl, rfl, rfl⟩
  | _ => exact ⟨rfl, rfl, rfl, rfl, rfl, rfl⟩

/-- What the run has been told of is what the copies have counted, but for what is owing. -/
theorem Charge.Next.told {x z : Charge} {d : Doing} (h : x.Next d z) :
    d.added .errors + x.owing.toNat = d.amount .errors + z.owing.toNat := by
  cases h with
  | free h ho => rw [(mute_of_free h).added, (mute_of_free h).amount]
  | count ho => simp [Doing.added, Doing.amount, Doing.counted?, ho]
  | tell ho => simp [Doing.added, Doing.amount, Doing.counted?, ho]
  | _ => rfl

/-- What the charge of a copy has to do with what can be told of the copy. -/
structure Tells (x : Charge) (p : Position) : Prop where
  refused : x.refused = failed .init p.past
  faulted : x.faulted = failed .dispose p.past
  failed : x.failed = true ↔ p.own.outcome = some .failed ∧ x.refused = false
  errors : (p.own.counts.errors : Int) = rejections p.past + x.refused.toNat + x.failed.toNat +
    x.faulted.toNat + x.balance

theorem Tells.next {x z : Charge} {d : Doing} {p q : Position} (h : Tells x p) (hn : x.Next d z)
    (hl : d.Leads p q) : Tells z q := by
  have hcounts : q.own.counts.errors = p.own.counts.errors + d.added .errors := hl.counts .errors
  have hrejections := rejections_of_leads hl
  have hinit := failed_of_leads hl .init
  have hdispose := failed_of_leads hl .dispose
  have houtcome := hl.outcome
  obtain ⟨hrefused, hfaulted, hfailed, herrors⟩ := h
  cases hn with
  | free hfree ho =>
    obtain ⟨hadded, -, hsettled, hrejection, hi, hd⟩ := mute_of_free hfree
    simp only [hadded, hsettled, hrejection, hi, hd, Option.none_or, Bool.or_false, Nat.add_zero]
      at hcounts hrejections hinit hdispose houtcome
    exact ⟨by rw [hrefused, hinit], by rw [hfaulted, hdispose], by rw [hfailed, houtcome],
      by rw [hcounts, hrejections]; exact herrors⟩
  | settle ho he hf =>
    simp only [Doing.added, Doing.mark?, Doing.outcome?, Option.toList_none, List.countP_nil,
      Option.any_none, Bool.or_false, Nat.add_zero, Option.some_or]
      at hcounts hrejections hinit hdispose houtcome
    refine ⟨by rw [hrefused, hinit], by rw [hfaulted, hdispose], ?_,
      by rw [hcounts, hrejections]; exact herrors⟩
    rw [hf, houtcome]
    simpa using he
  -- Every other doing changes one term of the sum and the balance with it.
  | _ =>
    simp [Doing.added, Doing.mark?, Doing.outcome?, Mark.isRejection, Mark.isFailure]
      at hcounts hrejections hinit hdispose houtcome
    constructor <;> simp_all <;> omega

theorem Tells.rests {x : Charge} {p q : Position} (h : Tells x p) (hrests : p.own.Rests q.own)
    (hpast : q.past = p.past) : Tells x q := by
  obtain ⟨hrefused, hfaulted, hfailed, herrors⟩ := h
  constructor
  · rw [hpast]
    exact hrefused
  · rw [hpast]
    exact hfaulted
  · rw [hrests.outcome]
    exact hfailed
  · rw [hpast, hrests.counts]
    exact herrors

section Rejected

def Aside : Node → Prop
  | .act (.add .rejected _) => False
  | .act (.mark (.rejectDone (.ok _))) => False
  | _ => True

inductive Counted : Bool → Doing → Bool → Prop
  | aside {x : Bool} {d : Doing} (h : Aside d.node) : Counted x d x
  | count {v : Nat} : Counted false (.act (.add .rejected 1) v) true
  | done {u v : Unit} : Counted true (.act (.mark (.rejectDone (.ok u))) v) false

open Program

variable {o : Local}

theorem aside_fails {n : Node} (h : n.Fails) : Aside n := by
  cases h with
  | limit h => cases h <;> trivial
  | _ => trivial

theorem quiet_of_aside {d : Doing} (h : Aside d.node) :
    d.added .rejected = 0 ∧ d.mark?.toList.countP Mark.isRejection = 0 := by
  cases d with
  | act a v =>
    cases a with
    | mark m =>
      cases m with
      | rejectDone r =>
        cases r with
        | ok u => exact absurd h id
        | error f => exact ⟨rfl, rfl⟩
      | _ => exact ⟨rfl, rfl⟩
    | add k n =>
      cases k with
      | rejected => exact absurd h id
      | _ => exact ⟨rfl, rfl⟩
    | _ => exact ⟨rfl, rfl⟩
  | _ => exact ⟨rfl, rfl⟩

def counted : Watch := .plain Bool Counted fun _ => False

theorem lawful_counted : counted.Lawful := Watch.lawful_plain fun _ _ _ hd => hd.elim

theorem heeds_counted_rejectRow (row : Row) (d : Diagnostic) :
    (rejectRow row d).Heeds counted o (fun _ y => y = false) false := by
  have hskip : ∀ x d, Aside d.node → Counted x d x := fun x d h => .aside h
  have hfault : ∀ f : Fault, (pure (.error f) : Program (Except Fault Unit)).Heeds
      counted o (fun r y => (do perform (.mark (.rejectDone r)); pure r).Heeds
        counted o (fun _ y => y = false) y) false :=
    fun f => heeds_pure (heeds_skip (hskip _) lawful_counted (within_perform trivial) fun _ =>
      heeds_pure rfl)
  refine heeds_skip (hskip _) lawful_counted (within_perform trivial) fun _ =>
    .bind lawful_counted ?_
  refine heeds_skip (hskip _) lawful_counted (within_perform (a := .own) trivial) fun l => ?_
  split
  · exact hfault _
  · split
    · exact hfault _
    · next out _ =>
      refine heeds_skip (hskip _) lawful_counted
        (within_parts_sendError trivial trivial fun _ => trivial) fun r => ?_
      cases r with
      | error f => exact hfault f
      | ok u =>
        refine heeds_act fun v _ => ⟨true, .count, ?_⟩
        refine heeds_skip (hskip _) lawful_counted (within_fails fun _ => aside_fails) fun _ => ?_
        exact heeds_pure (heeds_act fun v _ => ⟨false, .done, heeds_pure rfl⟩)

theorem aside_outer {n : Node} (h : n.Outer) : Aside n := by
  cases h with
  | error h => exact aside_fails h
  | fails step h => cases h <;> trivial
  | _ => trivial

theorem aside_parts {q : Request} {n : Node} (hq : q.LeavesRejected)
    (hr : ∀ row d, q ≠ .rejectRow row d) (h : q.Parts n) : Aside n := by
  cases h with
  | error h => exact aside_fails h
  | add c n =>
    cases c with
    | rejected => exact absurd rfl hq
    | _ => trivial
  | putLimit row h | stop h | errorLimit k h | rowLimit k h => cases h <;> trivial
  | reject row d | rejectOwn row d | rejectLooks row d | rejectChooses row d | sends row d i out
  | rejects row d | rejectFails row d h | rejectDone row d r => exact absurd rfl (hr row d)
  | _ => trivial

theorem preserves_counted (o : Local) :
    counted.Preserves o Request.LeavesRejected (· = false) := by
  refine .of_parts (fun q => ∃ row d, q = .rejectRow row d) lawful_counted (Watch.lasts_plain _)
    (fun d x hd hx => ⟨x, .aside hd, hx⟩) (fun _ => aside_outer)
    (fun q n hq hr => aside_parts hq fun row d h => hr ⟨row, d, h⟩) ?_ (fun _ _ => trivial) trivial
  rintro _ ⟨row, d, rfl⟩ x rfl
  exact heeds_counted_rejectRow row d

/-- The counter of rejected rows against the rejections that have succeeded. -/
def Rejects (x : Bool) (p : Position) : Prop :=
  p.own.counts.rejected = rejections p.past + x.toNat

theorem Rejects.next {x z : Bool} {d : Doing} {p q : Position} (h : Rejects x p)
    (hn : Counted x d z) (hl : d.Leads p q) : Rejects z q := by
  have hcounts : q.own.counts.rejected = p.own.counts.rejected + d.added .rejected :=
    hl.counts .rejected
  rw [Rejects, hcounts, rejections_of_leads hl, h]
  cases hn with
  | aside hd =>
    obtain ⟨hadded, hmark⟩ := quiet_of_aside hd
    omega
  | count => simp [Doing.added, Doing.mark?]
  | done => simp [Doing.added, Doing.mark?, Mark.isRejection]

theorem Rejects.rests {x : Bool} {p q : Position} (h : Rejects x p) (hrests : p.own.Rests q.own)
    (hpast : q.past = p.past) : Rejects x q := by
  rw [Rejects, hpast, hrests.counts]
  exact h

end Rejected

/-- The run has not been told yet of the last error of the copy. -/
def IsTelling (c : Copy) : Prop := ∃ n, c.node? = some (.act (.countErrors n))

/-- The errors of a copy at its end: one for each row that was rejected, one if the hook for
the start has failed, one if the work has, and one if the hook for the end has. -/
structure Accounted (op : Operator) (past : List Deed) (s : StepResult) : Prop where
  errors : s.counts.errors = rejections past + (failed .init past).toNat +
    (s.outcome == some .failed && !failed .init past).toNat + (failed .dispose past).toNat
  rejected : op.Asks Request.LeavesRejected → s.counts.rejected = rejections past

open Run

variable {d : Definition} {registry : Registry} {config : Config} {plan : Plan} {r : Run}

/-- What the run has been told of and what is owing, together, is what its copies have
counted. -/
def Balanced (r : Run) (xs : List Charge) : Prop :=
  r.control.errors + (xs.map (·.owing.toNat)).sum = (r.net.copies.map (·.own.counts.errors)).sum

theorem balanced_pause {e : Event} {xs : List Charge} (h : Balanced r xs) (hp : r.Pauses e) :
    Balanced (r.happen e) xs := by
  have hsame := hp.map_own (f := fun l => l.counts.errors) fun l l' h => by rw [h.counts]
  rw [Balanced, show (r.happen e).control.errors = _ from hp.total .errors, hsame]
  exact h

theorem balanced_does {e : Event} {xs : List Charge} {place : Nat} {c c' : Copy} {d : Doing}
    {x z : Charge} (h : Balanced r xs) (hc : r.net.copies[place]? = some c)
    (hd : r.Does e place c d c') (hset : (r.happen e).net.copies = r.net.copies.set place c')
    (hx : xs[place]? = some x) (hn : x.Next d z) : Balanced (r.happen e) (xs.set place z) := by
  have hleads := hd.goes.leads []
  have hcounts : c'.own.counts.errors = c.own.counts.errors + d.added .errors :=
    hleads.counts .errors
  have herrors : (r.happen e).control.errors = r.control.errors + d.amount .errors :=
    hleads.total .errors
  have hcopies := sum_map_set (fun c : Copy => c.own.counts.errors) hc c'
  have howing := sum_map_set (fun x : Charge => x.owing.toNat) hx z
  have htold := hn.told
  simp only [Balanced] at h ⊢
  rw [hset, herrors]
  omega

/-- At every moment the run has been told of all errors but those that copies are about to
tell. -/
theorem exists_balanced (h : Made d registry config plan r)
    (hops : ∀ c ∈ r.net.copies, c.op.Asks Request.LeavesErrors) (events : List Event) :
    ∃ xs, regime.Watches (r.after events) xs ∧ Balanced (r.after events) xs := by
  have hwatches : regime.Watches r (r.net.copies.map fun _ => ({} : Charge)) :=
    h.watches (R := regime) (fun _ => {}) fun c hc => ⟨hops c hc, rfl, id⟩
  have hcounts : ∀ n ∈ r.net.copies.map (·.own.counts.errors), n = 0 := by
    intro n hn
    obtain ⟨c, hc, rfl⟩ := List.mem_map.mp hn
    obtain ⟨_, _, _, _, hfresh⟩ := h.own_fresh hc
    rw [hfresh]
    rfl
  have hbalanced : Balanced r (r.net.copies.map fun _ => ({} : Charge)) := by
    rw [Balanced, Run.control, h.shared, List.sum_eq_zero hcounts]
    simp [controlOf]
  refine hwatches.after lawful_regime (P := fun events xs => Balanced (r.after events) xs)
    (fun events e xs hb hp => ?_) (fun events e xs place c d c' x z hb _ hc hd hset hx hn => ?_)
    hbalanced events
  · rw [after_concat]
    exact balanced_pause hb hp
  · rw [after_concat]
    exact balanced_does hb hc hd hset hx hn

theorem owing_seam {op : Operator} {o : Local} {t : Seam op} {x : Charge}
    (h : regime.seam op o t x) : x.owing = false := by
  cases t with
  | gone => exact h.1
  | _ =>
    cases h
    rfl

/-- A copy whose charge is owing is about to tell the run. -/
theorem isTelling_of_owing {c : Copy} {x : Charge} (h : regime.Obeys c x) (hx : x.owing = true) :
    IsTelling c := by
  rcases h.exists_next lawful_regime with ⟨t, ht⟩ | ⟨d, z, hnode, hnext⟩
  · exact absurd (owing_seam ht) (by simp [hx])
  · cases hnext with
    | tell ho => exact ⟨1, hnode⟩
    | free h ho | count ho | reject ho | refuse ho hr hf | fault ho hf | fail ho hr hf
    | settle ho he hf => exact absurd hx (by simp [ho])

/-- As long as no copy is about to tell the run of an error the run knows of all. -/
theorem errors_of_balanced {xs : List Charge} (h : regime.Watches r xs) (hb : Balanced r xs)
    (hquiet : ∀ c ∈ r.net.copies, ¬ IsTelling c) :
    r.control.errors = (r.net.copies.map (·.own.counts.errors)).sum := by
  have hnone : (xs.map (·.owing.toNat)).sum = 0 := by
    refine h.sum_eq_zero (f := fun x : Charge => x.owing.toNat) fun c hc x hobeys => ?_
    cases howing : x.owing with
    | false => rfl
    | true => exact absurd (isTelling_of_owing hobeys howing) (hquiet c hc)
  rw [Balanced, hnone] at hb
  exact hb

theorem not_isTelling_of_gone {c : Copy} (h : c.kind = .gone) : ¬ IsTelling c := by
  rintro ⟨n, hn⟩
  obtain ⟨op, own, task⟩ := c
  cases task with
  | gone => cases hn
  | _ => cases h

theorem tells_after (h : Made d registry config plan r)
    (hops : ∀ c ∈ r.net.copies, c.op.Asks Request.LeavesErrors) (events : List Event)
    (place : Nat) : (r.record events).Minded regime Tells place := by
  refine Record.minded_after lawful_regime (fun x p q hx hrests hpast _ => hx.rests hrests hpast)
    (fun x d z p q hn hl hx => hx.next hn hl) (fun c hc => ?_) events
  have hmem := List.mem_of_getElem? hc
  refine ⟨({} : Charge), h.minds (R := regime) hmem (hops c hmem) rfl id, ?_⟩
  obtain ⟨info, inputs, outputs, errorOutput, hfresh⟩ := h.own_fresh hmem
  have hown : (Record.position { run := r } place c).own = .fresh info inputs outputs errorOutput :=
    hfresh
  constructor
  · rfl
  · rfl
  · simp [hown, Local.fresh]
  · rw [hown]
    rfl

def rejecting : Regime counted :=
  .steady _ Request.LeavesRejected fun _ => (· = false)

theorem lawful_rejecting : rejecting.Lawful :=
  Regime.lawful_steady lawful_counted preserves_counted

theorem rejects_after (h : Made d registry config plan r) {place : Nat} {c : Copy}
    (hc : r.net.copies[place]? = some c) (hop : c.op.Asks Request.LeavesRejected)
    (events : List Event) : (r.record events).Minded rejecting Rejects place := by
  refine Record.minded_after (F := Rejects) lawful_rejecting
    (fun x p q hx hrests hpast _ => Rejects.rests hx hrests hpast)
    (fun x d z p q hn hl hx => Rejects.next hx hn hl) (fun c' hc' => ?_) events
  obtain rfl := Option.some.inj (hc.symm.trans hc')
  have hmem := List.mem_of_getElem? hc
  refine ⟨false, h.minds (R := rejecting) hmem hop rfl id, ?_⟩
  obtain ⟨info, inputs, outputs, errorOutput, hfresh⟩ := h.own_fresh hmem
  have hown : (Record.position { run := r } place c).own = .fresh info inputs outputs errorOutput :=
    hfresh
  show Rejects false (Record.position { run := r } place c)
  rw [Rejects, hown]
  rfl

/-- What a copy that is gone has counted has its grounds in what can be told of it. -/
theorem errors_of_gone {c : Copy} {x : Charge} {p : Position} (h : regime.Obeys c x)
    (ht : Tells x p) (hgone : c.isGone = true) : p.own.counts.errors = rejections p.past +
      (failed .init p.past).toNat +
      (p.own.outcome == some .failed && !failed .init p.past).toNat +
      (failed .dispose p.past).toNat := by
  obtain ⟨op, own, task⟩ := c
  cases task with
  | gone =>
    obtain ⟨-, hbalance⟩ : x.Even := h.leads
    have hfailed : x.failed = (p.own.outcome == some .failed && !failed .init p.past) := by
      rw [Bool.eq_iff_iff, ht.failed, ht.refused]
      simp
    have herrors := ht.errors
    rw [hbalance, ht.refused, ht.faulted, hfailed] at herrors
    omega
  | _ => cases hgone

theorem rejected_of_gone {c : Copy} {x : Bool} {p : Position} (h : rejecting.Obeys c x)
    (hr : Rejects x p) (hgone : c.isGone = true) : p.own.counts.rejected = rejections p.past := by
  obtain ⟨op, own, task⟩ := c
  cases task with
  | gone =>
    obtain rfl : x = false := h.leads
    exact hr
  | _ => cases hgone

/-- The account of the errors of a run at its end. -/
structure Settled (t : Record) (res : RunResult) : Prop where
  total : res.errors = res.totals.errors
  steps : ∀ place c, t.run.net.copies[place]? = some c → ∃ s, res.steps[place]? = some s ∧
    s.step = c.own.info.name ∧ s.copy = c.own.info.copy ∧ Accounted c.op (t.past place) s

theorem settled_of_isOver (h : Made d registry config plan r)
    (hops : ∀ c ∈ r.net.copies, c.op.Asks Request.LeavesErrors) {events : List Event}
    (hover : (r.after events).IsOver)
    (htotal : (r.after events).control.errors =
      ((r.after events).net.copies.map (·.own.counts.errors)).sum) :
    Settled (r.record events) (r.after events).result := by
  have hrun : (r.record events).run = r.after events := Record.run_after _ events
  have hordered := (Hooks.kept_of_made h).after Hooks.lawful_agreement events
  refine ⟨?_, fun place c hc => ?_⟩
  · have hsum := Counts.get_sum ((r.after events).stepResults.map (·.counts)) .errors
    rw [stepResults, List.map_map, List.map_map] at hsum
    rw [result, RunResult.ofSteps, stepResults, List.map_map]
    exact htotal.trans hsum.symm
  · obtain ⟨x, hminds, htells⟩ := tells_after h hops events place c hc
    have hended := Hooks.ended_of_kept hordered (by rw [Record.run_after]; exact hover) hc
    rw [hrun] at hc
    have hgone : c.isGone = true := by
      rw [Copy.isGone_iff]
      exact (h.staged.after events).gone_of_isOver hover (List.mem_of_getElem? hc)
    obtain ⟨o, hstatus, hown⟩ := hended.outcome
    refine ⟨_, by rw [result, RunResult.ofSteps, stepResults, List.getElem?_map, hc]; rfl, rfl, rfl,
      ?_, fun hop => ?_⟩
    · have herrors := errors_of_gone hminds.obeys htells hgone
      have houtcome : (c.own.status.outcome.map (·.state) == some StepState.failed) =
          (c.own.outcome == some Outcome.failed) := by
        rw [hstatus, hown]
        cases o <;> rfl
      show c.own.counts.errors = _ + _ + (_ == _ && _).toNat + _
      rw [houtcome]
      exact herrors
    · obtain ⟨c₀, hc₀, hbecomes⟩ := becomes_after events hc
      rw [hbecomes.op] at hop
      obtain ⟨b, hb, hrejects⟩ := rejects_after h hc₀ hop events c (by rw [hrun]; exact hc)
      exact rejected_of_gone hb.obeys hrejects hgone

/-- A run of operators that leave the counts of errors to the context: whenever no copy is
about to tell the run of an error the run knows of all that its copies have counted, and at
the end each copy accounts for those that it has counted. -/
theorem accounted_await (h : make d registry config = .ok r)
    (hops : ∀ c ∈ r.net.copies, c.op.Asks Request.LeavesErrors) (events : List Event) :
    ((∀ c ∈ (r.after events).net.copies, ¬ IsTelling c) → (r.after events).control.errors =
      ((r.after events).net.copies.map (·.own.counts.errors)).sum) ∧
    ((r.after events).IsOver → ∃ res, (r.after events).await = (r.after events, .ok res) ∧
      Settled (r.record events) res) := by
  obtain ⟨plan, hmade⟩ := made_of_make h
  obtain ⟨xs, hwatches, hbalanced⟩ := exists_balanced hmade hops events
  have htotal := errors_of_balanced hwatches hbalanced
  refine ⟨htotal, fun hover => ⟨(r.after events).result, ?_, ?_⟩⟩
  · exact (hmade.staged.after events).await_of_isOver hover
  · refine settled_of_isOver hmade hops hover (htotal fun c hc => ?_)
    exact not_isTelling_of_gone ((hmade.staged.after events).gone_of_isOver hover hc)

/-- All rows are rejected, and the hook for the end fails. -/
def picky : Script where
  errorHandling := true
  scenes := [{ acts := [.getRow], ending := .rejectLast { message := "no", code := "E1" } }]
  dispose := { ending := .fault (.stepFailed "picky" "no") }
  repeats := true

def refusing : Definition where
  name := "refusing"
  steps := [
    { name := "numbers", plugin := Registry.sequenceKey, params := .ofList [("count", "2")] },
    { name := "picky", plugin := "picky" },
    { name := "rejects", plugin := Registry.passThroughKey }]
  hops := [{ source := "numbers", target := "picky" },
    { source := "picky", target := "rejects", kind := .error }]

def refusingRegistry : Registry := Registry.builtins.insert "picky" fun _ => .ok picky.operator

def refusingRun : Run :=
  ((make refusing refusingRegistry {}).toOption).getD
    { name := "", config := {}, net := { copies := [] } }

def refusingCourse : List Event :=
  .prepare :: (rounds 3 9 ++ [.chief, .start] ++ rounds 3 120 ++ [.finish])

theorem make_refusing : make refusing refusingRegistry {} = .ok refusingRun := rfl

theorem isOver_refusing : (refusingRun.after refusingCourse).IsOver := .inl (by decide +kernel)

theorem asks_picky : picky.operator.Asks Request.LeavesErrors := by
  refine picky.asks_operator trivial (fun _ => trivial) ?_
  have hget : ∀ last, (Script.perform last .getRow).Asks Request.LeavesErrors :=
    fun _ => ⟨trivial, fun _ => trivial⟩
  exact List.forall_mem_cons.mpr ⟨List.forall_mem_nil _, List.forall_mem_cons.mpr
    ⟨List.forall_mem_nil _, List.forall_mem_singleton.mpr (List.forall_mem_singleton.mpr hget)⟩⟩

theorem asks_refusing : ∀ c ∈ refusingRun.net.copies, c.op.Asks Request.LeavesErrors := by
  have hops : refusingRun.net.copies.map (·.op) =
    [Sequence.operator ⟨"id", 1, 2⟩, picky.operator, Operator.passThrough] := rfl
  have hall : ∀ op ∈ refusingRun.net.copies.map (·.op), op.Asks Request.LeavesErrors := by
    rw [hops]
    refine List.forall_mem_cons.mpr ⟨Sequence.asks_operator (fun _ => trivial) _,
      List.forall_mem_cons.mpr ⟨asks_picky, List.forall_mem_singleton.mpr ?_⟩⟩
    exact Operator.asks_passThrough trivial fun _ => trivial
  exact List.forall_mem_map.mp hall

theorem accounted_await_refusing :
    (∀ c ∈ refusingRun.net.copies, c.op.Asks Request.LeavesErrors) ∧
    (refusingRun.after refusingCourse).IsOver ∧
    (refusingRun.after refusingCourse).net.copies.map
      (fun c => (c.own.counts.errors, c.own.counts.rejected)) = [(0, 0), (3, 2), (0, 0)] ∧
    failed .dispose ((refusingRun.record refusingCourse).past 1) = true ∧ ∃ res,
      (refusingRun.after refusingCourse).await = (refusingRun.after refusingCourse, .ok res) ∧
        Settled (refusingRun.record refusingCourse) res :=
  ⟨asks_refusing, isOver_refusing, by decide +kernel, by decide +kernel,
    (accounted_await make_refusing asks_refusing refusingCourse).2 isOver_refusing⟩

end Errors
end RowFlow
