import RowFlow.Proofs.Copy.Calls
import RowFlow.Proofs.Hooks.Stage
import RowFlow.Proofs.Run.Kept

/-
The order in which hooks are called and states are published, for every operator and in
whatever order things happen to a run.

The contract of a copy says at each seam of its life at which stage of the protocol it
stands and what it has published.  Hooks cannot change either, so it is enough to follow
the programs around them.  Before the run is started no copy has called the hook for
work, and once it is started no copy has failed to start; as all copies are on the same
side of the start, a failure to start and work never meet in one run.
-/
namespace RowFlow

/-- Which state may be published after another one. -/
def StepState.LeadsTo : StepState → StepState → Prop
  | created, s => s = initialized ∨ s = failed
  | initialized, s => s = running ∨ s = stopped
  | running, s => s = finished ∨ s = stopped ∨ s = failed
  | finished, s => s = disposed
  | stopped, s => s = disposed
  | failed, s => s = disposed
  | disposed, _ => False

theorem Outcome.leadsTo_state (o : Outcome) : StepState.running.LeadsTo o.state := by
  cases o <;> simp [StepState.LeadsTo, state]

theorem Outcome.state_leadsTo (o : Outcome) : o.state.LeadsTo .disposed := by
  cases o <;> rfl

namespace Hooks

open Program

/-- Marks that fit to a copy which is at work, or is not. -/
def Fits (atWork : Bool) (m : Mark) : Prop :=
  match atWork with
  | true => ∀ f, m ≠ .exit .init (.error f)
  | false => m ≠ .enter .process

def Calm (atWork : Bool) (past : List Deed) : Prop := ∀ m, .mark m ∈ past → Fits atWork m

theorem fits_of_inner {atWork : Bool} {m : Mark} (hm : m.Inner) : Fits atWork m := by
  cases atWork
  · intro h
    subst h
    exact hm
  · intro f h
    subst h
    exact hm

/-- Where a copy stands in the protocol, and what it has published and settled. -/
structure Stands (atWork : Bool) (st : Stage) (status : Status) (outcome : Option Outcome)
    (p : Position) : Prop where
  stage : Stage.stage? p.past = some st
  calm : Calm atWork p.past
  status : p.own.status = status
  outcome : p.own.outcome = outcome

variable {W : Shared → Prop} {atWork : Bool} {st st' : Stage} {status : Status}
  {outcome : Option Outcome} {p q : Position}

theorem stands_stable : Stable W (Stands atWork st status outcome) := by
  intro p q hd _ h
  obtain ⟨b, hb⟩ := hd.own
  refine ⟨?_, ?_, ?_, ?_⟩
  · rw [hd.past]
    exact h.stage
  · rw [hd.past]
    exact h.calm
  · rw [hb]
    exact h.status
  · rw [hb]
    exact h.outcome

theorem Stands.marked (h : Stands atWork st status outcome p) {m : Mark}
    (hm : st.next? m = some st') (hfits : Fits atWork m) :
    Stands atWork st' status outcome (p.marked m) where
  stage := by
    show Stage.stage? (.mark m :: p.past) = some st'
    rw [Stage.stage?_cons, h.stage]
    exact hm
  calm m' hm' := by
    rcases List.mem_cons.mp hm' with heq | hm'
    · cases heq
      exact hfits
    · exact h.calm m' hm'
  status := h.status
  outcome := h.outcome

/-- Nothing a hook asks for leads out of it. -/
theorem Stands.inside {hook : Hook} (h : Stands atWork (.inside hook) status outcome p)
    (hi : p.Inside q) : Stands atWork (.inside hook) status outcome q := by
  obtain ⟨deeds, hdeeds, hpast⟩ := hi.past
  refine ⟨?_, ?_, ?_, ?_⟩
  · rw [hpast]
    clear hpast
    induction deeds with
    | nil => exact h.stage
    | cons d deeds ih =>
      have hrest := ih fun d hd => hdeeds d (List.mem_cons_of_mem _ hd)
      rw [List.cons_append, Stage.stage?_cons, hrest]
      have hd := hdeeds d List.mem_cons_self
      cases d with
      | mark m => exact Stage.next?_inside hd
      | take _ _ => rfl
      | give _ _ => rfl
  · rw [hpast]
    intro m hm
    rcases List.mem_append.mp hm with hm | hm
    · exact fits_of_inner (hdeeds _ hm)
    · exact h.calm m hm
  · rw [Local.status_of_core hi.core]
    exact h.status
  · rw [Local.outcome_of_core hi.core]
    exact h.outcome

def Silent : Node → Prop
  | .act (.mark _) => False
  | .act (.settle _) => False
  | .act (.publish _) => False
  | _ => True

theorem silent_of_plain {n : Node} (h : n.Plain) : Silent n := by
  cases n with
  | act a => cases a <;> trivial
  | _ => trivial

theorem Stands.silent (h : Stands atWork st status outcome p) {n : Node} (hn : Silent n)
    (hl : n.Leads p q) : Stands atWork st status outcome q := by
  have more : ∀ (d : Deed) (q : Position), d.mark? = none → q.past = d :: p.past →
      q.own.status = p.own.status → q.own.outcome = p.own.outcome →
      Stands atWork st status outcome q := by
    intro d q hd hpast hs ho
    refine ⟨?_, ?_, hs.trans h.status, ho.trans h.outcome⟩
    · rw [hpast, Stage.stage?_cons, hd]
      exact h.stage
    · intro m hm
      rw [hpast] at hm
      rcases List.mem_cons.mp hm with rfl | hm
      · cases hd
      · exact h.calm m hm
  cases hl with
  | @act a p x l s ha =>
    cases a with
    | mark m => exact absurd hn id
    | settle o => exact absurd hn id
    | publish s => exact absurd hn id
    | choose o =>
      simp only [Action.perform, Prod.mk.injEq] at ha
      obtain ⟨-, rfl, -⟩ := ha
      cases o <;> exact ⟨h.stage, h.calm, h.status, h.outcome⟩
    | _ =>
      simp only [Action.perform, Prod.mk.injEq] at ha
      obtain ⟨-, rfl, -⟩ := ha
      exact ⟨h.stage, h.calm, h.status, h.outcome⟩
  | pass => exact ⟨h.stage, h.calm, h.status, h.outcome⟩
  | drop _ => exact ⟨h.stage, h.calm, h.status, h.outcome⟩
  | take _ _ => exact more _ _ rfl rfl rfl rfl
  | give _ => exact more _ _ rfl rfl rfl rfl

def Allowed (atWork : Bool) (st : Stage) (status : Status) (outcome : Option Outcome) :
    Node → Prop
  | .act (.mark m) => (∃ st', st.next? m = some st') ∧ Fits atWork m
  | .act (.settle _) => outcome = none
  | .act (.publish s) => status.state.LeadsTo s ∧ ∀ o, s.outcome? = some o → outcome = some o
  | _ => True

/-- What was published of the outcome is what was settled. -/
def Agrees (status : Status) (outcome : Option Outcome) : Prop :=
  ∀ o, status.outcome = some o → outcome = some o

theorem agrees_none (state : StepState) (outcome : Option Outcome) :
    Agrees ⟨state, none⟩ outcome := fun _ h => by cases h

theorem agrees_some (state : StepState) (o : Outcome) : Agrees ⟨state, some o⟩ (some o) :=
  fun _ h => h

def guard (atWork : Bool) (n : Node) (p : Position) : Prop :=
  ∃ st status outcome, Stands atWork st status outcome p ∧ Agrees status outcome ∧
    Allowed atWork st status outcome n

theorem Stands.guard (h : Stands atWork st status outcome p) (ha : Agrees status outcome)
    {n : Node} (hn : Allowed atWork st status outcome n) : guard atWork n p :=
  ⟨st, status, outcome, h, ha, hn⟩

theorem allowed_of_silent {n : Node} (hn : Silent n) : Allowed atWork st status outcome n := by
  cases n with
  | act a => cases a <;> trivial
  | _ => trivial

/-- Actions that the protocol is not about do not move a copy in it. -/
theorem keeps_silent {α : Type} {r : Program α} (hr : r.Within Silent)
    (h : Stands atWork st status outcome p) (ha : Agrees status outcome) :
    r.Keeps W (guard atWork) (fun _ => Stands atWork st status outcome) p :=
  (hr.keeps stands_stable (fun _ _ _ hn _ hs hl => hs.silent hn hl) h).mono
    (fun _ _ _ hg => hg.2.guard ha (allowed_of_silent hg.1)) fun _ _ _ hs => hs

section Call

variable {σ α : Type} {hook : Hook} {more : α → Bool} {body : Behaviour (σ × Ending α)}

/-- Whatever a hook does, it comes back, and then its result says where the copy stands. -/
theorem keeps_hook (h : Stands atWork st status outcome p) (ha : Agrees status outcome)
    (henter : st.next? (.enter hook) = some (.inside hook)) (hfits : Fits atWork (.enter hook))
    (hexit : ∀ r, Fits atWork (.exit hook r)) :
    (call hook more body).Keeps W (guard atWork) (fun a => Stands atWork
      (Stage.afterExit hook (a.2.map more)) status outcome) p := by
  refine keeps_call (B := fun _ => Stands atWork (.inside hook) status outcome) stands_stable h
    (fun _ => stands_stable) (fun _ => stands_stable) ?_ ?_ ?_
  · intro q _ hq
    have hin : Stands atWork (.inside hook) status outcome (q.marked (.enter hook)) :=
      hq.marked henter hfits
    refine ⟨hq.guard ha ⟨⟨_, henter⟩, hfits⟩, ?_⟩
    refine (keeps_inside (q.marked (.enter hook)) body).mono ?_ fun _ _ _ hi => hin.inside hi
    rintro n q' - ⟨hn, hi⟩
    refine (hin.inside hi).guard ha ?_
    cases n with
    | act a =>
      cases a with
      | mark m => exact ⟨⟨_, Stage.next?_inside hn⟩, fits_of_inner hn⟩
      | settle o => exact absurd hn id
      | publish s => exact absurd hn id
      | _ => trivial
    | _ => trivial
  · intro _ q _ hq
    exact hq.guard ha trivial
  · intro m e q step _ hq
    have hnext : (Stage.inside hook).next? (.exit hook ((resultOf step e).map more)) =
        some (Stage.afterExit hook ((resultOf step e).map more)) := by
      simp [Stage.next?]
    exact ⟨hq.guard ha ⟨⟨_, hnext⟩, hexit _⟩, hq.marked hnext (hexit _)⟩

end Call

theorem fits_enter_init : Fits atWork (.enter .init) := by
  cases atWork <;> simp [Fits]

theorem fits_enter_dispose : Fits atWork (.enter .dispose) := by
  cases atWork <;> simp [Fits]

theorem fits_exit {hook : Hook} (h : hook ≠ .init) (r : Except Fault Bool) :
    Fits atWork (.exit hook r) := by
  cases atWork <;> simp [Fits, h]

def Ends (st : Stage) : Prop := st.next? (.enter .dispose) = some (.inside .dispose)

theorem ends_idle : Ends .idle := rfl

theorem ends_spent : Ends .spent := rfl

theorem ends_afterExit (r : Except Fault Bool) : Ends (Stage.afterExit .process r) := by
  match r with
  | .ok true => rfl
  | .ok false => rfl
  | .error f => cases f <;> rfl

theorem keeps_dispose {o : Outcome} {op : Operator} {m : op.State} (hst : Ends st)
    (h : Stands atWork st ⟨o.state, some o⟩ (some o) p) :
    (dispose op m).Keeps W (guard atWork)
      (fun _ => Stands atWork .closed ⟨.disposed, some o⟩ (some o)) p := by
  have ha : Agrees ⟨o.state, some o⟩ (some o) := agrees_some _ o
  have hclosed : ∀ r, Stage.afterExit .dispose r = .closed := fun r => by cases r <;> rfl
  unfold dispose callDispose
  refine (keeps_hook h ha hst fits_enter_dispose (fits_exit (by simp))).chain ?_
  rintro ⟨_, r⟩ q _ hq
  rw [hclosed] at hq
  have hpublish : ∀ q, Stands atWork .closed ⟨o.state, some o⟩ (some o) q →
      (perform (.publish .disposed)).Keeps W (guard atWork)
        (fun _ => Stands atWork .closed ⟨.disposed, some o⟩ (some o)) q := by
    intro q hq
    refine keeps_act stands_stable hq fun q' _ hq' => ⟨hq'.guard ha ?_, fun q'' hd hw => ?_⟩
    · exact ⟨o.state_leadsTo, fun _ h => by cases h⟩
    · refine stands_stable _ q'' hd hw ⟨hq'.stage, hq'.calm, ?_, hq'.outcome⟩
      show q'.own.status.set .disposed = _
      rw [hq'.status]
      rfl
  cases r with
  | ok _ => exact hpublish q hq
  | error f =>
    exact (keeps_silent (within_addError.mono fun _ h => silent_of_plain h.plain) hq ha).chain
      fun _ q' _ hq' => hpublish q' hq'

theorem within_detachAll (places : List Nat) : (detachAll places).Within Silent := by
  induction places with
  | nil => exact within_pure _
  | cons i rest ih => exact (within_perform (a := .detach i) trivial).bind fun _ => ih

theorem within_detachInputs : detachInputs.Within Silent :=
  (within_perform (a := .own) trivial).bind fun l => (within_detachAll l.inputs).bind fun _ =>
    within_perform (a := .leaveInputs) trivial

/-- A copy between its start and its end, before it has published an outcome. -/
def made (p : Position) : Prop := p.past = [] ∧ p.own.status = {} ∧ p.own.outcome = none

theorem made_stable : Stable W made := by
  intro p q hd _ h
  obtain ⟨b, hb⟩ := hd.own
  refine ⟨hd.past.trans h.1, ?_, ?_⟩
  · rw [hb]
    exact h.2.1
  · rw [hb]
    exact h.2.2

theorem stands_of_made (h : made p) : Stands false .fresh {} none p where
  stage := by
    rw [h.1]
    rfl
  calm m hm := by
    rw [h.1] at hm
    cases hm
  status := h.2.1
  outcome := h.2.2

/-- After an action that settles or publishes something. -/
theorem Stands.settled (h : Stands atWork st status outcome p) (o : Outcome) :
    Stands atWork st status (some o) { p with own := { p.own with outcome := some o } } :=
  ⟨h.stage, h.calm, h.status, rfl⟩

theorem Stands.published (h : Stands atWork st status outcome p) (s : StepState) :
    Stands atWork st (status.set s) outcome
      { p with own := { p.own with status := p.own.status.set s } } :=
  ⟨h.stage, h.calm, by rw [← h.status], h.outcome⟩

def contract (op : Operator) : Contract W op where
  guard := guard
  made := made
  ready _ := Stands false .idle ⟨.initialized, none⟩ none
  refused _ := Stands false .spent ⟨.failed, some .failed⟩ (some .failed)
  idle _ := Stands true .idle ⟨.running, none⟩ none
  leaving _ _ p := ∃ st, Ends st ∧ Stands true st ⟨.running, none⟩ none p
  gone atWork p := ∃ o, Stands atWork .closed ⟨.disposed, some o⟩ (some o) p

variable {op : Operator}

theorem keeps_begin (h : made p) :
    (begin op op.start).Keeps W (guard false) (contract op : Contract W op).begun p := by
  have ha : ∀ state, Agrees ⟨state, none⟩ none := fun state => agrees_none state none
  refine keeps_act stands_stable (stands_of_made h) fun q _ hq => ⟨hq.guard (ha _) trivial, ?_⟩
  have hstart :=
    hq.silent (n := .act (.allowErrors op.capabilities.errorHandling)) trivial (.act rfl)
  refine (keeps_hook hstart (ha _) rfl fits_enter_init fun r => by simp [Fits]).chain ?_
  rintro ⟨m, r⟩ q _ hq
  cases r with
  | ok _ =>
    refine keeps_act stands_stable hq fun q _ hq => ⟨hq.guard (ha _) ?_, fun q' hd hw => ?_⟩
    · exact ⟨.inl rfl, fun _ h => by cases h⟩
    · exact stands_stable _ q' hd hw (hq.published .initialized)
  | error f =>
    refine (keeps_silent (within_addError.mono fun _ h => silent_of_plain h.plain) hq
      (ha _)).chain fun _ q _ hq => ?_
    refine keeps_act stands_stable hq fun q _ hq => ⟨hq.guard (ha _) rfl, ?_⟩
    refine keeps_act stands_stable (hq.settled .failed) fun q _ hq =>
      ⟨hq.guard (agrees_none _ _) ⟨.inr rfl, fun o h => h⟩, ?_⟩
    refine keeps_act stands_stable (hq.published .failed) fun q _ hq =>
      ⟨hq.guard (agrees_some _ _) trivial, fun q' hd hw => stands_stable _ q' hd hw hq⟩

def Turned : Turn → Position → Prop
  | .again, p => Stands true .idle ⟨.running, none⟩ none p
  | .leave _, p => ∃ st, Ends st ∧ Stands true st ⟨.running, none⟩ none p

theorem turned_stable (t : Turn) : Stable W (Turned t) := by
  cases t with
  | again => exact stands_stable
  | leave o =>
    rintro p q hd hw ⟨st, hst, h⟩
    exact ⟨st, hst, stands_stable p q hd hw h⟩

theorem keeps_failStep (hst : Ends st) (h : Stands true st ⟨.running, none⟩ none p) :
    failStep.Keeps W (guard true) Turned p := by
  have ha : Agrees ⟨.running, none⟩ none := agrees_none _ _
  refine (keeps_silent (within_addError.mono fun _ h => silent_of_plain h.plain) h ha).chain
    fun _ q _ hq => ?_
  refine keeps_act stands_stable hq fun q _ hq => ⟨hq.guard ha trivial, ?_⟩
  refine (keeps_silent ((within_stop _).mono fun _ h => silent_of_plain h.plain) hq ha).chain
    fun _ q _ hq => ?_
  exact fun q' hd hw => turned_stable _ q q' hd hw ⟨st, hst, hq⟩

theorem within_sendError_silent (row : Row) (d : Diagnostic) (l : Local) :
    (if !l.errorHandling then return .error (.errorHandlingDisabled l.info.name) else
      match errorRow row d with
      | .error f => return .error f
      | .ok out => do
        match ← sendError out with
        | .error f => return .error f
        | .ok () =>
          let _ ← perform (.add .rejected 1)
          addError
          return .ok () : Program (Except Fault Unit)).Within Silent := by
  split
  · exact within_pure _
  · split
    · exact within_pure _
    · refine ((within_sendError _).mono fun _ h => silent_of_plain h.plain).bind fun r => ?_
      cases r with
      | error f => exact within_pure _
      | ok _ =>
        exact (within_perform (a := .add .rejected 1) trivial).bind fun _ =>
          (within_addError.mono fun _ h => silent_of_plain h.plain).bind fun _ => within_pure _

/-- The row of a failure is routed to the error output, or not. -/
theorem keeps_rejectRow {row : Row} {d : Diagnostic}
    (h : Stands true (.faulted row d) ⟨.running, none⟩ none p) :
    (rejectRow row d).Keeps W (guard true) (fun r => Stands true
      (match r with
        | .ok _ => .idle
        | .error _ => .spent) ⟨.running, none⟩ none) p := by
  have ha : Agrees ⟨.running, none⟩ none := agrees_none _ _
  have hreject : (Stage.faulted row d).next? (.reject row d) = some .routing := by
    simp [Stage.next?]
  have hfits : ∀ m : Mark, m.Inner → Fits true m := fun m hm => fits_of_inner hm
  refine keeps_act stands_stable h fun q _ hq =>
    ⟨hq.guard ha ⟨⟨_, hreject⟩, hfits _ trivial⟩, ?_⟩
  refine keeps_bind (keeps_act stands_stable (hq.marked hreject (hfits _ trivial)) fun q _ hq =>
    ⟨hq.guard ha trivial, ?_⟩)
  refine (keeps_silent (within_sendError_silent row d _) hq ha).imp ?_
  intro r q _ hq
  have hdone : (Stage.routing).next? (.rejectDone r) =
      some (match r with
        | .ok _ => .idle
        | .error _ => .spent) := by cases r <;> rfl
  refine keeps_act stands_stable hq fun q _ hq =>
    ⟨hq.guard ha ⟨⟨_, hdone⟩, hfits _ trivial⟩, fun q' hd hw => ?_⟩
  exact stands_stable _ q' hd hw (hq.marked hdone (hfits _ trivial))

theorem keeps_afterFault {f : Fault}
    (h : Stands true (Stage.afterExit .process (.error f)) ⟨.running, none⟩ none p) :
    (afterFault f).Keeps W (guard true) Turned p := by
  refine keeps_act stands_stable h fun q _ hq => ⟨hq.guard (agrees_none _ _) trivial, ?_⟩
  rw [Action.then_own]
  split
  · next row d _ =>
    refine (keeps_rejectRow hq).chain ?_
    intro r q _ hq
    cases r with
    | ok _ => exact fun q' hd hw => turned_stable _ q q' hd hw hq
    | error f => exact keeps_failStep ends_spent hq
  · exact keeps_failStep (ends_afterExit _) hq

theorem keeps_round {m : op.State} (h : Stands true .idle ⟨.running, none⟩ none p) :
    (round op m).Keeps W (guard true) (contract op : Contract W op).turned p := by
  have ha : Agrees ⟨.running, none⟩ none := agrees_none _ _
  have hturned : ∀ (m : op.State) t q q', Position.Drift q q' → W q'.shared → Turned t q →
      (contract op : Contract W op).turned (m, t) q' := by
    intro m t q q' hd hw ht
    cases t with
    | again => exact turned_stable .again q q' hd hw ht
    | leave o => exact turned_stable (.leave o) q q' hd hw ht
  refine keeps_act stands_stable h fun q _ hq => ⟨hq.guard ha trivial, ?_⟩
  rw [Action.then_isStopped]
  split
  · exact fun q' hd hw => hturned m (.leave .stopped) q q' hd hw ⟨_, ends_idle, hq⟩
  · refine (keeps_hook hq ha rfl (by simp [Fits]) (fits_exit (by simp))).chain ?_
    rintro ⟨m, r⟩ q _ hq
    match r with
    | .ok true => exact fun q' hd hw => hturned m .again q q' hd hw hq
    | .ok false =>
      refine keeps_act stands_stable hq fun q _ hq => ⟨hq.guard ha trivial, ?_⟩
      exact fun q' hd hw => hturned m (.leave _) q q' hd hw ⟨_, ends_spent, hq⟩
    | .error f =>
      refine (keeps_afterFault hq).chain ?_
      exact fun t q _ ht q' hd hw => hturned m t q q' hd hw ht

theorem keeps_leave {m : op.State} {o : Outcome} (hst : Ends st)
    (h : Stands true st ⟨.running, none⟩ none p) :
    (leave op m o).Keeps W (guard true) (fun _ => (contract op : Contract W op).gone true) p := by
  have ha : Agrees ⟨.running, none⟩ none := agrees_none _ _
  refine (keeps_silent (within_endOutput.mono fun _ h => silent_of_plain h.plain) h ha).chain
    fun _ q _ hq => ?_
  refine (keeps_silent within_detachInputs hq ha).chain fun _ q _ hq => ?_
  refine keeps_act stands_stable hq fun q _ hq => ⟨hq.guard ha rfl, ?_⟩
  refine keeps_act stands_stable (hq.settled o) fun q _ hq =>
    ⟨hq.guard (agrees_none _ _) ⟨o.leadsTo_state, ?_⟩, ?_⟩
  · intro o' ho'
    rw [StepState.outcome?_eq_some_iff.mpr rfl] at ho'
    exact ho'
  · have hset : (⟨.running, none⟩ : Status).set o.state = ⟨o.state, some o⟩ := by
      cases o <;> rfl
    have hq' := hq.published o.state
    rw [hset] at hq'
    exact (keeps_dispose hst hq').imp fun _ q' _ hgone => ⟨o, hgone⟩

/-- The end of a copy that is given up, once its outcome is published. -/
theorem keeps_giveUp {m : op.State} {o : Outcome} (hst : Ends st)
    (h : Stands false st ⟨o.state, some o⟩ (some o) p) :
    (do endOutput; dispose op m).Keeps W (guard false)
      (fun _ => (contract op : Contract W op).gone false) p := by
  refine (keeps_silent (within_endOutput.mono fun _ h => silent_of_plain h.plain) h
    (agrees_some _ o)).chain fun _ q _ hq => ?_
  exact (keeps_dispose hst hq).imp fun _ q' _ hgone => ⟨o, hgone⟩

theorem keeps_abandon {m : op.State}
    (h : (contract op : Contract W op).ready m p ∨ (contract op : Contract W op).refused m p) :
    (abandon op m).Keeps W (guard false) (fun _ => (contract op : Contract W op).gone false) p := by
  rcases h with h | h
  · refine keeps_act stands_stable h fun q _ hq => ⟨hq.guard (agrees_none _ _) trivial, ?_⟩
    rw [Action.then_own, if_pos (by rw [hq.status])]
    refine keeps_act stands_stable hq fun q _ hq => ⟨hq.guard (agrees_none _ _) rfl, ?_⟩
    refine keeps_act stands_stable (hq.settled .stopped) fun q _ hq =>
      ⟨hq.guard (agrees_none _ _) ⟨.inr rfl, fun o ho => ho⟩, ?_⟩
    exact keeps_giveUp (o := .stopped) ends_idle (hq.published .stopped)
  · refine keeps_act stands_stable h fun q _ hq => ⟨hq.guard (agrees_some _ _) trivial, ?_⟩
    rw [Action.then_own, if_neg (by rw [hq.status]; simp)]
    exact keeps_giveUp (o := .failed) ends_spent hq

theorem lawful_contract (op : Operator) : (contract op : Contract W op).Lawful where
  made := made_stable
  ready _ := stands_stable
  refused _ := stands_stable
  gone atWork := by
    rintro p q hd hw ⟨o, h⟩
    exact ⟨o, stands_stable p q hd hw h⟩
  begin _ _ h := keeps_begin h
  start m p _ h := by
    have hcalm : Calm true p.past := by
      intro m hm f hf
      subst hf
      exact Stage.isSpent_of_failed h.stage hm
    have h' : Stands true .idle ⟨.initialized, none⟩ none p :=
      ⟨h.stage, hcalm, h.status, h.outcome⟩
    refine ⟨h'.guard (agrees_none _ _) ⟨.inl rfl, fun o ho => by cases ho⟩, ?_⟩
    exact h'.published .running
  idle _ := stands_stable
  round _ _ _ h := keeps_round h
  leave _ _ _ _ h := keeps_leave h.choose_spec.1 h.choose_spec.2
  abandon _ _ _ h := keeps_abandon h

end Hooks
end RowFlow
