import RowFlow.Proofs.Copy.Calls
import RowFlow.Proofs.Operators
import RowFlow.Proofs.Run.Made

/-
What copies owe those they are joined to.  A copy gives up an input only when nothing
can come from it any more.  When it says that it is done with its outputs it has closed
them all, and when it is gone it has left all its inputs.  It waits for space only in
row sets that it writes to.  So whoever waits for a copy waits for one that is not gone.
-/
namespace RowFlow
namespace Progress

open Program

structure Reads (p : Position) : Prop where
  pending : ∀ i ∈ p.own.pending, i ∈ p.own.inputs
  rest : ∀ i ∈ p.own.inputs, i ∈ p.own.pending ∨ p.shared.IsDone i ∨ p.shared.IsDetached i

structure Active (p : Position) : Prop where
  state : p.own.status.state ≠ .disposed
  reads : Reads p

def Closed (p : Position) : Prop := ∀ i ∈ p.own.outlets, p.shared.IsClosed i

def Left (p : Position) : Prop := ∀ i ∈ p.own.inputs, p.shared.IsDetached i

structure Tidy (p : Position) : Prop where
  active : Active p
  closed : p.own.outputDone = true → Closed p

/-- In a calm run nobody waits for its work to be cancelled. -/
def guard (calm : Prop) (_ : Bool) (n : Node) (p : Position) : Prop :=
  Active p ∧ (calm → n ≠ .act .hold) ∧ ∀ i row, n = .deliver i row → i ∈ p.own.outlets

variable {W : Shared → Prop} {calm : Prop} {atWork : Bool} {p q : Position}

theorem Closed.later (h : Closed p) (hl : p.Later q) : Closed q := by
  intro i hi
  rw [Local.outlets_of_origin hl.origin] at hi
  exact (h i hi).later hl.shared

theorem Left.later (h : Left p) (hl : p.Later q) : Left q := by
  intro i hi
  rw [Local.inputs_of_origin hl.origin] at hi
  exact (h i hi).later hl.shared

theorem Reads.later (h : Reads p) (hl : p.Later q) (hp : q.own.pending = p.own.pending) :
    Reads q := by
  have hin := Local.inputs_of_origin hl.origin
  constructor
  · rw [hp, hin]
    exact h.pending
  · rw [hp, hin]
    intro i hi
    exact (h.rest i hi).imp id (Or.imp (·.later hl.shared) (·.later hl.shared))

theorem Active.later (h : Active p) (hl : p.Later q) (hp : q.own.pending = p.own.pending)
    (hs : q.own.status.state ≠ .disposed) : Active q :=
  ⟨hs, h.reads.later hl hp⟩

theorem Tidy.later (h : Tidy p) (hl : p.Later q) (hp : q.own.pending = p.own.pending)
    (hs : q.own.status.state ≠ .disposed) (hd : q.own.outputDone = p.own.outputDone) : Tidy q :=
  ⟨h.active.later hl hp hs, fun hdone => (h.closed (hd ▸ hdone)).later hl⟩

/-- An input that has ended is given up. -/
theorem Reads.drop (h : Reads p)
    (hd : ∀ i, p.own.pending[p.own.place]? = some i → (p.shared.poll i).2 = .done) :
    Reads { p with own := p.own.drop } where
  pending i hi := h.pending i (List.mem_of_mem_eraseIdx hi)
  rest i hi := by
    rcases h.rest i hi with hmem | hrest
    · obtain ⟨k, hk⟩ := List.mem_iff_getElem?.mp hmem
      by_cases hplace : k = p.own.place
      · rw [hplace] at hk
        exact .inr (.inl (Shared.isDone_of_poll (hd i hk)))
      · exact .inl (List.mem_eraseIdx_iff_getElem?.mpr ⟨k, hplace, hk⟩)
    · exact .inr hrest

theorem later_of_drift (hd : p.Drift q) : p.Later q := by
  obtain ⟨b, hb⟩ := hd.own
  refine ⟨?_, hd.shared⟩
  rw [hb]
  rfl

theorem active_stable : Stable W Active := by
  intro p q hd _ h
  obtain ⟨b, hb⟩ := hd.own
  refine h.later (later_of_drift hd) (by rw [hb]) ?_
  rw [hb]
  exact h.state

theorem tidy_stable : Stable W Tidy := by
  intro p q hd _ h
  obtain ⟨b, hb⟩ := hd.own
  refine h.later (later_of_drift hd) (by rw [hb]) ?_ (by rw [hb])
  rw [hb]
  exact h.active.state

theorem tidy_fresh (info : StepInfo) (inputs : List Nat) (outputs : List Branch)
    (errorOutput : Option Branch) (past : List Deed) (s : Shared) :
    Tidy ⟨past, .fresh info inputs outputs errorOutput, s⟩ := by
  refine ⟨⟨by simp [Local.fresh], ⟨fun _ hi => hi, fun _ hi => .inl hi⟩⟩, fun hdone => ?_⟩
  cases hdone

def Still (calm : Prop) : Node → Prop
  | .act .hold => ¬ calm
  | .act .endOutput => False
  | .act .leaveInputs => False
  | .act (.publish .disposed) => False
  | .deliver _ _ => False
  | _ => True

theorem later_of_leads {n : Node} (hl : n.Leads p q) : p.Later q := ⟨hl.origin, hl.shared_le⟩

theorem Tidy.leads (h : Tidy p) {n : Node} (hn : Still calm n) (hl : n.Leads p q) : Tidy q := by
  have hlater := later_of_leads hl
  cases hl with
  | @act a p x l s ha =>
    cases a with
    | publish state =>
      cases ha
      refine h.later hlater rfl ?_ rfl
      show state ≠ .disposed
      intro hstate
      subst hstate
      exact hn
    | choose o =>
      simp only [Action.perform, Prod.mk.injEq] at ha
      obtain ⟨-, rfl, -⟩ := ha
      cases o <;> exact h.later hlater rfl h.active.state rfl
    | endOutput => exact absurd hn id
    | leaveInputs => exact absurd hn id
    | _ =>
      simp only [Action.perform, Prod.mk.injEq] at ha
      obtain ⟨-, rfl, -⟩ := ha
      exact h.later hlater rfl h.active.state rfl
  | pass => exact h.later hlater rfl h.active.state rfl
  | drop hd =>
    exact ⟨⟨h.active.state, h.active.reads.drop hd⟩, fun hdone => (h.closed hdone).later hlater⟩
  | take _ _ => exact h.later hlater rfl h.active.state rfl
  | give _ => exact absurd hn id

theorem steady_still {α : Type} {r : Program α} (hr : r.Within (Still calm)) :
    r.Steady W (guard calm atWork) Tidy := by
  intro p hp
  refine (hr.keeps tidy_stable (fun _ _ _ hn _ h hl => h.leads hn hl) hp).mono ?_ fun _ _ _ h => h
  rintro n q - ⟨hn, hq⟩
  refine ⟨hq.active, ?_, ?_⟩
  · intro hcalm h
    subst h
    exact hn hcalm
  · intro i row h
    subst h
    exact absurd hn id

theorem steady_signal {α : Type} {r : Program α} (hr : r.Within Node.Signal) :
    r.Steady W (guard calm atWork) Tidy := by
  refine steady_still (hr.mono fun n hn => ?_)
  cases n with
  | act a => cases a <;> trivial
  | _ => exact absurd hn id

theorem steady_act {a : Action} (h : Still calm (.act a)) :
    (perform a).Steady W (guard calm atWork) Tidy :=
  steady_still (within_perform h)

theorem guard_of_still (h : Active p) {n : Node} (hn : Still calm n) : guard calm atWork n p := by
  refine ⟨h, ?_, ?_⟩
  · intro hcalm heq
    subst heq
    exact hn hcalm
  · intro i row heq
    subst heq
    exact absurd hn id

/-- The row set whose turn it is at an outlet is one that the copy writes to. -/
theorem mem_outlets_of_choose {l : Local} {o : Outlet} {i : Nat} (h : (l.choose o).2 = some i) :
    i ∈ l.outlets := by
  obtain ⟨b, hb, hi⟩ := Option.bind_eq_some_iff.mp h
  have hmem : b ∈ l.outputs ++ l.errorOutput.toList := by
    cases o with
    | output place => exact List.mem_append_left _ (List.mem_of_getElem? hb)
    | error =>
      refine List.mem_append_right _ ?_
      rw [show l.errorOutput = some b from hb]
      exact List.mem_singleton_self b
  exact List.mem_flatMap.mpr ⟨b, hmem, List.mem_of_getElem? hi⟩

theorem steady_deliver {α : Type} {i : Nat} {row : Row} {refused : Bool}
    {next : Except Fault Delivery → Program α}
    (h : Tidy p ∧ i ∈ p.own.outlets) (hnext : ∀ r, (next r).Steady W (guard calm atWork) Tidy) :
    (deliver i row refused next).Keeps W (guard calm atWork) (fun _ => Tidy) p := by
  intro q hd hw
  have hq := tidy_stable p q hd hw h.1
  have hi : i ∈ q.own.outlets := by
    rw [Local.outlets_of_origin (later_of_drift hd).origin]
    exact h.2
  have hgive : ∀ s, q.shared ≤ s → Tidy ⟨.give i row :: q.past, q.own, s⟩ :=
    fun s hle => hq.later ⟨rfl, hle⟩ rfl hq.active.state rfl
  exact {
    guard := ⟨hq.active, by simp, fun i' row' heq => by cases heq; exact hi⟩
    accepted := fun _ => hnext _ _ (hgive _ (q.shared.le_offer i row))
    discarded := fun _ => hnext _ _ hq
    refused := fun f _ => hnext _ _ hq
    dropped := fun _ => hnext _ _ hq }

theorem keeps_choose {α : Type} {o : Outlet} {f : Option Nat → Program α} (h : Tidy p)
    (hnone : (f none).Steady W (guard calm atWork) Tidy)
    (hsome : ∀ i q, Tidy q ∧ i ∈ q.own.outlets → (f (some i)).Keeps W (guard calm atWork)
      (fun _ => Tidy) q) :
    (perform (.choose o) >>= f).Keeps W (guard calm atWork) (fun _ => Tidy) p := by
  refine keeps_act tidy_stable h fun q _ hq => ⟨guard_of_still hq.active trivial, ?_⟩
  have hstill : Still calm (.act (.choose o)) := trivial
  have hlater := hq.leads hstill (.act rfl)
  show Keeps W _ _ (f (q.own.choose o).2) _
  cases hi : (q.own.choose o).2 with
  | none => exact hnone _ hlater
  | some i =>
    refine hsome i _ ⟨hlater, ?_⟩
    have horigin := (Node.Leads.act (a := .choose o) (p := q) rfl).origin
    rw [Local.outlets_of_origin horigin]
    exact mem_outlets_of_choose hi

theorem steady_sendTo (o : Outlet) (row : Row) :
    (sendTo o row).Steady W (guard calm atWork) Tidy := by
  intro p hp
  refine keeps_choose hp (steady_pure tidy_stable _) fun i q hq => ?_
  exact steady_deliver hq fun r => steady_pure tidy_stable _

theorem steady_sendError (row : Row) : (sendError row).Steady W (guard calm atWork) Tidy := by
  intro p hp
  refine keeps_choose hp (steady_pure tidy_stable _) fun i q hq => ?_
  have hstable : Stable W fun p => Tidy p ∧ i ∈ p.own.outlets := by
    intro p q hd hw h
    refine ⟨tidy_stable p q hd hw h.1, ?_⟩
    rw [Local.outlets_of_origin (later_of_drift hd).origin]
    exact h.2
  refine keeps_act hstable hq fun q _ hq => ⟨guard_of_still hq.1.active trivial, ?_⟩
  rw [Action.then_isStopped]
  split
  · exact steady_pure tidy_stable _ _ hq.1
  · exact steady_deliver hq fun r => steady_pure tidy_stable _

theorem isClosed_close (s : Shared) (i : Nat) : (s.close i).1.IsClosed i := by
  intro rs hrs
  unfold Shared.close at hrs
  split at hrs
  · next h => rw [h] at hrs; cases hrs
  · next rs₀ h =>
    have hlt := (List.getElem?_eq_some_iff.mp h).1
    simp only [List.getElem?_set_self hlt, Option.some.injEq] at hrs
    subst hrs
    unfold RowSet.close
    split
    · assumption
    · rfl

theorem isDetached_detach (s : Shared) (i : Nat) : (s.detach i).IsDetached i := by
  intro rs hrs
  simp only [Shared.detach, List.getElem?_modify_eq, Option.map_eq_map] at hrs
  obtain ⟨rs₀, -, rfl⟩ := Option.map_eq_some_iff.mp hrs
  rfl

/-- The places are those that are not closed yet. -/
theorem keeps_closeAll (places : List Nat) (h : Active p)
    (hrest : ∀ i ∈ p.own.outlets, i ∈ places ∨ p.shared.IsClosed i) :
    (closeAll places).Keeps W (guard calm atWork) (fun _ q => Active q ∧ Closed q) p := by
  induction places generalizing p with
  | nil =>
    intro q hd hw
    have hclosed : Closed p := fun i hi => (hrest i hi).resolve_left List.not_mem_nil
    exact ⟨active_stable p q hd hw h, hclosed.later (later_of_drift hd)⟩
  | cons i rest ih =>
    refine keeps_perform fun q hd hw => ?_
    have hq := active_stable p q hd hw h
    have hlater : q.Later ⟨q.past, q.own, (q.shared.close i).1⟩ := ⟨rfl, q.shared.le_close i⟩
    refine ⟨guard_of_still hq trivial, ih (hq.later hlater rfl hq.state) ?_⟩
    intro j hj
    have hj' : j ∈ p.own.outlets := by
      rw [← Local.outlets_of_origin (later_of_drift hd).origin]
      exact hj
    rcases hrest j hj' with hmem | hclosed
    · rcases List.mem_cons.mp hmem with rfl | hmem
      · exact .inr (isClosed_close q.shared j)
      · exact .inl hmem
    · exact .inr (hclosed.later (le_trans hd.shared (q.shared.le_close i)))

theorem keeps_endOutput (h : Tidy p) :
    endOutput.Keeps W (guard calm atWork) (fun _ q => Tidy q ∧ Closed q) p := by
  refine keeps_act tidy_stable h fun q _ hq => ⟨guard_of_still hq.active trivial, ?_⟩
  rw [Action.then_own]
  split
  · next hdone =>
    intro q' hd hw
    exact ⟨tidy_stable q q' hd hw hq, (hq.closed hdone).later (later_of_drift hd)⟩
  · refine keeps_perform fun q' hd hw => ?_
    have hq' := tidy_stable q q' hd hw hq
    have hdone : Active ⟨q'.past, { q'.own with outputDone := true }, q'.shared⟩ :=
      hq'.active.later ⟨rfl, le_refl _⟩ rfl hq'.active.state
    refine ⟨⟨hq'.active, by simp, by simp⟩, ?_⟩
    refine (keeps_closeAll q.own.outlets hdone fun i hi => .inl ?_).imp
      fun _ _ _ hq => ⟨⟨hq.1, fun _ => hq.2⟩, hq.2⟩
    rw [← Local.outlets_of_origin (later_of_drift hd).origin]
    exact hi

theorem survives_tidy : Survives W (guard calm atWork) Tidy where
  stable := tidy_stable
  get := steady_act trivial
  got _ := steady_act trivial
  put _ := steady_act trivial
  putDone _ := steady_act trivial
  reject _ _ := steady_act trivial
  rejectDone _ := steady_act trivial
  own := steady_act trivial
  isStopped := steady_act trivial
  add _ _ := steady_act trivial
  note _ := steady_act trivial
  receive := steady_still ⟨trivial, fun _ => trivial⟩
  sendTo _ row := steady_sendTo _ row
  sendError row := steady_sendError row
  addOneError := steady_signal (within_addRunErrors 1)
  recordOneRow := steady_signal (within_recordSourceRows 1)
  endOutput := fun _ hp => (keeps_endOutput hp).imp fun _ _ _ hq => hq.1

theorem steady_request {q : Request} (hq : calm → q ≠ .hold) :
    q.program.Steady W (guard calm atWork) Tidy := by
  refine survives_tidy.request fun _ => ?_
  cases q with
  | stop r => exact steady_signal (within_stop r)
  | addRunErrors n => exact steady_signal (within_addRunErrors n)
  | recordSourceRows n => exact steady_signal (within_recordSourceRows n)
  | hold => exact steady_act fun hcalm => hq hcalm rfl
  | _ => contradiction

theorem steady_call {σ α : Type} {hook : Hook} {more : α → Bool}
    {body : Behaviour (σ × Ending α)} (hbody : body.Asks fun q => calm → q ≠ .hold) :
    (call hook more body).Steady W (guard calm atWork) Tidy := by
  have hstep : ∀ (m : Mark) (q : Position), Tidy q → Tidy (q.marked m) :=
    fun _ q h => h.later ⟨rfl, le_refl q.shared⟩ rfl h.active.state rfl
  intro p hp
  refine keeps_call (B := fun _ => Tidy) tidy_stable hp (fun _ => tidy_stable)
    (fun _ => tidy_stable) ?_ ?_ ?_
  · exact fun q _ hq => ⟨guard_of_still hq.active trivial,
      steady_behaviour tidy_stable (fun _ => steady_request) hbody _ (hstep _ q hq)⟩
  · exact fun _ q _ hq => guard_of_still hq.active trivial
  · exact fun m e q step _ hq => ⟨guard_of_still hq.active trivial, hstep _ q hq⟩

/-- The places are those that are not left yet. -/
theorem keeps_detachAll (places : List Nat) (h : Active p)
    (hrest : ∀ i ∈ p.own.inputs, i ∈ places ∨ p.shared.IsDetached i) :
    (detachAll places).Keeps W (guard calm atWork) (fun _ q => Active q ∧ Left q) p := by
  induction places generalizing p with
  | nil =>
    intro q hd hw
    have hleft : Left p := fun i hi => (hrest i hi).resolve_left List.not_mem_nil
    exact ⟨active_stable p q hd hw h, hleft.later (later_of_drift hd)⟩
  | cons i rest ih =>
    refine keeps_perform fun q hd hw => ?_
    have hq := active_stable p q hd hw h
    have hlater : q.Later ⟨q.past, q.own, q.shared.detach i⟩ := ⟨rfl, q.shared.le_detach i⟩
    refine ⟨guard_of_still hq trivial, ih (hq.later hlater rfl hq.state) ?_⟩
    intro j hj
    have hj' : j ∈ p.own.inputs := by
      rw [← Local.inputs_of_origin (later_of_drift hd).origin]
      exact hj
    rcases hrest j hj' with hmem | hleft
    · rcases List.mem_cons.mp hmem with rfl | hmem
      · exact .inr (isDetached_detach q.shared j)
      · exact .inl hmem
    · exact .inr (hleft.later (le_trans hd.shared (q.shared.le_detach i)))

theorem keeps_detachInputs (h : Tidy p) (hc : Closed p) :
    detachInputs.Keeps W (guard calm atWork) (fun _ q => Tidy q ∧ Closed q ∧ Left q) p := by
  refine keeps_perform fun q hd hw => ?_
  have hq := tidy_stable p q hd hw h
  have hcq := hc.later (later_of_drift hd)
  refine ⟨guard_of_still hq.active trivial, ?_⟩
  refine ((keeps_detachAll q.own.inputs hq.active fun i hi => .inl hi).also
    (keeps_lasting fun _ hl => hcq.later hl)).chain fun _ q hw hq => ?_
  refine keeps_perform (f := done) fun q' hd hw => ?_
  have hactive := active_stable q q' hd hw hq.1.1
  have hleft := hq.1.2.later (later_of_drift hd)
  have hclosed := hq.2.later (later_of_drift hd)
  refine ⟨⟨hactive, by simp, by simp⟩, fun q'' hd' hw' => ?_⟩
  have htidy : Tidy ⟨q'.past, { q'.own with pending := [] }, q'.shared⟩ := by
    refine ⟨⟨hactive.state, ?_, ?_⟩, fun _ => hclosed⟩
    · intro i hi
      cases hi
    · exact fun i hi => .inr (.inr (hleft i hi))
  have hl : q'.Later q'' := ⟨(later_of_drift hd').origin, hd'.shared⟩
  exact ⟨tidy_stable _ q'' hd' hw' htidy, Closed.later hclosed hl, Left.later hleft hl⟩

variable {op : Operator}

/-- The hook for the end, and then the copy is gone. -/
theorem keeps_dispose (hop : op.Asks fun q => calm → q ≠ .hold) {m : op.State} (h : Tidy p) :
    (dispose op m).Keeps W (guard calm atWork) (fun _ q => q.own.status.state = .disposed) p := by
  have hpublish : ∀ q, Tidy q → (perform (.publish .disposed)).Keeps W (guard calm atWork)
      (fun _ q => q.own.status.state = .disposed) q := by
    intro q hq
    refine keeps_act tidy_stable hq fun q' _ hq' => ⟨⟨hq'.active, by simp, by simp⟩, ?_⟩
    intro q'' hd _
    obtain ⟨b, hb⟩ := hd.own
    rw [hb]
    rfl
  refine (steady_call (hop.dispose m) p h).chain ?_
  rintro ⟨_, r⟩ q _ hq
  cases r with
  | ok _ => exact hpublish q hq
  | error f =>
    exact (steady_signal within_addError q hq).chain fun _ q' _ hq' => hpublish q' hq'

def contract (calm : Prop) (op : Operator) : Contract W op where
  guard := guard calm
  made := Tidy
  ready _ := Tidy
  refused _ := Tidy
  idle _ := Tidy
  leaving _ _ := Tidy
  gone atWork p := atWork = true → p.own.status.state = .disposed ∧ Closed p ∧ Left p

theorem steady_failStep : failStep.Steady W (guard calm true) Tidy :=
  (steady_signal within_addError).bind fun _ => (steady_act (a := .own) trivial).bind fun _ =>
    (steady_signal (within_stop _)).bind fun _ => steady_pure tidy_stable _

theorem steady_afterFault (f : Fault) : (afterFault f).Steady W (guard calm true) Tidy := by
  refine (steady_act (a := .own) trivial).bind fun l => ?_
  split
  · refine (survives_tidy.rejectRow _ _).bind fun r => ?_
    cases r with
    | ok _ => exact steady_pure tidy_stable _
    | error f => exact steady_failStep
  · exact steady_failStep

theorem steady_round (hop : op.Asks fun q => calm → q ≠ .hold) (m : op.State) :
    (round op m).Steady W (guard calm true) Tidy := by
  refine (steady_act (a := .isStopped) trivial).bind fun stopped => ?_
  split
  · exact steady_pure tidy_stable _
  · refine (steady_call (hop.process m)).bind fun a => ?_
    obtain ⟨m, r⟩ := a
    match r with
    | .ok true => exact steady_pure tidy_stable _
    | .ok false =>
      exact (steady_act (a := .isStopped) trivial).bind fun _ => steady_pure tidy_stable _
    | .error f => exact (steady_afterFault f).bind fun _ => steady_pure tidy_stable _

theorem steady_begin (hop : op.Asks fun q => calm → q ≠ .hold) (m : op.State) :
    (begin op m).Steady W (guard calm false) Tidy := by
  refine (steady_act (a := .allowErrors _) trivial).bind fun _ => ?_
  refine (steady_call (hop.init m)).bind fun a => ?_
  obtain ⟨m, r⟩ := a
  cases r with
  | ok _ =>
    exact (steady_act (a := .publish .initialized) trivial).bind fun _ =>
      steady_pure tidy_stable _
  | error f =>
    exact (steady_signal within_addError).bind fun _ =>
      (steady_act (a := .settle .failed) trivial).bind fun _ =>
        (steady_act (a := .publish .failed) trivial).bind fun _ =>
          (steady_act (a := .own) trivial).bind fun _ => steady_pure tidy_stable _

theorem keeps_leave (hop : op.Asks fun q => calm → q ≠ .hold) {m : op.State} {o : Outcome}
    (h : Tidy p) : (leave op m o).Keeps W (guard calm true)
      (fun _ => (contract calm op : Contract W op).gone true) p := by
  have hstill : Still calm (.act (.publish o.state)) := by cases o <;> trivial
  refine (keeps_endOutput h).chain fun _ q _ hq => ?_
  refine (keeps_detachInputs hq.1 hq.2).chain fun _ q _ hq => ?_
  obtain ⟨htidy, hclosed, hleft⟩ := hq
  have hrest : (do perform (.settle o); perform (.publish o.state); dispose op m).Keeps W
      (guard calm true) (fun _ (q : Position) => q.own.status.state = StepState.disposed) q := by
    refine (steady_act (a := .settle o) trivial q htidy).chain fun _ q _ hq => ?_
    refine (steady_act hstill q hq).chain fun _ q _ hq => ?_
    exact keeps_dispose hop hq
  exact (hrest.also (keeps_lasting fun _ hl => And.intro (hclosed.later hl) (hleft.later hl))).imp
    fun _ _ _ hq _ => hq

theorem keeps_abandon (hop : op.Asks fun q => calm → q ≠ .hold) {m : op.State} (h : Tidy p) :
    (abandon op m).Keeps W (guard calm false)
      (fun _ => (contract calm op : Contract W op).gone false) p := by
  have hgiveUp : ∀ q, Tidy q → (do endOutput; dispose op m).Keeps W (guard calm false)
      (fun _ => (contract calm op : Contract W op).gone false) q := by
    intro q hq
    refine (keeps_endOutput hq).chain fun _ q _ hq => ?_
    refine (keeps_dispose hop hq.1).imp fun _ _ _ _ h => ?_
    cases h
  refine keeps_act tidy_stable h fun q _ hq => ⟨guard_of_still hq.active trivial, ?_⟩
  rw [Action.then_own]
  split
  · refine (steady_act (a := .settle .stopped) trivial q hq).chain fun _ q _ hq => ?_
    exact (steady_act (a := .publish .stopped) trivial q hq).chain fun _ q _ hq => hgiveUp q hq
  · exact hgiveUp q hq

theorem lawful_contract (hop : op.Asks fun q => calm → q ≠ .hold) :
    (contract calm op : Contract W op).Lawful where
  made := tidy_stable
  ready _ := tidy_stable
  refused _ := tidy_stable
  gone _ := by
    intro p q hd _ h hwork
    obtain ⟨hstate, hclosed, hleft⟩ := h hwork
    obtain ⟨b, hb⟩ := hd.own
    refine ⟨?_, hclosed.later (later_of_drift hd), hleft.later (later_of_drift hd)⟩
    rw [hb]
    exact hstate
  begin p _ h := (steady_begin hop op.start p h).imp fun a _ _ hq => by
    obtain ⟨m, r⟩ := a
    cases r <;> exact hq
  start m p _ h := by
    have hguard : guard calm true (.act (.publish .running)) p :=
      guard_of_still (Tidy.active h) trivial
    exact ⟨hguard, Tidy.later h ⟨rfl, le_refl _⟩ rfl (by simp [Status.set]) rfl⟩
  idle _ := tidy_stable
  round m p _ h := (steady_round hop m p h).imp fun a _ _ hq => by
    obtain ⟨m, t⟩ := a
    cases t <;> exact hq
  leave _ _ _ _ h := keeps_leave hop h
  abandon _ _ _ h := keeps_abandon hop (h.elim id id)

end Progress
end RowFlow
