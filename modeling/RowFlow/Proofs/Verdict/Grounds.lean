import RowFlow.Proofs.Copy.Calls
import RowFlow.Proofs.Operators
import RowFlow.Proofs.Run.Made

/-
Why copies end as they do.  No flag is raised without a reason, no reason that blames
a failure is given before an error was counted, and no copy settles an outcome without
grounds for it.  Each of these is a guard on one action; together they are a contract
that every copy keeps whose operator leaves stops and the errors of the run to the
context.
-/
namespace RowFlow

/-- Requests that neither stop the run nor add to its errors themselves. -/
def Request.LeavesControl : Request → Prop
  | stop _ => False
  | addRunErrors _ => False
  | _ => True

namespace Verdict

open Program

structure World (s : Shared) : Prop where
  flag : s.control.stopped = true → s.control.reason ≠ none
  blame : ∀ r, s.control.reason = some r → r.status = .failed → 0 < s.control.errors

def Grounds (atWork : Bool) (o : Outcome) (s : Shared) : Prop :=
  (atWork = true → o ≠ .finished → s.control.reason ≠ none) ∧
    (o = .failed → 0 < s.control.errors)

def Careful (atWork : Bool) (s : Shared) : Node → Prop
  | .act .raiseFlag => s.control.reason ≠ none
  | .act (.giveReason r) => r.status = .failed → 0 < s.control.errors
  | .act (.settle o) => Grounds atWork o s
  | _ => True

def Settled (atWork : Bool) (outcome : Option Outcome) (p : Position) : Prop :=
  p.own.outcome = outcome ∧ ∀ o, outcome = some o → Grounds atWork o p.shared

def guard (atWork : Bool) (n : Node) (p : Position) : Prop :=
  (∃ outcome, Settled atWork outcome p) ∧ Careful atWork p.shared n

section Stability

variable {s t : Shared}

theorem errors_later (hle : s ≤ t) (h : 0 < s.control.errors) : 0 < t.control.errors :=
  Nat.lt_of_lt_of_le h (Shared.Le.control hle).errors

theorem reason_later (hle : s ≤ t) (h : s.control.reason ≠ none) : t.control.reason ≠ none := by
  obtain ⟨r, hr⟩ := Option.ne_none_iff_exists'.mp h
  rw [(Shared.Le.control hle).reason r hr]
  simp

theorem Grounds.later {atWork : Bool} {o : Outcome} (h : Grounds atWork o s) (hle : s ≤ t) :
    Grounds atWork o t :=
  ⟨fun hb ho => reason_later hle (h.1 hb ho), fun ho => errors_later hle (h.2 ho)⟩

end Stability

variable {atWork : Bool} {outcome : Option Outcome} {p q : Position}

theorem Settled.later (h : Settled atWork outcome p) (hown : q.own.outcome = p.own.outcome)
    (hle : p.shared ≤ q.shared) : Settled atWork outcome q :=
  ⟨hown.trans h.1, fun o ho => (h.2 o ho).later hle⟩

theorem settled_stable : Stable World (Settled atWork outcome) := by
  intro p q hd _ h
  obtain ⟨b, hb⟩ := hd.own
  exact h.later (by rw [hb]) hd.shared

theorem errors_stable : Stable World fun p => 0 < p.shared.control.errors :=
  fun _ _ hd _ h => errors_later hd.shared h

theorem stable_and {W : Shared → Prop} {P Q : Position → Prop} (hP : Stable W P)
    (hQ : Stable W Q) : Stable W fun p => P p ∧ Q p :=
  fun p q hd hw h => ⟨hP p q hd hw h.1, hQ p q hd hw h.2⟩

/-- Only one kind of action changes what is settled. -/
theorem outcome_of_leads {n : Node} (hn : ∀ o, n ≠ .act (.settle o)) (hl : n.Leads p q) :
    q.own.outcome = p.own.outcome := by
  cases hl with
  | @act a p x l s ha =>
    cases a with
    | settle o => exact absurd rfl (hn o)
    | choose o =>
      simp only [Action.perform, Prod.mk.injEq] at ha
      obtain ⟨-, rfl, -⟩ := ha
      cases o <;> rfl
    | _ =>
      simp only [Action.perform, Prod.mk.injEq] at ha
      obtain ⟨-, rfl, -⟩ := ha
      rfl
  | _ => rfl

def Light : Node → Prop
  | .act .raiseFlag => False
  | .act (.giveReason _) => False
  | .act (.settle _) => False
  | _ => True

theorem light_of_basic {n : Node} (h : n.Basic) : Light n := by
  cases n with
  | act a => cases a <;> trivial
  | _ => trivial

theorem careful_of_light {n : Node} {s : Shared} (h : Light n) : Careful atWork s n := by
  cases n with
  | act a => cases a <;> trivial
  | _ => trivial

theorem steady_light {α : Type} {r : Program α} (hr : r.Within Light) :
    r.Steady World (guard atWork) (Settled atWork outcome) := by
  intro p hp
  have hkept : ∀ n p q, Light n → World p.shared → Settled atWork outcome p → n.Leads p q →
      Settled atWork outcome q := by
    intro n p q hn _ hs hl
    refine hs.later (outcome_of_leads ?_ hl) hl.shared_le
    intro o ho
    subst ho
    exact hn
  exact (hr.keeps settled_stable hkept hp).mono
    (fun _ _ _ hg => ⟨⟨_, hg.2⟩, careful_of_light hg.1⟩) fun _ _ _ hq => hq

theorem steady_act {a : Action} (h : Light (.act a)) :
    (perform a).Steady World (guard atWork) (Settled atWork outcome) :=
  steady_light (within_perform h)

/-- First the reason, then the flag. -/
theorem keeps_stop {r : StopReason} (h : Settled atWork outcome p)
    (hr : r.status = .failed → 0 < p.shared.control.errors) :
    (stop r).Keeps World (guard atWork)
      (fun _ q => Settled atWork outcome q ∧ q.shared.control.reason ≠ none) p := by
  have hstable : Stable World fun p => Settled atWork outcome p ∧
      (r.status = .failed → 0 < p.shared.control.errors) :=
    stable_and settled_stable fun p q hd hw h hr => errors_later hd.shared (h hr)
  have hreason : Stable World fun p => Settled atWork outcome p ∧
      p.shared.control.reason ≠ none :=
    stable_and settled_stable fun p q hd _ h => reason_later hd.shared h
  refine keeps_act hstable ⟨h, hr⟩ fun q _ hq => ⟨⟨⟨_, hq.1⟩, hq.2⟩, ?_⟩
  have hgiven : Settled atWork outcome ⟨q.past, q.own,
      { q.shared with control := q.shared.control.giveReason r }⟩ :=
    hq.1.later rfl (Shared.le_control (q.shared.control.le_giveReason r))
  refine keeps_act hreason ⟨hgiven, by simp [Control.giveReason]⟩ fun q _ hq =>
    ⟨⟨⟨_, hq.1⟩, hq.2⟩, fun q' hd hw => hreason _ q' hd hw ⟨?_, hq.2⟩⟩
  exact hq.1.later rfl (Shared.le_control q.shared.control.le_raiseFlag)

/-- One error at least is counted before the limit is judged. -/
theorem keeps_addOneError (h : Settled atWork outcome p) :
    (addRunErrors 1).Keeps World (guard atWork)
      (fun _ q => Settled atWork outcome q ∧ 0 < q.shared.control.errors) p := by
  have hstable : Stable World fun p => Settled atWork outcome p ∧ 0 < p.shared.control.errors :=
    stable_and settled_stable errors_stable
  refine keeps_act settled_stable h fun q _ hq => ⟨⟨⟨_, hq⟩, trivial⟩, ?_⟩
  have hcounted : Settled atWork outcome ⟨q.past, q.own,
      { q.shared with control := q.shared.control.countErrors 1 }⟩ :=
    hq.later rfl (Shared.le_control (q.shared.control.le_countErrors 1))
  have herrors : 0 < (q.shared.control.countErrors 1).errors := Nat.succ_pos _
  show Keeps World _ _ (ite _ _ _) _
  split
  · refine ((keeps_stop hcounted fun _ => herrors).also
      (keeps_lasting fun _ hq => errors_later hq.shared herrors)).chain fun _ q _ hq => ?_
    exact fun q' hd hw => hstable _ q' hd hw ⟨hq.1.1, hq.2⟩
  · exact fun q' hd hw => hstable _ q' hd hw ⟨hcounted, herrors⟩

theorem keeps_addError (h : Settled atWork outcome p) :
    addError.Keeps World (guard atWork)
      (fun _ q => Settled atWork outcome q ∧ 0 < q.shared.control.errors) p := by
  refine (steady_act (a := .add .errors 1) trivial p h).chain fun _ q _ hq => ?_
  refine (keeps_addOneError hq).chain fun _ q _ hq => ?_
  exact fun q' hd hw => stable_and settled_stable errors_stable _ q' hd hw hq

/-- A limit of rows is no failure. -/
theorem steady_recordSourceRows (n : Nat) :
    (recordSourceRows n).Steady World (guard atWork) (Settled atWork outcome) := by
  intro p hp
  refine (steady_act (a := .countSourceRows n) trivial p hp).chain fun tally q _ hq => ?_
  split
  · refine (keeps_stop hq fun h => by cases h).chain fun _ q _ hq => ?_
    exact fun q' hd hw => settled_stable _ q' hd hw hq.1
  · exact fun q' hd hw => settled_stable _ q' hd hw hq

theorem survives_settled : Survives World (guard atWork) (Settled atWork outcome) where
  stable := settled_stable
  get := steady_act trivial
  got _ := steady_act trivial
  put _ := steady_act trivial
  putDone _ := steady_act trivial
  reject _ _ := steady_act trivial
  rejectDone _ := steady_act trivial
  own := steady_act trivial
  isStopped := steady_act trivial
  add _ _ := steady_act trivial
  note _ := steady_act trivial
  receive := steady_light ⟨trivial, fun _ => trivial⟩
  sendTo _ _ := steady_light ((within_sendTo _ _).mono fun _ => light_of_basic)
  sendError _ := steady_light ((within_sendError _).mono fun _ => light_of_basic)
  addOneError := fun _ hp => (keeps_addOneError hp).imp fun _ _ _ hq => hq.1
  recordOneRow := steady_recordSourceRows 1
  endOutput := steady_light (within_endOutput.mono fun _ => light_of_basic)

theorem steady_request {q : Request} (hq : q.LeavesControl) :
    q.program.Steady World (guard atWork) (Settled atWork outcome) := by
  refine survives_settled.request fun _ => ?_
  cases q with
  | stop r => exact absurd hq id
  | addRunErrors n => exact absurd hq id
  | recordSourceRows n => exact steady_recordSourceRows n
  | hold => exact steady_act trivial
  | _ => contradiction

theorem steady_call {σ α : Type} {hook : Hook} {more : α → Bool}
    {body : Behaviour (σ × Ending α)} (hbody : body.Asks Request.LeavesControl) :
    (call hook more body).Steady World (guard atWork) (Settled atWork outcome) := by
  have hstep : ∀ (m : Mark) (q : Position), Settled atWork outcome q →
      Settled atWork outcome (q.marked m) := fun _ _ h => h.later rfl (le_refl _)
  intro p hp
  refine keeps_call (B := fun _ => Settled atWork outcome) settled_stable hp
    (fun _ => settled_stable) (fun _ => settled_stable) ?_ ?_ ?_
  · exact fun q _ hq => ⟨⟨⟨_, hq⟩, trivial⟩,
      steady_behaviour settled_stable (fun _ => steady_request) hbody _ (hstep _ q hq)⟩
  · exact fun _ q _ hq => ⟨⟨_, hq⟩, trivial⟩
  · exact fun m e q step _ hq => ⟨⟨⟨_, hq⟩, trivial⟩, hstep _ q hq⟩

variable {op : Operator}

theorem steady_detachAll (places : List Nat) :
    (detachAll places).Steady World (guard atWork) (Settled atWork outcome) := by
  induction places with
  | nil => exact steady_pure settled_stable _
  | cons i rest ih => exact (steady_act (a := .detach i) trivial).bind fun _ => ih

theorem steady_detachInputs :
    detachInputs.Steady World (guard atWork) (Settled atWork outcome) :=
  (steady_act (a := .own) trivial).bind fun l => (steady_detachAll l.inputs).bind fun _ =>
    steady_act (a := .leaveInputs) trivial

theorem steady_dispose (hop : op.Asks Request.LeavesControl) (m : op.State) :
    (dispose op m).Steady World (guard atWork) (Settled atWork outcome) := by
  refine (steady_call (hop.dispose m)).bind fun r => ?_
  obtain ⟨_, r⟩ := r
  cases r with
  | ok _ => exact steady_act trivial
  | error f =>
    refine Steady.bind (fun p hp => ?_) fun _ => steady_act (a := .publish .disposed) trivial
    exact (keeps_addError hp).imp fun _ _ _ hq => hq.1

/-- Settles an outcome for which there are grounds. -/
theorem keeps_settle {o : Outcome} {α : Type} {r : Program α} {Q : α → Position → Prop}
    (h : Settled atWork outcome p) (hg : Grounds atWork o p.shared)
    (hr : ∀ q, Settled atWork (some o) q → r.Keeps World (guard atWork) Q q) :
    (do perform (.settle o); r).Keeps World (guard atWork) Q p := by
  have hstable : Stable World fun p => Settled atWork outcome p ∧ Grounds atWork o p.shared :=
    stable_and settled_stable fun _ _ hd _ h => h.later hd.shared
  refine keeps_act hstable ⟨h, hg⟩ fun q _ hq => ⟨⟨⟨_, hq.1⟩, hq.2⟩, hr _ ⟨rfl, ?_⟩⟩
  intro o' ho'
  cases ho'
  exact hq.2

def contract (op : Operator) : Contract World op where
  guard := guard
  made := Settled false none
  ready _ := Settled false none
  refused _ p := Settled false (some .failed) p ∧ 0 < p.shared.control.errors
  idle _ := Settled true none
  leaving _ o p := Settled true none p ∧ Grounds true o p.shared
  gone atWork p := ∃ outcome, Settled atWork outcome p

theorem keeps_begin (hop : op.Asks Request.LeavesControl) (h : Settled false none p) :
    (begin op op.start).Keeps World (guard false) (contract op).begun p := by
  refine (steady_act (a := .allowErrors _) trivial p h).chain fun _ q _ hq => ?_
  refine (steady_call (hop.init op.start) q hq).chain ?_
  rintro ⟨m, r⟩ q _ hq
  cases r with
  | ok _ =>
    refine (steady_act (a := .publish .initialized) trivial q hq).chain fun _ q _ hq => ?_
    exact fun q' hd hw => settled_stable q q' hd hw hq
  | error f =>
    refine (keeps_addError hq).chain fun _ q _ hq => ?_
    have hgrounds : Grounds false .failed q.shared := ⟨fun h => absurd h (by simp), fun _ => hq.2⟩
    refine keeps_settle hq.1 hgrounds fun q hq => ?_
    refine (steady_act (a := .publish .failed) trivial q hq).chain fun _ q _ hq => ?_
    refine (steady_act (a := .own) trivial q hq).chain fun _ q _ hq q' hd hw => ?_
    have hq' := settled_stable q q' hd hw hq
    exact ⟨hq', (hq'.2 _ rfl).2 rfl⟩

def Turned (t : Turn) (p : Position) : Prop :=
  Settled true none p ∧ ∀ o, t = .leave o → Grounds true o p.shared

theorem turned_stable (t : Turn) : Stable World (Turned t) :=
  stable_and settled_stable fun _ _ hd _ h o ho => (h o ho).later hd.shared

theorem turned_contract {m : op.State} {t : Turn} (h : Turned t p) :
    (contract op).turned (m, t) p := by
  cases t with
  | again => exact h.1
  | leave o => exact ⟨h.1, h.2 o rfl⟩

/-- A copy fails only after an error was counted and the reason given. -/
theorem keeps_failStep (h : Settled true none p) :
    failStep.Keeps World (guard true) Turned p := by
  refine (keeps_addError h).chain fun _ q _ hq => ?_
  have hstable : Stable World fun p => Settled true none p ∧ 0 < p.shared.control.errors :=
    stable_and settled_stable errors_stable
  refine keeps_act hstable hq fun q _ hq => ⟨⟨⟨_, hq.1⟩, trivial⟩, ?_⟩
  refine ((keeps_stop hq.1 fun _ => hq.2).also
    (keeps_lasting fun _ hq' => errors_later hq'.shared hq.2)).chain fun _ q _ hq => ?_
  intro q' hd hw
  refine turned_stable _ q q' hd hw ⟨hq.1.1, fun o ho => ?_⟩
  cases ho
  exact ⟨fun _ _ => hq.1.2, fun _ => hq.2⟩

theorem keeps_afterFault (f : Fault) (h : Settled true none p) :
    (afterFault f).Keeps World (guard true) Turned p := by
  refine keeps_act settled_stable h fun q _ hq => ⟨⟨⟨_, hq⟩, trivial⟩, ?_⟩
  rw [Action.then_own]
  split
  · next row d _ =>
    refine (survives_settled.rejectRow row d q hq).chain ?_
    intro r q _ hq
    cases r with
    | ok _ => exact fun q' hd hw => ⟨settled_stable q q' hd hw hq, fun _ ho => by cases ho⟩
    | error f => exact keeps_failStep hq
  · exact keeps_failStep hq

theorem keeps_round (hop : op.Asks Request.LeavesControl) {m : op.State}
    (h : Settled true none p) :
    (round op m).Keeps World (guard true) (contract op).turned p := by
  refine keeps_act settled_stable h fun q hw hq => ⟨⟨⟨_, hq⟩, trivial⟩, ?_⟩
  rw [Action.then_isStopped]
  split
  · next hs =>
    have hturned : Turned (.leave .stopped) q := by
      refine ⟨hq, fun o ho => ?_⟩
      cases ho
      exact ⟨fun _ _ => hw.flag hs, fun h => by cases h⟩
    exact fun q' hd hw => turned_contract (turned_stable _ q q' hd hw hturned)
  · refine (steady_call (hop.process m) q hq).chain ?_
    rintro ⟨m, r⟩ q _ hq
    match r with
    | .ok true => exact fun q' hd hw => settled_stable q q' hd hw hq
    | .ok false =>
      refine keeps_act settled_stable hq fun q hw hq => ⟨⟨⟨_, hq⟩, trivial⟩, ?_⟩
      rw [Action.then_isStopped]
      have hturned :
          Turned (.leave (if q.shared.control.stopped then .stopped else .finished)) q := by
        refine ⟨hq, fun o ho => ?_⟩
        cases ho
        split
        · next hs => exact ⟨fun _ _ => hw.flag hs, fun h => by cases h⟩
        · exact ⟨fun _ h => absurd rfl h, fun h => by cases h⟩
      exact fun q' hd hw => turned_contract (turned_stable _ q q' hd hw hturned)
    | .error f =>
      refine (keeps_afterFault f hq).chain ?_
      exact fun t q _ ht q' hd hw => turned_contract (turned_stable t q q' hd hw ht)

theorem keeps_leave (hop : op.Asks Request.LeavesControl) {m : op.State} {o : Outcome}
    (h : Settled true none p) (hg : Grounds true o p.shared) :
    (leave op m o).Keeps World (guard true) (fun _ => (contract op).gone true) p := by
  have hlast : ∀ {α : Type} (r : Program α) {q : Position}, Grounds true o q.shared →
      r.Keeps World (fun _ q => Grounds true o q.shared) (fun _ q => Grounds true o q.shared) q :=
    fun r _ hg => keeps_lasting fun _ hq => hg.later hq.shared
  refine ((steady_light (within_endOutput.mono fun _ => light_of_basic) p h).also
    (hlast _ hg)).chain fun _ q _ hq => ?_
  refine ((steady_detachInputs q hq.1).also (hlast _ hq.2)).chain fun _ q _ hq => ?_
  refine keeps_settle hq.1 hq.2 fun q hq => ?_
  refine (steady_act (a := .publish o.state) trivial q hq).chain fun _ q _ hq => ?_
  exact (steady_dispose hop m q hq).imp fun _ _ _ hq => ⟨_, hq⟩

theorem keeps_giveUp (hop : op.Asks Request.LeavesControl) {m : op.State}
    (h : Settled false outcome p) :
    (do endOutput; dispose op m).Keeps World (guard false)
      (fun _ => (contract op).gone false) p := by
  refine (steady_light (within_endOutput.mono fun _ => light_of_basic) p h).chain fun _ q _ hq => ?_
  exact (steady_dispose hop m q hq).imp fun _ _ _ hq => ⟨_, hq⟩

theorem keeps_abandon (hop : op.Asks Request.LeavesControl) {m : op.State}
    (h : Settled false outcome p) :
    (abandon op m).Keeps World (guard false) (fun _ => (contract op).gone false) p := by
  refine keeps_act settled_stable h fun q _ hq => ⟨⟨⟨_, hq⟩, trivial⟩, ?_⟩
  rw [Action.then_own]
  split
  · have hgrounds : Grounds false .stopped q.shared :=
      ⟨fun h => absurd h (by simp), fun h => by cases h⟩
    refine keeps_settle hq hgrounds fun q hq => ?_
    refine (steady_act (a := .publish .stopped) trivial q hq).chain fun _ q _ hq => ?_
    exact keeps_giveUp hop hq
  · exact keeps_giveUp hop hq

theorem lawful_contract (hop : op.Asks Request.LeavesControl) : (contract op).Lawful where
  made := settled_stable
  ready _ := settled_stable
  refused _ := stable_and settled_stable errors_stable
  gone _ := by
    rintro p q hd hw ⟨outcome, h⟩
    exact ⟨outcome, settled_stable p q hd hw h⟩
  begin _ _ h := keeps_begin hop h
  start _ _ _ h := by
    have hworks : ∀ q, Settled false none q → Settled true none q :=
      fun q hq => ⟨hq.1, fun _ ho => by cases ho⟩
    exact ⟨⟨⟨_, hworks _ h⟩, trivial⟩, (hworks _ h).later rfl (le_refl _)⟩
  idle _ := settled_stable
  round _ _ _ h := keeps_round hop h
  leave _ _ _ _ h := keeps_leave hop h.1 h.2
  abandon _ _ _ h := by
    rcases h with h | h
    · exact keeps_abandon hop h
    · exact keeps_abandon hop h.1

end Verdict
end RowFlow
