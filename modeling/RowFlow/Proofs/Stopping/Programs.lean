import RowFlow.Proofs.Stopping.Slack

/-
The programs of a copy under the watch of the flag.  Code inside of a hook comes back to
where it was, whatever it asks for (`stays_hook`): a request that is begun with the flag up
is done before anything else is.  A round looks at the flag before it calls the hook for
work, and what the hook comes back with settles how the copy ends (`Fate`).  So every
operator will do for the regime.
-/
namespace RowFlow
namespace Stopping

theorem aside_limits {r : StopReason} {n : Node} (h : n.Limits r) : Aside n := by
  cases h <;> trivial

theorem aside_fails {n : Node} (h : n.Fails) : Aside n := by
  cases h with
  | limit h => exact aside_limits h
  | _ => trivial

section Requests

open Program

variable {m : Bool} {c : Calling} {e : Errand} {o : Local} {x : Slack}

/-- A search that has come to its end tells so. -/
theorem At.heeds_gotNone (hx : At m c .dried x) :
    (do perform (.mark (.got none)); pure (none : Option Row)).Heeds watch o
      (fun _ => At m c .none) x :=
  hx.heeds_act fun b hb _ _ =>
    ⟨_, .gotNone, ((at_mk b c .none).of_le hb).heeds_pure fun _ hy => hy⟩

theorem stays_getRow (hc : c.Inside) : getRow.Stays watch o (At m c .none) := by
  intro x hx
  refine hx.heeds_act fun b hb _ _ => ⟨_, .get hc, .bind lawful_watch fun y hy => ?_⟩
  have hdry : ∀ b, (m = true → b = true) → (pure none : Program (Option Row)).Heeds watch o
      (fun r y => (do perform (.mark (.got r)); pure r).Heeds watch o (fun _ => At m c .none) y)
      ⟨b, c, .dried⟩ := fun b hb =>
    ((at_mk b c .dried).of_le hb).heeds_pure fun z hz => hz.heeds_gotNone
  cases b with
  | true =>
    -- The search does not begin: it ends without a row.
    obtain ⟨b, hup, rfl⟩ := (at_mk true c Errand.late).drift hy
    exact ⟨⟨_, .dryLate, hdry b fun _ => hup rfl⟩, fun hstart => absurd (hup rfl) (hstart rfl)⟩
  | false =>
    have hm : ¬ m = true := fun hm => by cases hb hm
    obtain ⟨b, -, rfl⟩ := (at_mk false c Errand.asked).drift hy
    refine ⟨⟨_, .dry, hdry b fun h => absurd h hm⟩, fun _ y' hy' row => ?_⟩
    obtain ⟨b', -, rfl⟩ := (at_mk b c Errand.asked).drift hy'
    refine ⟨_, .take, ((at_mk b' c (.took row)).of_le fun h => absurd h hm).heeds_pure
      fun z hz => ?_⟩
    exact hz.heeds_act fun b hb _ _ =>
      ⟨_, .got, ((at_mk b c .none).of_le hb).heeds_pure fun _ hy => hy⟩

/-- A row is sent to outlets that it was not sent to before. -/
theorem At.heeds_sendToAll {row : Row} {places : List Nat} (hplaces : places.Nodup)
    {used : List Outlet} (hnew : ∀ place ∈ places, Outlet.output place ∉ used)
    (hx : At false c (.sending true used none) x) :
    (sendToAll row places).Heeds watch o
      (fun _ y => ∃ used', At false c (.sending true used' none) y) x := by
  induction places generalizing used x with
  | nil => exact hx.heeds_pure fun y hy => ⟨used, hy⟩
  | cons place rest ih =>
    obtain ⟨hplace, hrest⟩ := List.nodup_cons.mp hplaces
    refine .bind lawful_watch (hx.heeds_act fun b hb i? _ =>
      ⟨_, .choose (hnew place List.mem_cons_self), ?_⟩)
    cases i? with
    | none =>
      refine (at_mk b c _).heeds_pure fun y hy => ?_
      exact ih hrest (fun p hp => hnew p (List.mem_cons_of_mem _ hp)) (hy.of_le nofun)
    | some i =>
      intro y hy r
      obtain ⟨b, hb, rfl⟩ := (at_mk b c _).drift hy
      refine ⟨_, .deliver, ?_⟩
      have hused : At false c (.sending true (.output place :: used) none)
          ⟨b, c, .sending true (.output place :: used) none⟩ := (at_mk b c _).of_le nofun
      cases r with
      | error f => exact hused.heeds_pure fun y hy => hy.heeds_pure fun z hz => ⟨_, hz⟩
      | ok _ =>
        refine hused.heeds_pure fun y hy => ih hrest (fun p hp => ?_) hy
        rintro (_ | ⟨_, hmem⟩)
        · exact hplace hp
        · exact hnew p (List.mem_cons_of_mem _ hp) hmem

theorem aside_recordSourceRows (n : Nat) : (recordSourceRows n).Within Aside :=
  within_parts_recordSourceRows trivial fun _ => aside_limits

theorem aside_addError : addError.Within Aside := within_fails fun _ => aside_fails

theorem At.busy (hx : At m c e x) (he : e.Busy) : ∃ e, e.Busy ∧ At false c e x :=
  ⟨e, he, hx.of_le nofun⟩

def putting (row : Row) : Program (Except Fault Unit) := do
  let l ← own
  if l.outputDone then return .error (afterEnd l.info)
  if ← isStopped then return .ok ()
  match ← sendToAll row (List.range l.outputs.length) with
  | .error f => return .error f
  | .ok () =>
    let _ ← perform (.add .written 1)
    if l.isSource then recordSourceRows 1
    return .ok ()

theorem putRow_eq (row : Row) : putRow row = marked (.put row) .putDone (putting row) := rfl

inductive Skipping : Except Fault Unit → Errand → Prop
  | refused (f : Fault) : Skipping (.error f) (.looked true)
  | skipped : Skipping (.ok ()) .skipped

theorem At.heeds_putting_late (hx : At true c .begun x) (row : Row) :
    (putting row).Heeds watch o (fun r y => ∃ e, Skipping r e ∧ At true c e y) x := by
  refine hx.heeds_act fun b hb l _ => ⟨_, .putLooks, ?_⟩
  cases hdone : l.outputDone with
  | true =>
    rw [if_pos rfl]
    exact ((at_mk b c (.looked true)).of_le hb).heeds_pure fun y hy => ⟨_, .refused _, hy⟩
  | false =>
    rw [if_neg Bool.false_ne_true]
    refine ((at_mk b c (.looked false)).of_le hb).heeds_act fun b hb v hv => ?_
    obtain rfl : v = true := hv (hb rfl)
    exact ⟨_, .putSkips, ((at_mk b c .skipped).of_le hb).heeds_pure fun y hy => ⟨_, .skipped, hy⟩⟩

theorem At.heeds_putting (hx : At false c (.sending false [] none) x) (row : Row) :
    (putting row).Heeds watch o (fun _ y => ∃ e, e.Busy ∧ At false c e y) x := by
  refine hx.heeds_aside trivial (within_perform (a := .own) trivial) fun l y hy => ?_
  split
  · exact hy.heeds_pure fun z hz => hz.busy trivial
  · refine hy.heeds_act fun b hb v hv => ?_
    cases v with
    | true => exact ⟨_, .bar, ((at_mk b c .barred).of_le hb).heeds_pure fun z hz => hz.busy trivial⟩
    | false =>
      obtain rfl : b = false := Bool.eq_false_iff.mpr fun hb => by cases hv hb
      refine ⟨_, .clear, ?_⟩
      refine ((at_mk false c _).heeds_sendToAll List.nodup_range (by simp)).chain lawful_watch ?_
      rintro r y ⟨used, hy⟩
      cases r with
      | error f => exact hy.heeds_pure fun z hz => hz.busy trivial
      | ok _ =>
        refine hy.heeds_aside trivial (within_perform (a := .add .written 1) trivial)
          fun _ z hz => ?_
        split
        · exact hz.heeds_aside trivial (aside_recordSourceRows 1) fun _ z hz =>
            hz.heeds_pure fun z hz => hz.busy trivial
        · exact hz.heeds_pure fun z hz => hz.busy trivial

theorem stays_putRow (hc : c.Inside) (row : Row) : (putRow row).Stays watch o (At m c .none) := by
  intro x hx
  rw [putRow_eq]
  refine hx.heeds_act fun b hb _ _ => ⟨_, .put hc, .bind lawful_watch ?_⟩
  cases b with
  | true =>
    refine ((at_mk true c .begun).heeds_putting_late row).mono ?_
    rintro r y ⟨e, hr, hy⟩
    refine hy.heeds_act fun b hup _ _ => ⟨⟨b, c, .none⟩, ?_, ?_⟩
    · cases hr with
      | refused f => exact .putRefused
      | skipped => exact .putSkipped
    · exact ((at_mk b c .none).of_le fun _ => hup rfl).heeds_pure fun _ hy => hy
  | false =>
    refine ((at_mk false c _).heeds_putting row).mono ?_
    rintro r y ⟨e, he, hy⟩
    exact hy.heeds_act fun b _ _ _ => ⟨_, .putDone hc he,
      ((at_mk b c .none).of_le fun hm => nomatch hb hm).heeds_pure fun _ hy => hy⟩

def rejecting (row : Row) (d : Diagnostic) : Program (Except Fault Unit) := do
  let l ← own
  if !l.errorHandling then return .error (.errorHandlingDisabled l.info.name)
  match errorRow row d with
  | .error f => return .error f
  | .ok out =>
    match ← sendError out with
    | .error f => return .error f
    | .ok () =>
      let _ ← perform (.add .rejected 1)
      addError
      return .ok ()

theorem rejectRow_eq (row : Row) (d : Diagnostic) :
    rejectRow row d = marked (.reject row d) .rejectDone (rejecting row d) := rfl

/-- The error output gets a row only if the flag was seen down. -/
theorem At.heeds_sendError_late (hx : At true c .barred x) (row : Row) :
    (sendError row).Heeds watch o (fun _ => At true c .barred) x := by
  refine hx.heeds_act fun b hb i? _ => ⟨_, .barredChooses, ?_⟩
  have hx := (at_mk b c .barred).of_le hb
  cases i? with
  | none => exact hx.heeds_pure fun y hy => hy
  | some i =>
    refine hx.heeds_act fun b hb v hv => ?_
    obtain rfl : v = true := hv (hb rfl)
    exact ⟨_, .barredLooks, ((at_mk b c .barred).of_le hb).heeds_pure fun y hy => hy⟩

theorem At.heeds_sendError (hx : At false c (.sending false [] none) x) (row : Row) :
    (sendError row).Heeds watch o (fun _ y => ∃ e, e.Busy ∧ At false c e y) x := by
  refine hx.heeds_act fun b hb i? _ => ⟨_, .choose List.not_mem_nil, ?_⟩
  have hx := at_mk b c (.sending false [] (i?.map (Outlet.error, ·)))
  cases i? with
  | none => exact hx.heeds_pure fun y hy => hy.busy trivial
  | some i =>
    refine hx.heeds_act fun b _ v hv => ?_
    cases v with
    | true => exact ⟨_, .bar, (at_mk b c .barred).heeds_pure fun y hy => hy.busy trivial⟩
    | false =>
      obtain rfl : b = false := Bool.eq_false_iff.mpr fun hb => by cases hv hb
      refine ⟨_, .clear, fun y hy r => ?_⟩
      obtain ⟨b, -, rfl⟩ := (at_mk false c _).drift hy
      exact ⟨_, .deliver, (at_mk b c _).heeds_pure fun y hy => hy.busy trivial⟩

/-- What is done besides sending the row keeps the copy where it is with it. -/
theorem At.heeds_rejecting (hx : At m c e x) {E : Errand → Prop} (hE : ∀ e, E e → e.Busy)
    (he : E e) (row : Row) (d : Diagnostic)
    (hsend : ∀ out y, At m c e y →
      (sendError out).Heeds watch o (fun _ y => ∃ e, E e ∧ At m c e y) y) :
    (rejecting row d).Heeds watch o (fun _ y => ∃ e, E e ∧ At m c e y) x := by
  refine hx.heeds_aside (hE e he).loose (within_perform (a := .own) trivial) fun l y hy => ?_
  split
  · exact hy.heeds_pure fun z hz => ⟨e, he, hz⟩
  · split
    · exact hy.heeds_pure fun z hz => ⟨e, he, hz⟩
    · next out _ =>
      refine (hsend out y hy).chain lawful_watch ?_
      rintro r y ⟨e, he, hy⟩
      have hloose := (hE e he).loose
      cases r with
      | error f => exact hy.heeds_pure fun z hz => ⟨e, he, hz⟩
      | ok _ =>
        exact hy.heeds_aside hloose (within_perform (a := .add .rejected 1) trivial) fun _ y hy =>
          hy.heeds_aside hloose aside_addError fun _ y hy => hy.heeds_pure fun z hz => ⟨e, he, hz⟩

theorem At.heeds_rejectRow (hx : At m c .none x) {row : Row} {d : Diagnostic}
    (hc : c.Rejects row d) :
    (rejectRow row d).Heeds watch o (fun (r : Except Fault Unit) => At m (c.routes r.isOk) .none)
      x := by
  rw [rejectRow_eq]
  refine hx.heeds_act fun b hb _ _ => ⟨_, .reject hc, .bind lawful_watch ?_⟩
  have hdone : ∀ m' e r y, (m = true → m' = true) → e.Busy → At m' c e y →
      (do perform (.mark (.rejectDone r)); pure r).Heeds watch o
        (fun (r : Except Fault Unit) => At m (c.routes r.isOk) .none) y := fun m' e r y hm he hy =>
    hy.heeds_act fun b hb _ _ => ⟨_, .rejectDone he,
      ((at_mk b _ .none).of_le fun h => hb (hm h)).heeds_pure fun _ hy => hy⟩
  cases b with
  | true =>
    refine ((at_mk true c .barred).heeds_rejecting (E := (· = .barred)) (by rintro _ rfl; trivial)
      rfl row d fun out y hy => (hy.heeds_sendError_late out).mono fun _ _ hy => ⟨_, rfl, hy⟩).mono ?_
    rintro r y ⟨e, rfl, hy⟩
    exact hdone true .barred r y (fun _ => rfl) trivial hy
  | false =>
    refine ((at_mk false c (.sending false [] none)).heeds_rejecting (E := Errand.Busy)
      (fun _ he => he) trivial row d fun out y hy => hy.heeds_sendError out).mono ?_
    rintro r y ⟨e, he, hy⟩
    exact hdone false e r y hb he hy

theorem aside_endOutput : endOutput.Within Aside :=
  within_parts_endOutput.mono fun n h => by cases h <;> trivial

/-- Code inside of a hook comes back to where it was. -/
theorem stays_request (hook : Hook) (q : Request) :
    q.program.Stays watch o (At m (.inside hook) .none) := by
  have haside : q.program.Within Aside → q.program.Stays watch o (At m (.inside hook) .none) :=
    stays_aside (e := .none) trivial
  cases q with
  | getRow => exact stays_getRow (c := .inside hook) trivial
  | putRow row => exact stays_putRow (c := .inside hook) trivial row
  | rejectRow row d => exact fun x hx => hx.heeds_rejectRow trivial
  | isStopped =>
    exact fun x hx => hx.heeds_act fun b hb v hv =>
      ⟨_, .look hv, ((at_mk b _ .none).of_le hb).heeds_pure fun _ hy => hy⟩
  | endOutput => exact haside aside_endOutput
  | addError => exact haside aside_addError
  | look => exact haside ((within_perform (a := .own) trivial).bind fun _ => within_pure _)
  | stop r => exact haside (within_limits fun _ => aside_limits)
  | addRunErrors n => exact haside (within_parts_addRunErrors trivial fun _ => aside_limits)
  | recordSourceRows n => exact haside (aside_recordSourceRows n)
  | _ => exact haside (within_perform trivial)

theorem stays_hook {α : Type} (hook : Hook) (b : Behaviour α) :
    b.program.Stays watch o (At m (.inside hook) .none) :=
  stays_behaviour lawful_watch (lasts_at _ _ _) (fun q _ => stays_request hook q) b.asks_all

end Requests

section Programs

open Program

variable {m : Bool} {c : Calling} {o : Local} {x : Slack} {σ α : Type}

theorem aside_detachInputs : detachInputs.Within Aside :=
  leaving_detachInputs.mono fun n h => by
    cases n with
    | act a => cases a <;> trivial
    | _ => exact h

/-- A call of a hook, where the flag may have gone up meanwhile. -/
theorem At.heeds_call (hx : At m c .none x) (hook : Hook) (hc : c.Admits hook) (more : α → Bool)
    (b : Behaviour (σ × Ending α)) :
    (Program.call hook more b).Heeds watch o
      (fun (a : σ × Except Fault α) y => ∃ down, At down (.after down hook (a.2.map more)) .none y)
      x := by
  refine hx.heeds_act fun _ _ _ _ => ⟨_, .enter hc, .bind lawful_watch ?_⟩
  refine (stays_hook hook b _ (at_mk _ _ .none)).chain lawful_watch fun ⟨s, ending⟩ y hy => ?_
  refine hy.heeds_aside trivial (within_perform (a := .own) trivial) fun l y hy => ?_
  exact hy.heeds_pure fun y hy => hy.heeds_act fun b _ _ _ =>
    ⟨_, .exit, (at_mk b _ .none).heeds_pure fun _ hz => ⟨b, hz⟩⟩

def seam (op : Operator) (_ : Local) : Seam op → Slack → Prop
  | .idle _, x => At false .outside .none x ∨
      ∃ late fate, fate.outcome = .stopped ∧ At late (.back late fate) .none x
  | .leaving _ e, x => ∃ c, c.Settles e ∧ At false c .none x
  | .gone, x => At false .closed .none x
  | _, x => At false .outside .none x

variable {op : Operator}

theorem lasts_seam (t : Seam op) : watch.Lasts (seam op o t) := by
  intro x y hd hx
  cases t with
  | idle s =>
    refine hx.imp (lasts_at _ _ _ x y hd) ?_
    rintro ⟨late, fate, hfate, h⟩
    exact ⟨late, fate, hfate, lasts_at _ _ _ x y hd h⟩
  | leaving s e =>
    obtain ⟨c, hc, h⟩ := hx
    exact ⟨c, hc, lasts_at _ _ _ x y hd h⟩
  | _ => exact lasts_at _ _ _ x y hd hx

theorem seam_again {fate : Fate} (h : At m (.back m fate) .none x)
    (hf : fate.outcome = .stopped) (s : op.State) : seam op o (.turned (s, .again)) x :=
  .inr ⟨m, fate, hf, h⟩

theorem seam_leave {e : Outcome} (h : At m c .none x) (hc : c.Settles e) (s : op.State) :
    seam op o (.turned (s, .leave e)) x :=
  ⟨c, hc, h.of_le nofun⟩

theorem At.heeds_failStep (hx : At m c .none x) :
    failStep.Heeds watch o (fun t y => t = .leave .failed ∧ At m c .none y) x :=
  hx.heeds_aside trivial aside_addError fun _ _ hx =>
    hx.heeds_aside trivial (within_perform (a := .own) trivial) fun _ _ hx =>
      hx.heeds_aside trivial (within_limits fun _ => aside_limits) fun _ _ hx =>
        hx.heeds_pure fun _ hx => ⟨rfl, hx⟩

theorem At.heeds_afterFault {f : Fault} (hx : At m (.back m (.faulty f)) .none x) (s : op.State) :
    (afterFault f).Heeds watch o (fun t => seam op o (.turned (s, t))) x := by
  have hfail : ∀ {fate y}, fate.outcome = .failed → At m (.back m fate) .none y →
      failStep.Heeds watch o (fun t => seam op o (.turned (s, t))) y := fun hfate hy =>
    hy.heeds_failStep.mono fun t z ht => by
      obtain ⟨rfl, hz⟩ := ht
      exact seam_leave hz (fun _ => hfate.symm) s
  refine hx.heeds_aside trivial (within_perform (a := .own) trivial) fun l y hy => ?_
  split
  · refine (hy.heeds_rejectRow rfl).chain lawful_watch fun r z hz => ?_
    cases r with
    | ok _ => exact hz.heeds_pure fun w hw => seam_again hw rfl s
    | error f => exact hfail rfl hz
  · exact hfail rfl hy

theorem At.heeds_begin (hx : At false .outside .none x) (s : op.State) :
    (begin op s).Heeds watch o (fun a => seam op o (.begun a)) x := by
  refine hx.heeds_aside trivial (within_perform trivial) fun _ y hy => ?_
  refine (hy.heeds_call .init trivial always _).chain lawful_watch ?_
  rintro ⟨s, r⟩ y ⟨down, hy⟩
  have hout : At false .outside .none y := hy.of_le nofun
  cases r with
  | ok _ =>
    exact hout.heeds_aside trivial (within_perform trivial) fun _ z hz => hz.heeds_pure fun _ hw => hw
  | error f =>
    refine hout.heeds_aside trivial aside_addError fun _ z hz => ?_
    refine hz.heeds_act fun b hb _ _ => ⟨_, .settle trivial, ?_⟩
    exact ((at_mk b _ .none).of_le hb).heeds_aside trivial
      (within_perform (a := .publish .failed) trivial) fun _ z hz =>
        hz.heeds_aside trivial (within_perform (a := .own) trivial) fun _ z hz =>
          hz.heeds_pure fun _ hw => hw

def working (op : Operator) (s : op.State) : Program (op.State × Turn) := do
  let (s, r) ← callProcess op s
  match r with
  | .ok true => return (s, .again)
  | .ok false => return (s, .leave (if ← isStopped then .stopped else .finished))
  | .error f => return (s, ← afterFault f)

theorem round_eq (op : Operator) (s : op.State) : round op s = (do
    if ← isStopped then return (s, .leave .stopped)
    working op s) := rfl

theorem At.heeds_working (hx : At m .cleared .none x) (s : op.State) :
    (working op s).Heeds watch o (fun a => seam op o (.turned a)) x := by
  refine (hx.heeds_call .process trivial id _).chain lawful_watch ?_
  rintro ⟨s, r⟩ y ⟨down, hy⟩
  match r with
  | .ok true => exact hy.heeds_pure fun z hz => seam_again hz rfl s
  | .ok false =>
    refine hy.heeds_act fun b hb v hv => ⟨_, .look hv, ?_⟩
    refine (at_mk b _ .none).heeds_pure fun z hz => seam_leave hz ?_ s
    cases v with
    | true => exact fun _ => rfl
    | false => trivial
  | .error f =>
    exact (hy.heeds_afterFault s).chain lawful_watch fun t z hz w hw => lasts_seam _ z w hw hz

/-- A round looks at the flag first. -/
theorem At.heeds_round (hx : At m c .none x) (hstopped : c.Settles .stopped) (s : op.State) :
    (round op s).Heeds watch o (fun a => seam op o (.turned a)) x := by
  rw [round_eq]
  refine hx.heeds_act fun b hb v hv => ⟨_, .look hv, ?_⟩
  cases v with
  | true =>
    have hsame : c.looks true = c := by cases c <;> rfl
    rw [hsame]
    exact (at_mk b c .none).heeds_pure fun y hy => seam_leave hy hstopped s
  | false =>
    have hcleared : c.looks false = .cleared := by
      cases c with
      | inside hook => exact absurd hstopped id
      | _ => rfl
    rw [hcleared]
    exact (at_mk b .cleared .none).heeds_working s

theorem At.heeds_dispose (hx : At m c .none x) (hc : c.Admits .dispose) (s : op.State) :
    (dispose op s).Heeds watch o (fun _ => At false .closed .none) x := by
  refine (hx.heeds_call .dispose hc always _).chain lawful_watch ?_
  rintro ⟨s, r⟩ y ⟨down, hy⟩
  have hlast : ∀ y, At down .closed .none y →
      (perform (.publish .disposed)).Heeds watch o (fun _ => At false .closed .none) y :=
    fun y hy => (stays_aside (e := .none) trivial (within_perform (a := .publish .disposed) trivial)
      y hy).mono fun _ _ h => h.of_le nofun
  cases r with
  | ok _ => exact hlast y hy
  | error f => exact hy.heeds_aside trivial aside_addError fun _ => hlast

theorem At.heeds_leave {e : Outcome} (hx : At m c .none x) (hc : c.Settles e) (s : op.State) :
    (leave op s e).Heeds watch o (fun _ => At false .closed .none) x := by
  have hsettled : c.settled.Admits .dispose := by cases c <;> trivial
  refine hx.heeds_aside trivial aside_endOutput fun _ _ hx => ?_
  refine hx.heeds_aside trivial aside_detachInputs fun _ _ hx => ?_
  refine hx.heeds_act fun b _ _ _ => ⟨_, .settle hc, ?_⟩
  exact (at_mk b _ .none).heeds_aside trivial (within_perform trivial) fun _ _ hy =>
    hy.heeds_dispose hsettled s

theorem At.heeds_abandon (hx : At m .outside .none x) (s : op.State) :
    (abandon op s).Heeds watch o (fun _ => At false .closed .none) x := by
  have hrest : ∀ {m y}, At m .outside .none y →
      (do endOutput; dispose op s).Heeds watch o (fun _ => At false .closed .none) y := fun hy =>
    hy.heeds_aside trivial aside_endOutput fun _ _ hz => hz.heeds_dispose trivial s
  refine hx.heeds_aside trivial (within_perform (a := .own) trivial) fun l y hy => ?_
  split
  · refine hy.heeds_act fun b _ _ _ => ⟨_, .settle trivial, ?_⟩
    exact (at_mk b _ .none).heeds_aside trivial (within_perform (a := .publish .stopped) trivial)
      fun _ _ hz => hrest hz
  · exact hrest hy

end Programs

def regime : Regime watch where
  fits _ := True
  seam := seam

theorem lawful_regime : regime.Lawful where
  watch := lawful_watch
  lasts _ o t := lasts_seam (o := o) t
  begin _ _ _ _ hx := hx.heeds_begin _
  start _ _ s _ hx :=
    (hx : At false .outside .none _).heeds_act fun b hb _ _ => ⟨_, .aside trivial trivial,
      ((at_mk b _ .none).of_le hb).heeds_pure fun _ hy => .inl hy⟩
  round op o s x _ hx := by
    rcases hx with hx | ⟨late, fate, hfate, hx⟩
    · exact hx.heeds_round trivial s
    · exact hx.heeds_round (fun _ => hfate.symm) s
  leave op o s e x _ hx := by
    obtain ⟨c, hc, hx⟩ := hx
    exact hx.heeds_leave hc s
  abandon op o s x _ hx := by
    rcases hx with hx | hx <;> exact At.heeds_abandon hx s

end Stopping
end RowFlow
