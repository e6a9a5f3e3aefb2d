import RowFlow.Proofs.Program.Steady

/-
What code cannot touch.  Nothing a copy does changes who it is and which row sets it
is wired to (`Local.origin`).  Its hooks have less in their reach: what they ask for
never ends the copy's work, settles its outcome or publishes its state.

`Node.Leads` says where a single action can lead.  A condition that every action keeps
is kept by a whole program made of such actions; for hooks this gives `keeps_inside`,
by which everything outside their reach is after a hook as it was before.
-/
namespace RowFlow

/-- Where an action can lead.  The search for a row passes over an input, gives one up
that has ended, or takes a row. -/
inductive Node.Leads : Node → Position → Position → Prop
  | act {a : Action} {p : Position} {x : a.Answer} {l : Local} {s : Shared}
      (h : a.perform p.own p.shared = (some x, l, s)) :
      Leads (.act a) p ⟨a.deed?.toList ++ p.past, l, s⟩
  | pass {p : Position} : Leads .receive p { p with own := p.own.pass }
  | drop {p : Position}
      (h : ∀ i, p.own.pending[p.own.place]? = some i → (p.shared.poll i).2 = .done) :
      Leads .receive p { p with own := p.own.drop }
  | take {p : Position} {i : Nat} {row : Row} (hi : p.own.pending[p.own.place]? = some i)
      (hrow : (p.shared.poll i).2 = .row row) :
      Leads .receive p ⟨.take i row :: p.past, p.own.taken row, (p.shared.poll i).1⟩
  | give {p : Position} {i : Nat} {row : Row} (h : (p.shared.offer i row).2 = .ok .accepted) :
      Leads (.deliver i row) p ⟨.give i row :: p.past, p.own, (p.shared.offer i row).1⟩

theorem Node.Leads.shared_le {n : Node} {p q : Position} (h : n.Leads p q) :
    p.shared ≤ q.shared := by
  cases h with
  | @act a p x l s h =>
    have hle := a.le_perform p.own p.shared
    rwa [h] at hle
  | pass => exact le_refl _
  | drop _ => exact le_refl _
  | take _ _ => exact p.shared.le_poll _
  | give _ => exact p.shared.le_offer _ _

namespace Program

variable {α β : Type} {W : Shared → Prop}

/-- Only such actions, whatever is found on the way. -/
def Within (allowed : Node → Prop) : Program α → Prop
  | done _ => True
  | act a next => allowed (.act a) ∧ ∀ x, (next x).Within allowed
  | receive _ next => allowed .receive ∧ ∀ x, (next x).Within allowed
  | deliver i row _ next => allowed (.deliver i row) ∧ ∀ x, (next x).Within allowed

section Within

variable {allowed allowed' : Node → Prop}

theorem within_pure (a : α) : (pure a : Program α).Within allowed := trivial

theorem within_perform {a : Action} (h : allowed (.act a)) : (perform a).Within allowed :=
  ⟨h, fun _ => trivial⟩

theorem Within.bind {p : Program α} {f : α → Program β} (hp : p.Within allowed)
    (hf : ∀ a, (f a).Within allowed) : (p >>= f).Within allowed := by
  show (p.bind f).Within allowed
  induction p with
  | done a => exact hf a
  | act a next ih => exact ⟨hp.1, fun x => ih x (hp.2 x)⟩
  | receive scan next ih => exact ⟨hp.1, fun x => ih x (hp.2 x)⟩
  | deliver i row refused next ih => exact ⟨hp.1, fun x => ih x (hp.2 x)⟩

theorem Within.mono {p : Program α} (hp : p.Within allowed)
    (h : ∀ n, allowed n → allowed' n) : p.Within allowed' := by
  induction p with
  | done a => trivial
  | act a next ih => exact ⟨h _ hp.1, fun x => ih x (hp.2 x)⟩
  | receive scan next ih => exact ⟨h _ hp.1, fun x => ih x (hp.2 x)⟩
  | deliver i row refused next ih => exact ⟨h _ hp.1, fun x => ih x (hp.2 x)⟩

/-- A condition that lasts through such actions holds all the way. -/
theorem Within.keeps {I : Position → Prop} (hstable : Stable W I)
    (hleads : ∀ n p q, allowed n → W p.shared → I p → n.Leads p q → I q) {p : Program α}
    (h : p.Within allowed) {pos : Position} (hpos : I pos) :
    p.Keeps W (fun n q => allowed n ∧ I q) (fun _ => I) pos := by
  induction p generalizing pos with
  | done a => exact fun q hd hw => hstable _ q hd hw hpos
  | act a next ih =>
    intro q hd hw
    have hq := hstable _ q hd hw hpos
    refine ⟨⟨h.1, hq⟩, ?_⟩
    unfold Action.Then
    split
    · next x l s e => exact ih x (h.2 x) (hleads _ _ _ h.1 hw hq (.act e))
    · trivial
  | receive scan next ih =>
    intro q hd hw
    exact ⟨I, hstable _ q hd hw hpos, {
      stable := hstable
      guard := fun _ _ hp => ⟨h.1, hp⟩
      pass := fun p hw hp => hleads _ _ _ h.1 hw hp .pass
      drop := fun p hw hp hd => hleads _ _ _ h.1 hw hp (.drop hd)
      ended := fun p _ hp _ => ih none (h.2 none) hp
      row := fun p i row hw hp hi hr =>
        ih (some row) (h.2 _) (hleads _ _ _ h.1 hw hp (.take hi hr)) }⟩
  | deliver i row refused next ih =>
    intro q hd hw
    have hq := hstable _ q hd hw hpos
    exact {
      guard := ⟨h.1, hq⟩
      accepted := fun ha => ih _ (h.2 _) (hleads _ _ _ h.1 hw hq (.give ha))
      discarded := fun _ => ih _ (h.2 _) hq
      refused := fun f _ => ih _ (h.2 _) hq
      dropped := fun _ => ih _ (h.2 _) hq }

theorem within_all (p : Program α) : p.Within fun _ => True := by
  induction p with
  | done a => trivial
  | act a next ih => exact ⟨trivial, ih⟩
  | receive scan next ih => exact ⟨trivial, ih⟩
  | deliver i row refused next ih => exact ⟨trivial, ih⟩

end Within

theorem step_deliver_leads (i : Nat) (row : Row) (refused : Bool)
    (next : Except Fault Delivery → Program α) (past : List Deed) (l : Local) (s : Shared) :
    let p := deliver i row refused next
    let q : Position := ⟨(p.deed? l s).toList ++ past, (p.step l s).2.1, (p.step l s).2.2⟩
    q = ⟨past, l, s⟩ ∨ (Node.deliver i row).Leads ⟨past, l, s⟩ q := by
  intro p q
  cases refused with
  | true => exact .inl (by simp only [p, q, step, deed?]; split <;> rfl)
  | false =>
    have hsame : (s.offer i row).2 ≠ .ok .accepted → (s.offer i row).1 = s :=
      Shared.offer_of_ne_accepted
    rcases ho : s.offer i row with ⟨t, r⟩
    rw [ho] at hsame
    by_cases hr : r = .ok .accepted
    · subst hr
      have haccepted : (s.offer i row).2 = .ok .accepted := by rw [ho]
      have hq : q = ⟨.give i row :: past, l, (s.offer i row).1⟩ := by
        simp [p, q, step, deed?, ho]
      rw [hq]
      exact .inr (.give haccepted)
    · have ht : t = s := hsame hr
      rcases r with f | answer
      · exact .inl (by simp [p, q, step, deed?, ho, ht])
      · cases answer with
        | accepted => exact absurd rfl hr
        | _ => exact .inl (by simp [p, q, step, deed?, ho, ht])

/-- Where a step of a program can lead. -/
theorem step_leads (p : Program α) (past : List Deed) (l : Local) (s : Shared) :
    let q : Position := ⟨(p.deed? l s).toList ++ past, (p.step l s).2.1, (p.step l s).2.2⟩
    q = ⟨past, l, s⟩ ∨ ∃ n, p.node? = some n ∧ n.Leads ⟨past, l, s⟩ q := by
  intro q
  cases p with
  | done a => exact .inl rfl
  | act a next =>
    rcases hp : a.perform l s with ⟨x, l', s'⟩
    cases x with
    | some x =>
      refine .inr ⟨.act a, rfl, ?_⟩
      have hq : q = ⟨a.deed?.toList ++ past, l', s'⟩ := by simp [q, step, deed?, hp]
      rw [hq]
      exact .act hp
    | none =>
      cases a with
      | hold =>
        have hq : l' = l ∧ s' = s := by
          simp only [Action.perform, Prod.mk.injEq] at hp
          exact ⟨hp.2.1.symm, hp.2.2.symm⟩
        exact .inl (by simp [q, step, deed?, Action.deed?, hp, hq])
      | _ => simp [Action.perform] at hp
  | receive scan next =>
    cases scan with
    | start => exact .inl (by simp only [q, step, deed?]; split <;> rfl)
    | looking seen =>
      rcases look_cases l s with ⟨i, row, hi, hr, hl⟩ | ⟨hl, hd⟩ | hl
      · refine .inr ⟨.receive, rfl, ?_⟩
        simp only [q, step, deed?, hl, lookDeed?_of_row hi hl]
        exact .take hi hr
      · refine .inr ⟨.receive, rfl, ?_⟩
        simp only [q, step, deed?, hl, lookDeed?_of_ne_row hl (by simp)]
        exact .drop hd
      · refine .inr ⟨.receive, rfl, ?_⟩
        simp only [q, step, deed?, hl, lookDeed?_of_ne_row hl (by simp)]
        exact .pass
    | waiting =>
      rcases look_cases l s with ⟨i, row, hi, hr, hl⟩ | ⟨hl, hd⟩ | hl
      · refine .inr ⟨.receive, rfl, ?_⟩
        simp only [q, step, deed?, hl, lookDeed?_of_row hi hl]
        exact .take hi hr
      · refine .inr ⟨.receive, rfl, ?_⟩
        simp only [q, step, deed?, hl, lookDeed?_of_ne_row hl (by simp)]
        exact .drop hd
      · exact .inl (by simp [q, step, deed?, hl, lookDeed?_of_ne_row hl])
  | deliver i row refused next =>
    exact (step_deliver_leads i row refused next past l s).imp id fun hl =>
      ⟨.deliver i row, rfl, hl⟩

end Program

/-- What a copy is wired to, with all turns at their start. -/
def Branch.origin (b : Branch) : Branch := { b with next := 0 }

@[simp] theorem Branch.origin_advance (b : Branch) : b.advance.origin = b.origin := by
  unfold advance
  split <;> rfl

@[simp] theorem Branch.rowSets_origin (b : Branch) : b.origin.rowSets = b.rowSets := rfl

namespace Local

def origin (l : Local) : Local :=
  .fresh l.info l.inputs (l.outputs.map Branch.origin) (l.errorOutput.map Branch.origin)

/-- What is out of the reach of hooks. -/
def core (l : Local) : Local :=
  { l.origin with errorHandling := l.errorHandling, outcome := l.outcome, status := l.status }

section Core

variable {l l' : Local}

theorem info_of_origin (h : l'.origin = l.origin) : l'.info = l.info :=
  (congrArg Local.info h :)

theorem inputs_of_origin (h : l'.origin = l.origin) : l'.inputs = l.inputs :=
  (congrArg Local.inputs h :)

theorem outlets_origin (l : Local) : l.origin.outlets = l.outlets := by
  have hbranches : ∀ bs : List Branch, (bs.map Branch.origin).flatMap (·.rowSets) =
      bs.flatMap (·.rowSets) := fun bs => by simp [List.flatMap_map]
  rcases hl : l.errorOutput with _ | b <;>
    simp [outlets, origin, fresh, hl, hbranches, List.flatMap_append]

theorem outlets_of_origin (h : l'.origin = l.origin) : l'.outlets = l.outlets := by
  rw [← outlets_origin l', h, outlets_origin]

theorem branch?_origin (l : Local) (outlet : Outlet) :
    l.origin.branch? outlet = (l.branch? outlet).map Branch.origin := by
  cases outlet with
  | output place => exact List.getElem?_map
  | error => rfl

theorem outcome_of_core (h : l'.core = l.core) : l'.outcome = l.outcome :=
  (congrArg Local.outcome h :)

theorem status_of_core (h : l'.core = l.core) : l'.status = l.status :=
  (congrArg Local.status h :)

end Core

end Local

/-- No action changes what a copy is wired to. -/
theorem Node.Leads.origin {n : Node} {p q : Position} (h : n.Leads p q) :
    q.own.origin = p.own.origin := by
  cases h with
  | @act a p x l s h =>
    cases a with
    | choose outlet =>
      simp only [Action.perform, Prod.mk.injEq] at h
      obtain ⟨-, rfl, -⟩ := h
      cases outlet with
      | output place =>
        have hmodify : ∀ (bs : List Branch) (i : Nat),
            (bs.modify i Branch.advance).map Branch.origin = bs.map Branch.origin := by
          intro bs i
          refine List.ext_getElem? fun j => ?_
          by_cases hj : i = j <;> simp [hj, Function.comp_def]
        simp [Local.choose, Local.passTurn, Local.origin, Local.fresh, hmodify]
      | error =>
        simp [Local.choose, Local.passTurn, Local.origin, Local.fresh, Function.comp_def]
    | hold =>
      simp only [Action.perform, Prod.mk.injEq] at h
      obtain ⟨-, rfl, -⟩ := h
      rfl
    | _ =>
      simp only [Action.perform, Prod.mk.injEq] at h
      obtain ⟨-, rfl, -⟩ := h
      rfl
  | pass => rfl
  | drop _ => rfl
  | take _ _ => rfl
  | give _ => rfl

/-- A copy at a later time: it is still wired as it was, and what is shared has gone up. -/
structure Position.Later (p q : Position) : Prop where
  origin : q.own.origin = p.own.origin
  shared : p.shared ≤ q.shared

namespace Program

variable {α : Type} {W : Shared → Prop}

/-- Every program leads to later positions. -/
theorem keeps_later (p : Program α) (pos : Position) :
    p.Keeps W (fun _ => pos.Later) (fun _ => pos.Later) pos := by
  have hstable : Stable W pos.Later := by
    intro q q' hd _ h
    obtain ⟨b, hb⟩ := hd.own
    refine ⟨?_, le_trans h.shared hd.shared⟩
    rw [hb]
    exact h.origin
  have hleads : ∀ (n : Node) (q q' : Position), True → W q.shared → pos.Later q →
      n.Leads q q' → pos.Later q' := fun n q q' _ _ h hl =>
    ⟨hl.origin.trans h.origin, le_trans h.shared hl.shared_le⟩
  exact (p.within_all.keeps hstable hleads ⟨rfl, le_refl _⟩).mono (fun _ _ _ hg => hg.2)
    fun _ _ _ hq => hq

/-- What is true at all later positions lasts through every program. -/
theorem keeps_lasting {P : Position → Prop} {p : Program α} {pos : Position}
    (h : ∀ q, pos.Later q → P q) : p.Keeps W (fun _ => P) (fun _ => P) pos :=
  (p.keeps_later pos).mono (fun _ q _ hq => h q hq) fun _ q _ hq => h q hq

end Program

def Mark.Inner : Mark → Prop
  | enter _ => False
  | exit _ _ => False
  | _ => True

namespace Action

/-- What hooks ask for comes down to such actions and marks. -/
def Plain : Action → Prop
  | mark _ => False
  | detach _ => False
  | leaveInputs => False
  | allowErrors _ => False
  | settle _ => False
  | publish _ => False
  | _ => True

def Basic : Action → Prop
  | giveReason _ => False
  | raiseFlag => False
  | hold => False
  | a => a.Plain

def Signal : Action → Prop
  | giveReason _ => True
  | raiseFlag => True
  | countErrors _ => True
  | countSourceRows _ => True
  | add _ _ => True
  | _ => False

def Inner : Action → Prop
  | mark m => m.Inner
  | a => a.Plain

end Action

namespace Node

def Plain : Node → Prop
  | act a => a.Plain
  | _ => True

def Basic : Node → Prop
  | act a => a.Basic
  | _ => True

def Signal : Node → Prop
  | act a => a.Signal
  | _ => False

def Inner : Node → Prop
  | act a => a.Inner
  | _ => True

theorem Basic.plain {n : Node} (h : n.Basic) : n.Plain := by
  cases n with
  | act a => cases a <;> first | exact h | exact absurd h id
  | _ => trivial

theorem Signal.plain {n : Node} (h : n.Signal) : n.Plain := by
  cases n with
  | act a => cases a <;> trivial
  | _ => trivial

theorem Plain.inner {n : Node} (h : n.Plain) : n.Inner := by
  cases n with
  | act a =>
    cases a with
    | mark m => exact absurd h id
    | _ => exact h
  | _ => trivial

end Node

def Deed.Inner : Deed → Prop
  | mark m => m.Inner
  | _ => True

theorem Node.Leads.core {n : Node} {p q : Position} (h : n.Leads p q) (hn : n.Inner) :
    q.own.core = p.own.core := by
  have horigin := h.origin
  cases h with
  | @act a p x l s h =>
    cases a
    case detach | leaveInputs | allowErrors | settle | publish => exact absurd hn id
    all_goals
      simp only [Action.perform, Prod.mk.injEq] at h
      obtain ⟨-, rfl, -⟩ := h
      simp only [Local.core, horigin]
    case choose outlet => cases outlet <;> rfl
  | pass => rfl
  | drop _ => rfl
  | take _ _ => rfl
  | give _ => rfl

/-- Of a position before a hook and one in the middle of it or after it. -/
structure Position.Inside (p q : Position) : Prop where
  past : ∃ deeds : List Deed, (∀ d ∈ deeds, d.Inner) ∧ q.past = deeds ++ p.past
  core : q.own.core = p.own.core
  shared : p.shared ≤ q.shared

namespace Position

theorem Inside.refl (p : Position) : p.Inside p := ⟨⟨[], by simp⟩, rfl, le_refl _⟩

theorem Inside.drift {p q r : Position} (h : p.Inside q) (hd : q.Drift r) : p.Inside r := by
  obtain ⟨b, hb⟩ := hd.own
  refine ⟨?_, ?_, le_trans h.shared hd.shared⟩
  · rw [hd.past]
    exact h.past
  · rw [hb]
    exact h.core

theorem Inside.leads {p q r : Position} {n : Node} (h : p.Inside q) (hn : n.Inner)
    (hl : n.Leads q r) : p.Inside r := by
  obtain ⟨deeds, hdeeds, hpast⟩ := h.past
  refine ⟨?_, (hl.core hn).trans h.core, le_trans h.shared hl.shared_le⟩
  have more : ∀ d : Deed, d.Inner → ∃ deeds : List Deed, (∀ d ∈ deeds, d.Inner) ∧
      d :: q.past = deeds ++ p.past := fun d hd =>
    ⟨d :: deeds, by simpa using ⟨hd, hdeeds⟩, by rw [hpast]; rfl⟩
  cases hl with
  | @act a p x l s h =>
    cases a with
    | mark m => exact more (.mark m) hn
    | _ => exact ⟨deeds, hdeeds, hpast⟩
  | pass => exact ⟨deeds, hdeeds, hpast⟩
  | drop _ => exact ⟨deeds, hdeeds, hpast⟩
  | take _ _ => exact more _ trivial
  | give _ => exact more _ trivial

end Position

namespace Program

variable {α : Type} {W : Shared → Prop}

theorem within_stop (r : StopReason) : (stop r).Within Node.Signal :=
  (within_perform (a := .giveReason r) trivial).bind fun _ =>
    within_perform (a := .raiseFlag) trivial

theorem within_addRunErrors (n : Nat) : (addRunErrors n).Within Node.Signal := by
  refine (within_perform (a := .countErrors n) trivial).bind fun tally => ?_
  split
  · exact (within_stop _).bind fun _ => within_pure _
  · exact within_pure _

theorem within_recordSourceRows (n : Nat) : (recordSourceRows n).Within Node.Signal := by
  refine (within_perform (a := .countSourceRows n) trivial).bind fun tally => ?_
  split
  · exact (within_stop _).bind fun _ => within_pure _
  · exact within_pure _

theorem within_sendTo (o : Outlet) (row : Row) : (sendTo o row).Within Node.Basic := by
  refine (within_perform (a := .choose o) trivial).bind fun i? => ?_
  cases i? with
  | none => exact within_pure _
  | some i => exact ⟨trivial, fun _ => trivial⟩

theorem within_sendError (row : Row) : (sendError row).Within Node.Basic := by
  refine (within_perform (a := .choose .error) trivial).bind fun i? => ?_
  cases i? with
  | none => exact within_pure _
  | some i =>
    refine (within_perform (a := .isStopped) trivial).bind fun stopped => ?_
    split
    · exact within_pure _
    · exact ⟨trivial, fun _ => trivial⟩

theorem within_addError : addError.Within Node.Signal :=
  (within_perform (a := .add .errors 1) trivial).bind fun _ =>
    (within_addRunErrors 1).bind fun _ => within_pure _

theorem within_closeAll (places : List Nat) : (closeAll places).Within Node.Basic := by
  induction places with
  | nil => exact within_pure _
  | cons i rest ih => exact (within_perform (a := .close i) trivial).bind fun _ => ih

theorem within_endOutput : endOutput.Within Node.Basic := by
  refine (within_perform (a := .own) trivial).bind fun l => ?_
  split
  · exact within_pure _
  · exact (within_perform (a := .endOutput) trivial).bind fun _ => within_closeAll _

variable (p : Position)

theorem steady_inside {q : Program α} (h : q.Within Node.Inner) :
    q.Steady W (fun n q => n.Inner ∧ p.Inside q) p.Inside := fun _ hpos =>
  h.keeps (fun _ _ hd _ hi => hi.drift hd) (fun _ _ _ hn _ hi hl => hi.leads hn hl) hpos

theorem survives_inside : Survives W (fun n q => n.Inner ∧ p.Inside q) p.Inside where
  stable _ _ hd _ hi := hi.drift hd
  get := steady_inside p (within_perform (a := .mark .get) trivial)
  got row := steady_inside p (within_perform (a := .mark (.got row)) trivial)
  put row := steady_inside p (within_perform (a := .mark (.put row)) trivial)
  putDone r := steady_inside p (within_perform (a := .mark (.putDone r)) trivial)
  reject row d := steady_inside p (within_perform (a := .mark (.reject row d)) trivial)
  rejectDone r := steady_inside p (within_perform (a := .mark (.rejectDone r)) trivial)
  own := steady_inside p (within_perform (a := .own) trivial)
  isStopped := steady_inside p (within_perform (a := .isStopped) trivial)
  add c n := steady_inside p (within_perform (a := .add c n) trivial)
  note n := steady_inside p (within_perform (a := .note n) trivial)
  receive := steady_inside p ⟨trivial, fun _ => trivial⟩
  sendTo _ row := steady_inside p ((within_sendTo _ row).mono fun _ h => h.plain.inner)
  sendError row := steady_inside p ((within_sendError row).mono fun _ h => h.plain.inner)
  addOneError := steady_inside p ((within_addRunErrors 1).mono fun _ h => h.plain.inner)
  recordOneRow := steady_inside p ((within_recordSourceRows 1).mono fun _ h => h.plain.inner)
  endOutput := steady_inside p (within_endOutput.mono fun _ h => h.plain.inner)

/-- What is out of the reach of a hook is after it as it was before. -/
theorem keeps_inside (b : Behaviour α) :
    b.program.Keeps W (fun n q => n.Inner ∧ p.Inside q) (fun _ => p.Inside) p := by
  have hrequest : ∀ q : Request, True →
      q.program.Steady W (fun n q => n.Inner ∧ p.Inside q) p.Inside := by
    intro q _
    refine (survives_inside p).request fun _ => ?_
    cases q with
    | stop r => exact steady_inside p ((within_stop r).mono fun _ h => h.plain.inner)
    | addRunErrors n =>
      exact steady_inside p ((within_addRunErrors n).mono fun _ h => h.plain.inner)
    | recordSourceRows n =>
      exact steady_inside p ((within_recordSourceRows n).mono fun _ h => h.plain.inner)
    | hold => exact steady_inside p (within_perform (a := .hold) trivial)
    | _ => contradiction
  exact steady_behaviour (survives_inside p).stable hrequest b.asks_all p (.refl p)

end Program
end RowFlow
