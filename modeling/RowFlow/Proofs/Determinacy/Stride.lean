import RowFlow.Proofs.Determinacy.Mirror

/-
What a single action does, and what it keeps.  Of row sets a copy touches only its own
(`touches_step`).  What a program has to keep to it keeps to at each of its steps, and
what it is bound to do next it has then done or is bound to do still.
-/
namespace RowFlow
namespace Program

variable {α : Type} {o l : Local} {s : Shared}

/-- What one action of a copy does to row sets, of which it reads some and writes some; it
leaves an input only when it is going to give up all of them. -/
inductive Touches (inputs outlets : List Nat) (parts : Prop) (xs : List RowSet) :
    Option Trade → List RowSet → Prop
  | nothing : Touches inputs outlets parts xs none xs
  | took {i : Nat} {rs : RowSet} {row : Row} {rest : List Row} (hi : i ∈ inputs)
      (hrs : xs[i]? = some rs) (hbuffer : rs.buffer = row :: rest) :
      Touches inputs outlets parts xs (some (.took row)) (xs.set i { rs with buffer := rest })
  | accepted {i : Nat} {rs : RowSet} (row : Row) (layout : Option Schema) (hi : i ∈ outlets)
      (hrs : xs[i]? = some rs) (hopen : rs.closed = false) (hstay : rs.detached = false) :
      Touches inputs outlets parts xs (some (.put i row))
        (xs.set i { rs with buffer := rs.buffer ++ [row], layout := layout })
  | discarded {i : Nat} {rs : RowSet} (row : Row) (hi : i ∈ outlets) (hrs : xs[i]? = some rs)
      (hopen : rs.closed = false) (hleft : rs.detached = true) :
      Touches inputs outlets parts xs (some (.put i row)) xs
  | refused (i : Nat) (row : Row) (f : Fault) :
      Touches inputs outlets parts xs (some (.refused i row f)) xs
  | ended {i : Nat} {rs : RowSet} (hi : i ∈ outlets) (hrs : xs[i]? = some rs) :
      Touches inputs outlets parts xs (some (.ended i)) (xs.set i { rs with closed := true })
  | left {i : Nat} {rs : RowSet} (hi : i ∈ inputs) (hrs : xs[i]? = some rs) (h : parts) :
      Touches inputs outlets parts xs none (xs.set i rs.detach)

section Touches

variable {inputs outlets : List Nat} {parts : Prop}

theorem touches_act {a : Action} (howned : a.Owned o) (hparts : ∀ i, a = .detach i → parts)
    (hexists : ∀ i, i ∈ o.inputs ∨ i ∈ o.outlets → ∃ rs, s.rowSets[i]? = some rs) :
    Touches o.inputs o.outlets parts s.rowSets a.trade? (a.perform l s).2.2.rowSets := by
  cases a with
  | close i =>
    obtain ⟨rs, hrs⟩ := hexists i (.inr howned)
    have hclose : rs.close.1 = { rs with closed := true } := by
      unfold RowSet.close
      split
      · next h => rw [← h]
      · rfl
    have hshared : (s.close i).1.rowSets = s.rowSets.set i { rs with closed := true } := by
      simp [Shared.close, hrs, hclose]
    show Touches _ _ _ _ (some (.ended i)) (s.close i).1.rowSets
    rw [hshared]
    exact .ended howned hrs
  | detach i =>
    obtain ⟨rs, hrs⟩ := hexists i (.inl howned)
    have hshared : (s.detach i).rowSets = s.rowSets.set i rs.detach := by
      simp [Shared.detach, List.modify_eq_set_getElem?, hrs]
    show Touches _ _ _ _ none (s.detach i).rowSets
    rw [hshared]
    exact .left howned hrs (hparts i rfl)
  | _ => exact .nothing

theorem touches_look {scan : Scan} {next : Option Row → Program α}
    (hpending : ∀ i ∈ l.pending, i ∈ inputs) :
    Touches inputs outlets parts s.rowSets ((receive scan next).trade? l s)
      ((receive scan next).step l s).2.2.rowSets := by
  by_cases hscan : scan = .start
  · subst hscan
    simp only [step, trade?]
    split <;> exact .nothing
  rw [trade?_receive hscan]
  rcases look_cases l s with ⟨i, row, hi, hrow, hlook⟩ | ⟨hlook, -⟩ | hlook
  · have hstep : ((receive scan next).step l s).2.2 = (s.poll i).1 := by
      cases scan <;> first | exact absurd rfl hscan | simp [step, hlook]
    rw [hstep, hlook]
    unfold Shared.poll at hrow ⊢
    split at hrow
    · cases hrow
    · next rs hrs =>
      unfold RowSet.poll at hrow ⊢
      split at hrow
      · next first rest hbuffer =>
        cases hrow
        exact .took (hpending i (List.mem_of_getElem? hi)) hrs hbuffer
      · split at hrow <;> cases hrow
  · have hstep : ((receive scan next).step l s).2.2 = s := by
      cases scan <;> first | exact absurd rfl hscan | simp [step, hlook]
    rw [hstep, hlook]
    exact .nothing
  · have hstep : ((receive scan next).step l s).2.2 = s := by
      cases scan <;> first | exact absurd rfl hscan | simp [step, hlook]
    rw [hstep, hlook]
    exact .nothing

theorem touches_offer {i : Nat} {row : Row} {next : Except Fault Delivery → Program α}
    {rs : RowSet} (hi : i ∈ outlets) (hrs : s.rowSets[i]? = some rs) :
    Touches inputs outlets parts s.rowSets ((deliver i row false next).trade? l s)
      ((deliver i row false next).step l s).2.2.rowSets := by
  have ho := offered hrs row
  generalize hoffer : s.offer i row = answer at ho
  cases ho with
  | ended hclosed => simpa [step, trade?, hoffer] using Touches.refused i row _
  | discarded hopen hleft => simpa [step, trade?, hoffer] using .discarded row hi hrs hopen hleft
  | full hopen => simpa [step, trade?, hoffer] using Touches.nothing
  | clash reason hopen => simpa [step, trade?, hoffer] using Touches.refused i row _
  | accepted layout hopen hstay =>
    simpa [step, trade?, hoffer] using .accepted row layout hi hrs hopen hstay

theorem touches_step {p : Program α} (hp : p.Secluded o) (hpending : ∀ i ∈ l.pending, i ∈ o.inputs)
    (hexists : ∀ i, i ∈ o.inputs ∨ i ∈ o.outlets → ∃ rs, s.rowSets[i]? = some rs) :
    Touches o.inputs o.outlets (p.step l s).1.Parting s.rowSets (p.trade? l s)
      (p.step l s).2.2.rowSets := by
  cases p with
  | done a => exact .nothing
  | act a next =>
    rw [snd_step_act]
    refine touches_act hp.1 (fun i ha => ?_) hexists
    subst ha
    exact (hp.2.1 ()).detach i rfl
  | receive scan next => exact touches_look hpending
  | deliver i row refused next =>
    cases refused with
    | true =>
      simp only [step, trade?]
      split <;> exact .nothing
    | false =>
      obtain ⟨rs, hrs⟩ := hexists i (.inr hp.1)
      exact touches_offer hp.1 hrs

end Touches

section Step

variable {p : Program α}

theorem step_act_induction {P : Program α → Prop} {a : Action} {next : a.Answer → Program α}
    (hnext : ∀ x, P (next x)) (hagain : P (act a next)) : P ((act a next).step l s).1 := by
  cases hx : (a.perform l s).1 with
  | none =>
    rw [step_act_none hx]
    exact hagain
  | some x =>
    rw [step_act_some hx]
    exact hnext x

theorem step_receive_induction {P : Program α → Prop} {next : Option Row → Program α}
    (hnext : ∀ x, P (next x)) (hagain : ∀ scan, P (receive scan next)) (scan : Scan) :
    P ((receive scan next).step l s).1 := by
  have hscan : ∀ seen l, P (scanOn seen l next) := by
    intro seen l
    unfold scanOn
    repeat' split
    all_goals first | exact hagain _ | exact hnext _
  cases scan with
  | start =>
    simp only [step]
    split
    · exact hnext _
    · exact hagain _
  | looking seen =>
    simp only [step]
    split
    · exact hnext _
    · exact hscan _ _
    · exact hscan _ _
  | waiting =>
    simp only [step]
    split
    · exact hnext _
    · exact hagain _
    · exact hagain _

theorem step_deliver_induction {P : Program α → Prop} {i : Nat}
    {next : Except Fault Delivery → Program α} (hnext : ∀ x, P (next x))
    (hagain : ∀ row refused, P (deliver i row refused next)) (row : Row) (refused : Bool) :
    P ((deliver i row refused next).step l s).1 := by
  cases refused with
  | true =>
    simp only [step]
    split
    · exact hnext _
    · exact hagain _ _
  | false =>
    simp only [step]
    split
    · exact hnext _
    · exact hnext _
    · exact hagain _ _
    · exact hnext _

theorem secluded_step (hp : p.Secluded o) (ho : l.origin = o) : (p.step l s).1.Secluded o := by
  cases p with
  | done a => trivial
  | act a next =>
    cases hx : (a.perform l s).1 with
    | none =>
      rw [step_act_none hx]
      exact hp
    | some x =>
      rw [step_act_some hx]
      exact (hp.2.2 x (ho ▸ Action.says_perform hx)).2.2
  | receive scan next => exact step_receive_induction hp (fun _ => hp) scan
  | deliver i row refused next => exact step_deliver_induction hp.2.2 (fun _ _ => hp) row refused

/-- A program that raises the flag before its end has still to do so. -/
theorem doomed_step {D : α → Prop} (hp : p.Doomed D)
    (hdown : (p.step l s).2.2.control.stopped = false) : (p.step l s).1.Doomed D := by
  cases p with
  | done a => exact hp
  | act a next =>
    rcases hp with rfl | hp
    · cases hdown
    · exact step_act_induction hp (.inr hp)
  | receive scan next => exact step_receive_induction hp (fun _ => hp) scan
  | deliver i row refused next => exact step_deliver_induction hp (fun _ _ => hp) row refused

theorem parting_step (hp : p.Parting) :
    (p.step l s).1.Parting ∨ (p.step l s).2.1.pending = [] := by
  cases p with
  | done a => exact absurd hp id
  | act a next =>
    rcases hp with rfl | hp
    · exact .inr rfl
    · exact .inl (step_act_induction hp (.inr hp))
  | receive scan next => exact absurd hp id
  | deliver i row refused next =>
    exact .inl (step_deliver_induction hp (fun _ _ => hp) row refused)

theorem closing_step {i : Nat} (hp : p.Closing i) :
    (p.step l s).1.Closing i ∨ p.trade? l s = some (.ended i) := by
  cases p with
  | act a next =>
    rcases hp with rfl | hp
    · exact .inr rfl
    · exact .inl (step_act_induction hp (.inr hp))
  | _ => exact absurd hp id

theorem strict_step {D : α → Prop} (hp : p.Strict D) : (p.step l s).1.Strict D := by
  cases p with
  | done a => trivial
  | act a next => exact step_act_induction hp hp
  | receive scan next => exact step_receive_induction hp (fun _ => hp) scan
  | deliver i row refused next => exact step_deliver_induction hp.2 (fun _ _ => hp) row refused

theorem exists_deliver_of_clash {d : Trade} (hd : p.trade? l s = some d) (hclash : d.Clash) :
    ∃ i row next f, p = deliver i row false next ∧ (s.offer i row).2 = .error f ∧ f.Clash := by
  cases p with
  | done a => cases hd
  | act a next =>
    cases a <;> cases hd
    exact absurd hclash id
  | receive scan next =>
    by_cases hscan : scan = .start
    · subst hscan
      cases hd
    · rw [trade?_receive hscan] at hd
      split at hd <;> cases hd
      exact absurd hclash id
  | deliver i row refused next =>
    cases refused with
    | true => cases hd
    | false =>
      simp only [trade?] at hd
      split at hd <;> cases hd
      · exact absurd hclash id
      · exact absurd hclash id
      · next f hoffer => exact ⟨i, row, next, f, rfl, hoffer, hclash⟩

theorem doomed_step_of_clash {D : α → Prop} {d : Trade} (hp : p.Strict D)
    (hd : p.trade? l s = some d) (hclash : d.Clash) : (p.step l s).1.Doomed D := by
  obtain ⟨i, row, next, f, rfl, hoffer, hf⟩ := exists_deliver_of_clash hd hclash
  rcases ho : s.offer i row with ⟨t, answer⟩
  rw [ho] at hoffer
  cases hoffer
  simpa [step, ho] using hp.1 f hf

theorem outputDone_step (p : Program α) (l : Local) (s : Shared) :
    (p.step l s).2.1.outputDone = l.outputDone ∨ ∃ next, p = act .endOutput next := by
  cases p with
  | done a => exact .inl rfl
  | act a next =>
    rw [snd_step_act]
    cases a with
    | endOutput => exact .inr ⟨next, rfl⟩
    | choose outlet => cases outlet <;> exact .inl rfl
    | _ => exact .inl rfl
  | receive scan next =>
    refine .inl ?_
    cases scan <;> (simp only [step]; split <;> rfl)
  | deliver i row refused next =>
    refine .inl ?_
    cases refused <;> (simp only [step]; split <;> rfl)

theorem outputDone_mono_step (p : Program α) (h : l.outputDone = true) :
    (p.step l s).2.1.outputDone = true := by
  rcases p.outputDone_step l s with hsame | ⟨next, rfl⟩
  · exact hsame.trans h
  · rfl

/-- A copy that says that its outputs have ended is going to end them. -/
theorem closing_of_outputDone (hp : p.Secluded o) (h : l.outputDone = false)
    (hdone : (p.step l s).2.1.outputDone = true) {i : Nat} (hi : i ∈ o.outlets) :
    (p.step l s).1.Closing i := by
  rcases p.outputDone_step l s with hsame | ⟨next, rfl⟩
  · rw [hsame, h] at hdone
    cases hdone
  · exact (hp.2.1 ()).endOutput rfl i hi

theorem late_step (hp : p.Late) :
    (p.step l s).1.Late ∨ (p.step l s).2.1.outputDone = true := by
  cases p with
  | done a => exact .inl trivial
  | act a next =>
    cases a with
    | own => exact (hp l).symm
    | endOutput => exact .inr rfl
    | _ =>
      rcases hp with ha | hp
      · cases ha
      · exact .inl (step_act_induction hp (.inr hp))
  | receive scan next => exact .inl (step_receive_induction hp (fun _ => hp) scan)
  | deliver i row refused next => exact absurd hp id

/-- Row sets that have ended refuse a row before they look at its layout. -/
theorem not_clash_of_late (hp : p.Secluded o) (hlate : p.Late ∨ l.outputDone = true)
    (hended : l.outputDone = true → ∀ i ∈ o.outlets, p.Closing i ∨
      ∃ rs, s.rowSets[i]? = some rs ∧ rs.closed = true)
    {d : Trade} (hd : p.trade? l s = some d) : ¬ d.Clash := by
  intro hclash
  obtain ⟨i, row, next, f, rfl, hoffer, hf⟩ := exists_deliver_of_clash hd hclash
  have hdone : l.outputDone = true := hlate.resolve_left id
  obtain ⟨rs, hrs, hclosed⟩ := (hended hdone i hp.1).resolve_left id
  have hanswer : (s.offer i row).2 = .error (.rowSetClosed rs.name) := by
    simp [Shared.offer, hrs, RowSet.offer_of_closed hclosed]
  rw [hanswer] at hoffer
  cases hoffer
  exact hf

theorem pending_leads {n : Node} {q q' : Position} (h : n.Leads q q') :
    q'.own.pending.Sublist q.own.pending := by
  cases h with
  | @act a _ x l s h =>
    have hl : l = (a.perform q.own q.shared).2.1 := by rw [h]
    subst hl
    cases a with
    | choose outlet => cases outlet <;> exact List.Sublist.refl _
    | leaveInputs => exact List.nil_sublist _
    | _ => exact List.Sublist.refl _
  | drop _ => exact List.eraseIdx_sublist _ _
  | _ => exact List.Sublist.refl _

theorem pending_step (p : Program α) (l : Local) (s : Shared) :
    (p.step l s).2.1.pending.Sublist l.pending := by
  rcases p.step_leads [] l s with hsame | ⟨n, -, hl⟩
  · rw [show (p.step l s).2.1 = l from congrArg Position.own hsame]
  · exact pending_leads hl

end Step

end Program
end RowFlow
