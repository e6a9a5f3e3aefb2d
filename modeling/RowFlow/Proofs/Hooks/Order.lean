import RowFlow.Proofs.Hooks.Protocol
import RowFlow.Proofs.Run.Made

/-
Hooks are called in order in every run, and states follow each other as they should.
All copies of a run keep the contract of the protocol; what is left is to read off it
what can be seen at any one time, and what a single event can change.
-/
namespace RowFlow

/-- The hook calls of a copy are in order. -/
structure InOrder (past : List Deed) : Prop where
  calls : ∃ n, calls past <+: .init :: List.replicate n .process ++ [.dispose]
  /-- Work follows work only if there may be more, or a failed row was routed. -/
  cause : ∀ before after r, marks past = before ++ .exit .process r :: after →
    .enter .process ∈ after → r = .ok true ∨ ∃ row d, r = .error (.rowFailed row d) ∧
      [.reject row d, .rejectDone (.ok ())] <+: after

/-- A copy before and after an event. -/
structure Local.Follows (before after : Local) : Prop where
  state : after.status.state = before.status.state ∨
    before.status.state.LeadsTo after.status.state
  outcome : ∀ o, before.status.outcome = some o → after.status.outcome = some o

/-- A copy at the end of a run. -/
structure Ended (past : List Deed) (l : Local) : Prop where
  state : l.status.state = .disposed
  calls : ∃ n, RowFlow.calls past = .init :: List.replicate n .process ++ [.dispose]
  outcome : ∃ o, l.status.outcome = some o ∧ l.outcome = some o

/-- What is seen of hooks and states in a run that is on record. -/
structure Record.Orderly (t : Record) : Prop where
  inOrder : ∀ place, InOrder (t.past place)
  /-- Where a copy could not start there is no work. -/
  refusal : ∀ place f, .exit .init (.error f) ∈ marks (t.past place) →
    ∀ other, .enter .process ∉ marks (t.past other)
  outcome : ∀ c ∈ t.run.net.copies, ∀ o, c.own.status.outcome = some o → c.own.outcome = some o
  follows : ∀ (e : Run.Event) (place : Nat) (c c' : Copy), t.run.net.copies[place]? = some c →
    (t.happen e).run.net.copies[place]? = some c' → c.own.Follows c'.own
  ended : t.run.IsOver → ∀ (place : Nat) (c : Copy), t.run.net.copies[place]? = some c →
    Ended (t.past place) c.own

namespace Hooks

open Run

def agreement : Agreement where
  world _ := True
  fits _ := True
  contract op _ := contract op

theorem lawful_agreement : agreement.Lawful where
  contract op _ := lawful_contract op
  leads _ _ _ _ _ _ _ _ _ := trivial
  external _ _ := trivial
  raise _ _ _ := trivial
  refusal _ _ _ _ _ _ _ := trivial

structure Sound (atWork : Bool) (p : Position) : Prop where
  stage : ∃ st, Stage.stage? p.past = some st
  calm : Calm atWork p.past
  agrees : Agrees p.own.status p.own.outcome

theorem Stands.sound {atWork : Bool} {st : Stage} {status : Status} {outcome : Option Outcome}
    {p : Position} (h : Stands atWork st status outcome p) (ha : Agrees status outcome) :
    Sound atWork p where
  stage := ⟨st, h.stage⟩
  calm := h.calm
  agrees := by
    rw [h.status, h.outcome]
    exact ha

theorem implies_sound {W : Shared → Prop} (op : Operator) :
    (contract op : Contract W op).Implies Sound where
  guard b n p := by
    rintro ⟨st, status, outcome, hs, ha, -⟩
    exact hs.sound ha
  made p h := (stands_of_made h).sound (agrees_none _ _)
  ready m p h := Stands.sound h (agrees_none _ _)
  refused m p h := Stands.sound h (agrees_some _ _)
  idle m p h := Stands.sound h (agrees_none _ _)
  leaving m o p := by
    rintro ⟨st, -, h⟩
    exact h.sound (agrees_none _ _)
  gone b p := by
    rintro ⟨o, h⟩
    exact h.sound (agrees_some _ _)

variable {t : Record}

theorem sound_of_kept (h : t.Kept agreement) {place : Nat} {c : Copy}
    (hc : t.run.net.copies[place]? = some c) :
    Sound t.run.phase.atWork ⟨t.past place, c.own, t.run.net.shared⟩ := by
  obtain ⟨_, hholds⟩ := h.copies place c hc
  exact hholds.now (implies_sound c.op) trivial

/-- What an action that the protocol lets through does to what is published. -/
theorem follows_of_leads {atWork : Bool} {n : Node} {p q : Position} (hg : guard atWork n p)
    (hl : n.Leads p q) : p.own.Follows q.own := by
  obtain ⟨st, status, outcome, hs, ha, hn⟩ := hg
  have same : q.own.status = p.own.status → p.own.Follows q.own := fun h => by
    constructor
    · rw [h]
      exact .inl rfl
    · rw [h]
      exact fun _ ho => ho
  by_cases hsilent : Silent n
  · exact same ((hs.silent hsilent hl).status.trans hs.status.symm)
  · cases hl with
    | @act a p x l s hact =>
      cases a with
      | publish state =>
        cases hact
        obtain ⟨hstate, houtcome⟩ := hn
        refine ⟨.inr (hs.status ▸ hstate), fun o ho => ?_⟩
        show state.outcome?.or p.own.status.outcome = some o
        cases hso : state.outcome? with
        | none => exact ho
        | some o' =>
          have hsettled := ha o (hs.status ▸ ho)
          rw [houtcome o' hso] at hsettled
          exact hsettled
      | mark m => cases hact; exact same rfl
      | settle o => cases hact; exact same rfl
      | _ => exact absurd trivial hsilent
    | _ => exact absurd trivial hsilent

/-- An event changes what a copy has published only by a step of the copy. -/
theorem follows_happen (h : t.Kept agreement) (e : Event) {place : Nat} {c c' : Copy}
    (hc : t.run.net.copies[place]? = some c)
    (hc' : (t.happen e).run.net.copies[place]? = some c') : c.own.Follows c'.own := by
  obtain ⟨c₀, hc₀, hstep⟩ := Record.position_happen e hc'
  obtain rfl : c = c₀ := Option.some.inj (hc.symm.trans hc₀)
  rcases hstep with hd | ⟨n, hn, hl⟩
  · obtain ⟨b, hb⟩ := hd.own
    rw [show c'.own = { c.own with cancelled := b } from hb]
    exact ⟨.inl rfl, fun _ ho => ho⟩
  · obtain ⟨_, hg⟩ := (h.copies place c hc).guard trivial hn
    exact follows_of_leads hg hl

/-- At the end of a run every copy is gone. -/
theorem ended_of_kept (h : t.Kept agreement) (hover : t.run.IsOver) {place : Nat} {c : Copy}
    (hc : t.run.net.copies[place]? = some c) : Ended (t.past place) c.own := by
  have hgone := h.staged.gone_of_isOver hover (List.mem_of_getElem? hc)
  obtain ⟨_, hholds⟩ := h.copies place c hc
  obtain ⟨op, own, task⟩ := c
  cases task with
  | gone =>
    obtain ⟨o, hs⟩ := hholds
    refine ⟨?_, Stage.called_of_stage? hs.stage, o, ?_, hs.outcome⟩
    · rw [show own.status = _ from hs.status]
    · rw [show own.status = _ from hs.status]
  | _ => cases hgone

theorem orderly_of_kept (h : t.Kept agreement) : t.Orderly where
  inOrder place := by
    cases hc : t.run.net.copies[place]? with
    | none =>
      rw [h.absent place (List.getElem?_eq_none_iff.mp hc)]
      exact ⟨⟨0, List.nil_prefix⟩, fun before after r hms => by simp at hms⟩
    | some c =>
      obtain ⟨st, hst⟩ := (sound_of_kept h hc).stage
      exact ⟨Stage.calls_prefix hst, fun _ _ _ => Stage.cause_of_process hst⟩
  refusal place f hf other hother := by
    have mem_past : ∀ {place m}, m ∈ marks (t.past place) → .mark m ∈ t.past place := by
      intro place m hm
      obtain ⟨d, hd, hmark⟩ := List.mem_filterMap.mp hm
      cases d with
      | mark m' =>
        cases hmark
        exact List.mem_reverse.mp hd
      | _ => cases hmark
    have calm : ∀ place, Calm t.run.phase.atWork (t.past place) := by
      intro place
      cases hc : t.run.net.copies[place]? with
      | none =>
        rw [h.absent place (List.getElem?_eq_none_iff.mp hc)]
        exact fun m hm => by cases hm
      | some c => exact (sound_of_kept h hc).calm
    have hfailed := calm place _ (mem_past hf)
    have hworked := calm other _ (mem_past hother)
    cases hwork : t.run.phase.atWork with
    | true =>
      rw [hwork] at hfailed
      exact hfailed f rfl
    | false =>
      rw [hwork] at hworked
      exact hworked rfl
  outcome c hc o := by
    obtain ⟨place, hplace⟩ := List.mem_iff_getElem?.mp hc
    exact (sound_of_kept h hplace).agrees o
  follows e place c c' := follows_happen h e
  ended hover place c := ended_of_kept h hover

theorem kept_of_made {d : Definition} {registry : Registry} {config : Config} {plan : Plan}
    {r : Run} (h : Made d registry config plan r) : ({ run := r } : Record).Kept agreement := by
  refine h.kept trivial fun c hc => ?_
  obtain ⟨info, inputs, outputs, errorOutput, hown⟩ := h.own_fresh hc
  refine ⟨trivial, rfl, ?_, ?_⟩
  · rw [hown]
    rfl
  · rw [hown]
    rfl

/-- The protocol holds in every run, whatever its operators do. -/
theorem orderly_record {d : Definition} {registry : Registry} {config : Config} {r : Run}
    (h : make d registry config = .ok r) (events : List Event) :
    (∀ c ∈ r.net.copies, c.own.status.state = .created) ∧ (r.record events).Orderly := by
  obtain ⟨plan, hmade⟩ := made_of_make h
  constructor
  · intro c hc
    obtain ⟨info, inputs, outputs, errorOutput, hown⟩ := hmade.own_fresh hc
    rw [hown]
    rfl
  · exact orderly_of_kept ((kept_of_made hmade).after lawful_agreement events)

theorem orderly_record_counting : (∀ c ∈ countingRun.net.copies, c.own.status.state = .created) ∧
    (countingRun.record countingCourse).Orderly :=
  orderly_record make_counting countingCourse

end Hooks
end RowFlow
