import RowFlow.Proofs.Program.Effects
import RowFlow.Proofs.Run.Watch

/-
What there is to tell of a run while it goes on: what each copy does, one thing after the
other (`Run.did`), and the reasons that are given to stop it (`Run.given`).  The reason
for which a run stops is the first of them (`reason_after`).
-/
namespace RowFlow
namespace Run

def along {α : Type} (f : Run → Event → Option α) (r : Run) : List Event → List α
  | [] => []
  | e :: rest => (f r e).toList ++ along f (r.happen e) rest

theorem along_concat {α : Type} (f : Run → Event → Option α) (r : Run) (events : List Event)
    (e : Event) :
    r.along f (events ++ [e]) = r.along f events ++ (f (r.after events) e).toList := by
  induction events generalizing r with
  | nil => simp [along]
  | cons e' rest ih => simp [along, ih]

theorem exists_of_mem_along {α : Type} {f : Run → Event → Option α} {r : Run}
    {events : List Event} {a : α} (h : a ∈ r.along f events) :
    ∃ past e, f (r.after past) e = some a := by
  induction events generalizing r with
  | nil => cases h
  | cons e rest ih =>
    rcases List.mem_append.mp h with hnow | hrest
    · exact ⟨[], e, Option.mem_toList.mp hnow⟩
    · obtain ⟨past, e', ha⟩ := ih hrest
      exact ⟨e :: past, e', ha⟩

def doing? (place : Nat) (r : Run) (e : Event) : Option Doing :=
  if e = .copy place then r.net.copies[place]?.bind (·.doing? r.net.shared) else none

/-- What the copy at the place has done in a course, the latest last. -/
def did (r : Run) (events : List Event) (place : Nat) : List Doing := r.along (doing? place) events

/-- The reason to stop that is given by the event: by a copy, by the chief if a copy could
not start, or from outside. -/
def reason? (r : Run) : Event → Option StopReason
  | .copy place => (doing? place r (.copy place)).bind Doing.reason?
  | .chief =>
    match r.phase with
    | .refusing x => some (.stepFailed x.step)
    | _ => none
  | .stop place => if r.stops[place]? = some .giveReason then some .external else none
  | _ => none

/-- The reasons to stop that were given in a course, the latest last. -/
def given (r : Run) (events : List Event) : List StopReason := r.along reason? events

variable {r : Run} {e : Event} {place : Nat} {c c' : Copy}

theorem doing?_of_does {d : Doing} (h : r.Does e place c d c')
    (hc : r.net.copies[place]? = some c) : doing? place r e = some d := by
  rw [doing?, if_pos h.event, hc]
  exact h.doing

theorem exists_does {d : Doing} (h : doing? place r e = some d) :
    ∃ c, r.net.copies[place]? = some c ∧ r.Does e place c d (c.step r.net.shared).1 := by
  rw [doing?] at h
  split at h
  · next he =>
    subst he
    obtain ⟨c, hc, hd⟩ := Option.bind_eq_some_iff.mp h
    refine ⟨c, hc, ?_⟩
    rcases does_or_skips hc with ⟨d', hdoes⟩ | ⟨hskips, -⟩
    · obtain rfl := Option.some.inj (hdoes.doing.symm.trans hd)
      exact hdoes
    · rw [hskips.doing rfl] at hd
      cases hd
  · cases h

theorem doing?_of_ne {other : Nat} {d : Doing} (h : r.Does e place c d c') (hne : other ≠ place) :
    doing? other r e = none := by
  rw [doing?, if_neg]
  rw [h.event]
  simpa using Ne.symm hne

theorem doing?_of_skips (h : r.Skips e place c c') (hc : r.net.copies[place]? = some c) :
    doing? place r e = none := by
  rw [doing?]
  split
  · next he =>
    rw [hc]
    exact h.doing he
  · rfl

theorem doing?_of_pauses (h : r.Pauses e) (place : Nat) : doing? place r e = none := by
  cases hc : r.net.copies[place]? with
  | none => simp [doing?, hc]
  | some c =>
    have hlt : place < (r.happen e).net.copies.length := by
      rw [length_copies_happen]
      exact (List.getElem?_eq_some_iff.mp hc).1
    obtain ⟨c₁, hc₁, hskips⟩ := h.skips place _ (List.getElem?_eq_getElem hlt)
    exact doing?_of_skips hskips hc₁

/-- What each doing of a copy keeps, and nothing else breaks, holds of what the copy has
done all the way. -/
theorem minded_did {w : Watch} {R : Regime w} (hR : R.Lawful)
    {F : w.State → Local → List Doing → Prop}
    (hrests : ∀ x l l' ds, F x l ds → l.Rests l' → F x l' ds)
    (hnext : ∀ x d z (p q : Position) ds, F x p.own ds → w.Next x d z → d.Leads p q →
      F z q.own (ds ++ [d]))
    {x : w.State} (hc : r.net.copies[place]? = some c) (hminds : R.Minds c r.net.shared x)
    (h : F x c.own []) (events : List Event) :
    ∀ c', (r.after events).net.copies[place]? = some c' → ∃ z,
      R.Minds c' (r.after events).net.shared z ∧ F z c'.own (r.did events place) := by
  induction events using List.reverseRecOn with
  | nil =>
    intro c' hc'
    obtain rfl := Option.some.inj (hc.symm.trans hc')
    exact ⟨x, hminds, h⟩
  | append_singleton events e ih =>
    intro c₂ hc₂
    rw [after_concat] at hc₂ ⊢
    obtain ⟨c₁, hc₁, ⟨d, hd⟩ | hskips⟩ := goes_happen hc₂
    · obtain ⟨x₁, hminds₁, hx₁⟩ := ih c₁ hc₁
      obtain ⟨z, hz, hminds₂⟩ := hminds₁.goes hR hd.goes
      refine ⟨z, hminds₂, ?_⟩
      rw [did, along_concat, doing?_of_does hd hc₁]
      exact hnext x₁ d z _ _ _ hx₁ hz (hd.goes.leads [])
    · obtain ⟨x₁, hminds₁, hx₁⟩ := ih c₁ hc₁
      refine ⟨x₁, (hminds₁.waits hR hskips.waits).later ((r.after events).shared_le_happen e), ?_⟩
      rw [did, along_concat, doing?_of_skips hskips hc₁, Option.toList_none, List.append_nil]
      exact hrests x₁ _ _ _ hx₁ hskips.waits.rests

theorem reason_copy (r : Run) (place : Nat) : (r.happen (.copy place)).control.reason =
    r.control.reason.or (r.reason? (.copy place)) := by
  rw [reason?, doing?, if_pos rfl]
  cases hc : r.net.copies[place]? with
  | none => simp [happen, Net.step, hc]
  | some c =>
    have hgoes := c.goes_step r.net.shared
    have hshared : (r.happen (.copy place)).net.shared = (c.step r.net.shared).2 := by
      rw [net_happen_copy hc]
    rw [Option.bind_some, control, hshared]
    cases hd : c.doing? r.net.shared with
    | none =>
      rw [hd] at hgoes
      rw [hgoes.rests.2.2, Option.bind_none, Option.or_none, control]
    | some d =>
      rw [hd] at hgoes
      exact (hgoes.leads []).control_reason

theorem reason_chief (r : Run) :
    (r.happen .chief).control.reason = r.control.reason.or (r.reason? .chief) := by
  have hnothing : r.control.reason = r.control.reason.or none := by rw [Option.or_none]
  show (r.chief?.getD r).control.reason = _
  rw [chief?, reason?]
  cases r.phase with
  | preparing =>
    dsimp only
    split
    · split <;> exact hnothing
    · exact hnothing
  | refusing x => rfl
  | abandoning x gone =>
    dsimp only
    split
    · exact hnothing
    · split
      · exact hnothing
      · split <;> exact hnothing
  | _ => exact hnothing

theorem reason_stop (r : Run) (place : Nat) : (r.happen (.stop place)).control.reason =
    r.control.reason.or (r.reason? (.stop place)) := by
  have hnothing : r.control.reason = r.control.reason.or none := by rw [Option.or_none]
  show ((r.move? (.stop place)).getD r).control.reason = _
  rw [move?, reason?]
  cases hs : r.stops[place]? with
  | none => exact hnothing
  | some call =>
    cases call with
    | giveReason => rfl
    | cancel places => cases places <;> exact hnothing
    | _ => exact hnothing

theorem reason_happen (r : Run) (e : Event) :
    (r.happen e).control.reason = r.control.reason.or (r.reason? e) := by
  cases e with
  | copy place => exact r.reason_copy place
  | chief => exact r.reason_chief
  | stop place => exact r.reason_stop place
  | prepare =>
    by_cases h : r.phase = .created <;>
      simp [happen, beginPreparation, h, reason?, control, Net.modifyAll]
  | start =>
    by_cases h : r.phase = .prepared <;> simp [happen, start, h, reason?, control, Net.modifyAll]
  | requestStop => simp [happen, requestStop, reason?, control]
  | finish =>
    by_cases h : r.phase = .running ∧ r.net.allGone = true <;>
      simp [happen, finish, h, reason?, control]

/-- Only the first reason counts. -/
theorem reason_after (r : Run) (events : List Event) :
    (r.after events).control.reason = r.control.reason.or (r.given events).head? := by
  induction events generalizing r with
  | nil => cases h : r.control.reason <;> simp [given, along, h]
  | cons e rest ih =>
    have hcons : r.given (e :: rest) = (r.reason? e).toList ++ (r.happen e).given rest := rfl
    rw [after_cons, ih, reason_happen, hcons]
    cases r.control.reason with
    | some x => simp
    | none => cases r.reason? e <;> simp

end Run
end RowFlow
