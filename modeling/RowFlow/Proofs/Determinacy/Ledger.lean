import RowFlow.Proofs.Determinacy.Network
import RowFlow.Proofs.Flow.Balance

/-
Ledgers of runs that are not stopped.  While the flag is down nobody cancels the work of a
copy and no copy is given up, so all that happens to a copy is what it does itself
(`Run.strides_happen`).  The trades of the copies agree with the row sets then, and each
copy with itself on its own (`Agrees.after`), if those of whose rows some were refused for
their layout have handed this back.
-/
namespace RowFlow

namespace Run

/-- Nothing has come of a request to stop yet, nor of a copy that could not start. -/
structure Calm (r : Run) : Prop where
  phase : (∀ x gone, r.phase ≠ .abandoning x gone) ∧ ∀ x, r.phase ≠ .refused x
  stops : ∀ call ∈ r.stops, call = .giveReason ∨ call = .raiseFlag

variable {r : Run}

/-- A flag that is down after an event was down before it. -/
theorem down_before_happen {e : Event} (h : (r.happen e).control.stopped = false) :
    r.control.stopped = false := by
  by_contra hup
  have hle := Shared.Le.control (r.shared_le_happen e)
  have hup' := Control.Le.stopped hle (Bool.of_not_eq_false hup)
  rw [show (r.happen e).net.shared.control.stopped = false from h] at hup'
  cases hup'

theorem calm_stop (h : r.Calm) {place : Nat}
    (hdown : (r.happen (.stop place)).control.stopped = false) :
    (r.happen (.stop place)).Calm ∧ (r.happen (.stop place)).net.copies = r.net.copies := by
  cases hcall : r.stops[place]? with
  | none => exact ⟨by simpa [happen, move?, hcall] using h, by simp [happen, move?, hcall]⟩
  | some call =>
    rcases h.stops call (List.mem_of_getElem? hcall) with rfl | rfl
    · have hhappen : r.happen (.stop place) =
          { r.setControl (·.giveReason .external) with stops := r.stops.set place .raiseFlag } := by
        simp [happen, move?, hcall, stopCall?]
        rfl
      rw [hhappen]
      refine ⟨⟨h.phase, fun call hmem => ?_⟩, rfl⟩
      rcases List.mem_or_eq_of_mem_set hmem with hold | rfl
      · exact h.stops call hold
      · exact .inr rfl
    · simp [happen, move?, hcall, stopCall?, setControl, control, Control.raiseFlag] at hdown

theorem calm_happen (h : r.Calm) {e : Event} (hdown : (r.happen e).control.stopped = false) :
    (r.happen e).Calm := by
  by_cases hstop : ∃ place, e = .stop place
  · obtain ⟨place, rfl⟩ := hstop
    exact (calm_stop h hdown).1
  have he := r.effect_happen e
  generalize r.happen e = r' at he hdown
  cases he with
  | nothing _ => exact h
  | requestStop =>
    refine ⟨h.phase, fun call hcall => ?_⟩
    rcases List.mem_append.mp hcall with hold | hnew
    · exact h.stops call hold
    · exact .inl (List.mem_singleton.mp hnew)
  | copy place => exact ⟨h.phase, h.stops⟩
  | raiseFlag _ => cases hdown
  | pass hp _ _ | abandon hp _ _ | close hp _ => exact absurd hp (h.phase.1 _ _)
  | stopReason _ | stopFlag _ | stopOn _ _ | stopCancel _ => exact absurd ⟨_, rfl⟩ hstop
  | _ => exact ⟨⟨by simp, by simp⟩, h.stops⟩

/-- What else than its own actions happens to a copy in a run that is not stopped. -/
theorem strides_happen (h : r.Calm) {e : Event} (hdown : (r.happen e).control.stopped = false)
    (hcopy : ∀ place, e ≠ .copy place) {place : Nat} {c' : Copy}
    (hc' : (r.happen e).net.copies[place]? = some c') :
    ∃ c, r.net.copies[place]? = some c ∧ ∀ s, Copy.Strides s c none c' s := by
  have hsame : ∀ {c : Copy}, r.net.copies[place]? = some c →
      ∃ c₁, r.net.copies[place]? = some c₁ ∧ ∀ s, Copy.Strides s c₁ none c s :=
    fun hc => ⟨_, hc, fun _ => .still _⟩
  by_cases hstop : ∃ other, e = .stop other
  · obtain ⟨other, rfl⟩ := hstop
    rw [(calm_stop h hdown).2] at hc'
    exact hsame hc'
  have he := r.effect_happen e
  generalize r.happen e = r' at he hdown hc'
  cases he with
  | prepare _ =>
    obtain ⟨c, hc, rfl⟩ := Staged.getElem?_modifyAll hc'
    exact ⟨c, hc, c.strides_toBegin⟩
  | start _ =>
    obtain ⟨c, hc, rfl⟩ := Staged.getElem?_modifyAll hc'
    exact ⟨c, hc, c.strides_toWork⟩
  | copy other => exact absurd rfl (hcopy other)
  | abandon hp _ _ => exact absurd hp (h.phase.1 _ _)
  | stopCancel _ => exact absurd ⟨_, rfl⟩ hstop
  | _ => exact hsame hc'

end Run

namespace Ledger

/-- No row of the copy at a place was refused for its layout. -/
def Unrefused (t : Ledger) (place : Nat) : Prop := ∀ d ∈ t.log place, ¬ d.Clash

section Later

variable {t : Ledger}

theorem log_copy (t : Ledger) (place : Nat) :
    (t.happen (.copy place)).log = entered t.log place (t.trade? place) := rfl

theorem log_of_not_copy {e : Run.Event} (h : ∀ place, e ≠ .copy place) :
    (t.happen e).log = t.log := by
  cases e with
  | copy place => exact absurd rfl (h place)
  | _ => rfl

theorem log_prefix_happen (t : Ledger) (e : Run.Event) (place : Nat) :
    t.log place <+: (t.happen e).log place := by
  by_cases hcopy : ∃ moved, e = .copy moved
  · obtain ⟨moved, rfl⟩ := hcopy
    rw [log_copy]
    by_cases hplace : place = moved
    · subst hplace
      rw [entered_self]
      exact List.prefix_append _ _
    · rw [entered_of_ne hplace]
  · rw [log_of_not_copy fun moved he => hcopy ⟨moved, he⟩]

theorem log_prefix_after (t : Ledger) (events : List Run.Event) (place : Nat) :
    t.log place <+: (t.after events).log place := by
  induction events generalizing t with
  | nil => exact List.prefix_refl _
  | cons e rest ih => exact (t.log_prefix_happen e place).trans (ih (t.happen e))

theorem Unrefused.before {events : List Run.Event} {place : Nat}
    (h : (t.after events).Unrefused place) : t.Unrefused place :=
  fun d hd => h d ((t.log_prefix_after events place).subset hd)

theorem down_before {events : List Run.Event}
    (h : (t.after events).run.control.stopped = false) : t.run.control.stopped = false := by
  induction events generalizing t with
  | nil => exact h
  | cons e rest ih => exact Run.down_before_happen (ih h)

end Later

/-- The trades of the copies agree with the row sets, and the copies with themselves on
their own. -/
structure Agrees (w : Wires) (r₀ : Run) (t : Ledger) : Prop where
  calm : t.run.Calm
  books : w.Books t.log t.run.net.shared.rowSets
  copies : ∀ (place : Nat) (c : Copy), t.run.net.copies[place]? = some c →
    ∃ c₀, r₀.net.copies[place]? = some c₀ ∧
      w.Fits t.log t.run.net.shared.rowSets place c₀ c

section Agrees

variable {w : Wires} {r₀ : Run} {t : Ledger}

theorem Agrees.happen_copy (h : t.Agrees w r₀) {place : Nat}
    (hdown : (t.happen (.copy place)).run.control.stopped = false)
    (hfit : ∀ c₀, r₀.net.copies[place]? = some c₀ →
      c₀.op.HandsBack ∨ (t.happen (.copy place)).Unrefused place) :
    (t.happen (.copy place)).Agrees w r₀ := by
  cases hc : t.run.net.copies[place]? with
  | none =>
    have hnet : (t.happen (.copy place)).run.net = t.run.net := by
      show t.run.net.step place = t.run.net
      simp [Net.step, hc]
    have hlog : (t.happen (.copy place)).log = t.log := by
      rw [log_copy, trade?, hc]
      exact entered_none
    exact ⟨Run.calm_happen h.calm hdown, by rw [hlog, hnet]; exact h.books,
      by rw [hlog, hnet]; exact h.copies⟩
  | some c =>
    obtain ⟨c₀, hc₀, hfits⟩ := h.copies place c hc
    have hstrides := c.strides_step t.run.net.shared
    have hlog : (t.happen (.copy place)).log =
        entered t.log place (c.trade? t.run.net.shared) := by
      rw [log_copy, trade?, hc]
      rfl
    have hshared : (t.happen (.copy place)).run.net.shared = (c.step t.run.net.shared).2 := by
      show (t.run.net.step place).shared = _
      simp [Net.step, hc]
    have hclash : c₀.op.HandsBack ∨ ∀ x, c.trade? t.run.net.shared = some x → ¬ x.Clash := by
      refine (hfit c₀ hc₀).imp id fun h x hx => h x ?_
      rw [hlog, hx, entered_self]
      exact List.mem_append_right _ (List.mem_singleton_self x)
    have htouches := hfits.touches h.books hstrides
    refine ⟨Run.calm_happen h.calm hdown, ?_, fun other c' hc' => ?_⟩
    · rw [hlog, hshared]
      exact h.books.touch htouches
    · rw [hlog, hshared]
      obtain ⟨c₁, hc₁, ⟨hne, rfl⟩ | ⟨rfl, rfl⟩⟩ := Run.Staged.getElem?_copies_step hc'
      · obtain ⟨c₂, hc₂, hother⟩ := h.copies other _ hc₁
        exact ⟨c₂, hc₂, hother.drift hne h.books htouches⟩
      · obtain rfl := Option.some.inj (hc.symm.trans hc₁)
        refine ⟨c₀, hc₀, hfits.stride h.books hstrides ?_ hclash⟩
        rw [← hshared]
        exact hdown

theorem Agrees.happen (h : t.Agrees w r₀) {e : Run.Event}
    (hdown : (t.happen e).run.control.stopped = false)
    (hfit : ∀ place c₀, r₀.net.copies[place]? = some c₀ →
      c₀.op.HandsBack ∨ (t.happen e).Unrefused place) :
    (t.happen e).Agrees w r₀ := by
  by_cases hcopy : ∃ place, e = .copy place
  · obtain ⟨place, rfl⟩ := hcopy
    exact h.happen_copy hdown (hfit place)
  have hne : ∀ place, e ≠ .copy place := fun place he => hcopy ⟨place, he⟩
  have hlog := log_of_not_copy (t := t) hne
  have hrows : (t.happen e).run.net.shared.rowSets = t.run.net.shared.rowSets :=
    Flow.rowSets_happen t.run hne
  refine ⟨Run.calm_happen h.calm hdown, ?_, fun place c' hc' => ?_⟩
  · rw [hlog, hrows]
    exact h.books
  · obtain ⟨c, hc, hstrides⟩ := Run.strides_happen h.calm hdown hne hc'
    obtain ⟨c₀, hc₀, hfits⟩ := h.copies place c hc
    refine ⟨c₀, hc₀, ?_⟩
    rw [hlog, hrows]
    have hnow := hfits.stride h.books (hstrides _) (Run.down_before_happen hdown) (.inr (by simp))
    rwa [entered_none] at hnow

theorem Agrees.after (h : t.Agrees w r₀) {events : List Run.Event}
    (hdown : (t.after events).run.control.stopped = false)
    (hfit : ∀ place c₀, r₀.net.copies[place]? = some c₀ →
      c₀.op.HandsBack ∨ (t.after events).Unrefused place) :
    (t.after events).Agrees w r₀ := by
  induction events generalizing t with
  | nil => exact h
  | cons e rest ih =>
    have hnow := h.happen (down_before hdown) fun place c₀ hc₀ =>
      (hfit place c₀ hc₀).imp id Unrefused.before
    exact ih hnow hdown hfit

end Agrees
end Ledger
end RowFlow
