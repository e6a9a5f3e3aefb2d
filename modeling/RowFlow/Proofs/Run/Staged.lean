import RowFlow.Proofs.Run.Course

/-
What the phase of a run says about its copies.  Each phase allows its copies certain
tasks only, and an event leads from a run in which this is so to one in which it is
so (`Staged.happen`).  In particular no copy is at work before the run is started, and
the phases after the first refusal have a reason for which the run stops.
-/
namespace RowFlow

inductive Copy.Kind where
  | created
  | beginning
  | ready
  | refused
  | working
  | leaving
  | gone
deriving DecidableEq, Repr

namespace Copy

def kind (c : Copy) : Kind :=
  match c.task with
  | .created => .created
  | .beginning _ => .beginning
  | .ready _ => .ready
  | .refused _ _ => .refused
  | .working _ => .working
  | .leaving _ => .leaving
  | .gone => .gone

def Kind.Allows : Kind → Kind → Prop
  | beginning, k => k = beginning ∨ k = ready ∨ k = refused
  | working, k => k = working ∨ k = leaving
  | leaving, k => k = leaving ∨ k = gone
  | k, k' => k' = k

theorem kind_step (c : Copy) (s : Shared) : c.kind.Allows (c.step s).1.kind := by
  obtain ⟨op, own, task⟩ := c
  cases task with
  | beginning p =>
    cases p with
    | done a =>
      obtain ⟨m, r⟩ := a
      cases r
      · exact .inr (.inr rfl)
      · exact .inr (.inl rfl)
    | _ => exact .inl rfl
  | working p =>
    cases p with
    | done a =>
      obtain ⟨m, t⟩ := a
      cases t
      · exact .inl rfl
      · exact .inr rfl
    | _ => exact .inl rfl
  | leaving p =>
    cases p with
    | done a => exact .inr rfl
    | _ => exact .inl rfl
  | _ => rfl

@[simp] theorem kind_with_own (c : Copy) (own : Local) : ({ c with own } : Copy).kind = c.kind := by
  obtain ⟨op, own₀, task⟩ := c
  cases task <;> rfl

section Kinds

variable {c : Copy}

theorem isGone_iff : c.isGone = true ↔ c.kind = .gone := by
  obtain ⟨op, own, task⟩ := c
  cases task <;> simp [isGone, kind]

theorem hasBegun_iff : c.hasBegun = true ↔ c.kind = .ready ∨ c.kind = .refused := by
  obtain ⟨op, own, task⟩ := c
  cases task <;> simp [hasBegun, kind]

theorem isSome_refusal?_iff : c.refusal?.isSome = true ↔ c.kind = .refused := by
  obtain ⟨op, own, task⟩ := c
  cases task <;> simp [refusal?, kind]

theorem kind_toBegin (h : c.kind = .created) : c.toBegin.kind = .beginning := by
  obtain ⟨op, own, task⟩ := c
  cases task <;> simp_all [toBegin, kind]

theorem kind_toWork (h : c.kind = .ready) : c.toWork.kind = .working := by
  obtain ⟨op, own, task⟩ := c
  cases task <;> simp_all [toWork, kind]

theorem kind_toAbandon (h : c.hasBegun = true) : c.toAbandon.kind = .leaving := by
  obtain ⟨op, own, task⟩ := c
  cases task <;> simp_all [hasBegun, toAbandon, kind]

theorem own_toBegin (c : Copy) : c.toBegin.own = c.own := by
  obtain ⟨op, own, task⟩ := c
  cases task <;> rfl

theorem own_toWork (c : Copy) : c.toWork.own = c.own := by
  obtain ⟨op, own, task⟩ := c
  cases task <;> rfl

theorem own_toAbandon (c : Copy) : c.toAbandon.own = c.own := by
  obtain ⟨op, own, task⟩ := c
  cases task <;> rfl

end Kinds

end Copy

namespace Phase

def atWork : Phase → Bool
  | running => true
  | finished => true
  | _ => false

def Allows : Phase → Copy.Kind → Prop
  | created, k => k = .created
  | preparing, k => k = .beginning ∨ k = .ready ∨ k = .refused
  | refusing _, k => k = .ready ∨ k = .refused
  | halting _, k => k = .ready ∨ k = .refused
  | abandoning _ _, k => k = .ready ∨ k = .refused ∨ k = .leaving ∨ k = .gone
  | refused _, k => k = .gone
  | prepared, k => k = .ready
  | running, k => k = .working ∨ k = .leaving ∨ k = .gone
  | finished, k => k = .gone

theorem Allows.step {ph : Phase} {k k' : Copy.Kind} (h : ph.Allows k) (hk : k.Allows k') :
    ph.Allows k' := by
  cases ph <;> cases k <;> simp_all [Allows, Copy.Kind.Allows]
  all_goals rcases hk with rfl | rfl <;> simp

/-- From this phase on there is a reason for which the run stops. -/
def HasReason : Phase → Bool
  | halting _ => true
  | abandoning _ _ => true
  | refused _ => true
  | _ => false

end Phase

namespace Run

inductive Effect (r : Run) : Event → Run → Prop
  | nothing {e : Event} (h : ∀ place, e ≠ .copy place) : Effect r e r
  | prepare (h : r.phase = .created) :
      Effect r .prepare { r with phase := .preparing, net := r.net.modifyAll Copy.toBegin }
  | start (h : r.phase = .prepared) :
      Effect r .start { r with phase := .running, net := r.net.modifyAll Copy.toWork }
  | requestStop : Effect r .requestStop { r with stops := r.stops ++ [.giveReason] }
  | finish (h : r.phase = .running) (hgone : r.net.allGone = true) :
      Effect r .finish { r with phase := .finished }
  | copy (place : Nat) : Effect r (.copy place) { r with net := r.net.step place }
  | refuse {x : Refusal} (h : r.phase = .preparing) (hbegun : r.net.haveAllBegun = true)
      (hx : r.refusal? = some x) : Effect r .chief { r with phase := .refusing x }
  | accept (h : r.phase = .preparing) (hbegun : r.net.haveAllBegun = true)
      (hx : r.refusal? = none) :
      Effect r .chief { r with phase := .prepared, cancellable := r.cancellers }
  | giveReason {x : Refusal} (h : r.phase = .refusing x) :
      Effect r .chief
        { r.setControl (·.giveReason (.stepFailed x.step)) with phase := .halting x }
  | raiseFlag {x : Refusal} (h : r.phase = .halting x) :
      Effect r .chief { r.setControl (·.raiseFlag.1) with phase := .abandoning x 0 }
  | pass {x : Refusal} {gone : Nat} {c : Copy} (h : r.phase = .abandoning x gone)
      (hc : r.net.copies[gone]? = some c) (hgone : c.kind = .gone) :
      Effect r .chief { r with phase := .abandoning x (gone + 1) }
  | abandon {x : Refusal} {gone : Nat} {c : Copy} (h : r.phase = .abandoning x gone)
      (hc : r.net.copies[gone]? = some c) (hbegun : c.hasBegun = true) :
      Effect r .chief { r with net := r.net.modify gone Copy.toAbandon }
  | close {x : Refusal} {gone : Nat} (h : r.phase = .abandoning x gone)
      (hc : r.net.copies[gone]? = none) : Effect r .chief { r with phase := .refused x }
  | stopReason {place : Nat} (h : r.stops[place]? = some .giveReason) :
      Effect r (.stop place)
        { r.setControl (·.giveReason .external) with stops := r.stops.set place .raiseFlag }
  | stopFlag {place : Nat} (h : r.stops[place]? = some .raiseFlag) :
      Effect r (.stop place)
        { r.setControl (·.raiseFlag.1) with stops := r.stops.set place .lookUp }
  | stopOn {place : Nat} {call call' : StopCall} (h : r.stops[place]? = some call)
      (hcall : call ≠ .giveReason) :
      Effect r (.stop place) { r with stops := r.stops.set place call' }
  | stopCancel {place other : Nat} {rest : List Nat}
      (h : r.stops[place]? = some (.cancel (other :: rest))) :
      Effect r (.stop place) { r.cancelCopy other with stops := r.stops.set place (.cancel rest) }

theorem effect_chief (r : Run) : r.Effect .chief (r.happen .chief) := by
  have hnothing : r.Effect .chief r := .nothing fun _ => by simp
  simp only [happen, chief?]
  split
  · next hp =>
    split
    · next hb =>
      split
      · next x hx => exact .refuse hp hb hx
      · next hx => exact .accept hp hb hx
    · exact hnothing
  · next x hp => exact .giveReason hp
  · next x hp => exact .raiseFlag hp
  · next x gone hp =>
    split
    · next hc => exact .close hp hc
    · next c hc =>
      split
      · next hg => exact .pass hp hc (Copy.isGone_iff.mp hg)
      · split
        · next hb => exact .abandon hp hc hb
        · exact hnothing
  · exact hnothing

theorem effect_stop (r : Run) (place : Nat) : r.Effect (.stop place) (r.happen (.stop place)) := by
  have hnothing : r.Effect (.stop place) r := .nothing fun _ => by simp
  simp only [happen, move?]
  split
  · exact hnothing
  · next call hcall =>
    cases call with
    | giveReason => exact .stopReason hcall
    | raiseFlag => exact .stopFlag hcall
    | lookUp => exact .stopOn hcall (by simp)
    | cancel places =>
      cases places with
      | nil => exact .stopOn hcall (by simp)
      | cons other rest => exact .stopCancel hcall
    | done => exact hnothing

theorem effect_happen (r : Run) (e : Event) : r.Effect e (r.happen e) := by
  cases e with
  | prepare =>
    by_cases h : r.phase = .created
    · simpa [happen, beginPreparation, h] using Effect.prepare h
    · simpa [happen, beginPreparation, h] using Effect.nothing (r := r) (e := .prepare) (by simp)
  | start =>
    by_cases h : r.phase = .prepared
    · simpa [happen, start, h] using Effect.start h
    · simpa [happen, start, h] using Effect.nothing (r := r) (e := .start) (by simp)
  | requestStop => exact .requestStop
  | finish =>
    by_cases h : r.phase = .running ∧ r.net.allGone = true
    · simpa [happen, finish, h] using Effect.finish h.1 h.2
    · simpa [happen, finish, h] using Effect.nothing (r := r) (e := .finish) (by simp)
  | copy place => exact .copy place
  | chief => exact r.effect_chief
  | stop place => exact r.effect_stop place

/-- What is shared goes up with every event. -/
theorem shared_le_happen (r : Run) (e : Event) : r.net.shared ≤ (r.happen e).net.shared := by
  have h := r.effect_happen e
  revert h
  generalize r.happen e = r'
  intro h
  cases h with
  | copy place => exact r.net.le_step place
  | giveReason _ => exact Shared.le_control (r.control.le_giveReason _)
  | raiseFlag _ => exact Shared.le_control r.control.le_raiseFlag
  | stopReason _ => exact Shared.le_control (r.control.le_giveReason _)
  | stopFlag _ => exact Shared.le_control r.control.le_raiseFlag
  | _ => exact le_refl _

@[simp] theorem length_copies_happen (r : Run) (e : Event) :
    (r.happen e).net.copies.length = r.net.copies.length := by
  have h := r.effect_happen e
  revert h
  generalize r.happen e = r'
  intro h
  cases h with
  | prepare _ => exact List.length_map _
  | start _ => exact List.length_map _
  | copy place => exact r.net.length_copies_step place
  | abandon _ _ _ => exact List.length_modify ..
  | stopCancel _ => exact List.length_modify ..
  | _ => rfl

/-- Whoever waits for the run comes back, or it could not be prepared. -/
def IsOver (r : Run) : Prop := r.phase = .finished ∨ ∃ x, r.phase = .refused x

/-- What holds of a run in whatever order things happen to it. -/
structure Staged (r : Run) : Prop where
  kinds : ∀ c ∈ r.net.copies, r.phase.Allows c.kind
  /-- The copies are given up in their order. -/
  abandoned : ∀ x gone, r.phase = .abandoning x gone → ∀ i < gone, ∀ c,
    r.net.copies[i]? = some c → c.kind = .gone
  culprit : ∀ x, r.phase = .refusing x → ∃ c ∈ r.net.copies, c.kind = .refused
  phaseReason : r.phase.HasReason → r.control.reason ≠ none
  stopReason : ∀ call ∈ r.stops, call ≠ .giveReason → r.control.reason ≠ none

namespace Staged

variable {r r' : Run} {e : Event}

theorem kind_of_begun (h : r.net.haveAllBegun = true) {c : Copy} (hc : c ∈ r.net.copies) :
    c.kind = .ready ∨ c.kind = .refused :=
  Copy.hasBegun_iff.mp (List.all_eq_true.mp h c hc)

theorem refused_of_refusal? {x : Refusal} (h : r.refusal? = some x) :
    ∃ c ∈ r.net.copies, c.kind = .refused := by
  obtain ⟨c, hc, hx⟩ := List.exists_of_findSome?_eq_some h
  refine ⟨c, hc, Copy.isSome_refusal?_iff.mp ?_⟩
  cases hr : c.refusal? with
  | none => simp [hr] at hx
  | some f => rfl

theorem kind_ne_of_refusal? (h : r.refusal? = none) {c : Copy} (hc : c ∈ r.net.copies) :
    c.kind ≠ .refused := by
  intro hk
  have hnone := List.findSome?_eq_none_iff.mp h c hc
  rw [← Copy.isSome_refusal?_iff, Option.isSome_iff_exists] at hk
  obtain ⟨f, hf⟩ := hk
  simp [hf] at hnone

/-- A copy after one of the copies has made a step. -/
theorem mem_copies_step {n : Net} {place : Nat} {c : Copy} (h : c ∈ (n.step place).copies) :
    ∃ c₀ ∈ n.copies, c₀.kind.Allows c.kind := by
  have hrefl : ∀ k : Copy.Kind, k.Allows k := by
    intro k
    cases k <;> simp [Copy.Kind.Allows]
  unfold Net.step at h
  split at h
  · exact ⟨c, h, hrefl _⟩
  · next c₀ hc₀ =>
    rcases List.mem_or_eq_of_mem_set h with hmem | rfl
    · exact ⟨c, hmem, hrefl _⟩
    · exact ⟨c₀, List.mem_of_getElem? hc₀, c₀.kind_step n.shared⟩

theorem getElem?_copies_step {n : Net} {place i : Nat} {c : Copy}
    (h : (n.step place).copies[i]? = some c) :
    ∃ c₀, n.copies[i]? = some c₀ ∧
      (i ≠ place ∧ c = c₀ ∨ i = place ∧ c = (c₀.step n.shared).1) := by
  by_cases hi : i = place
  · subst hi
    unfold Net.step at h
    split at h
    · next hc => rw [hc] at h; cases h
    · next c₀ hc₀ =>
      have hlt := (List.getElem?_eq_some_iff.mp hc₀).1
      simp only [List.getElem?_set_self hlt, Option.some.injEq] at h
      exact ⟨c₀, hc₀, .inr ⟨rfl, h.symm⟩⟩
  · rw [n.getElem?_copies_step_of_ne hi] at h
    exact ⟨c, h, .inl ⟨hi, rfl⟩⟩

/-- A copy after something was done to the copy at one place, or to all copies. -/
theorem getElem?_modify {n : Net} {place i : Nat} {f : Copy → Copy} {c : Copy}
    (h : (n.modify place f).copies[i]? = some c) :
    ∃ c₀, n.copies[i]? = some c₀ ∧ (c = c₀ ∨ i = place ∧ c = f c₀) := by
  simp only [Net.modify, List.getElem?_modify, Option.map_eq_map] at h
  obtain ⟨c₀, hc₀, rfl⟩ := Option.map_eq_some_iff.mp h
  refine ⟨c₀, hc₀, ?_⟩
  split
  · next heq => exact .inr ⟨heq.symm, rfl⟩
  · exact .inl rfl

theorem getElem?_modifyAll {n : Net} {i : Nat} {f : Copy → Copy} {c : Copy}
    (h : (n.modifyAll f).copies[i]? = some c) : ∃ c₀, n.copies[i]? = some c₀ ∧ c = f c₀ := by
  simp only [Net.modifyAll, List.getElem?_map] at h
  obtain ⟨c₀, hc₀, heq⟩ := Option.map_eq_some_iff.mp h
  exact ⟨c₀, hc₀, heq.symm⟩

theorem kinds_happen (h : r.Staged) (he : r.Effect e r') :
    ∀ c ∈ r'.net.copies, r'.phase.Allows c.kind := by
  have hk := h.kinds
  cases he with
  | prepare hp =>
    intro c hc
    obtain ⟨c₀, hc₀, rfl⟩ := List.mem_map.mp hc
    have hkind := hk c₀ hc₀
    rw [hp] at hkind
    exact .inl (Copy.kind_toBegin hkind)
  | start hp =>
    intro c hc
    obtain ⟨c₀, hc₀, rfl⟩ := List.mem_map.mp hc
    have hkind := hk c₀ hc₀
    rw [hp] at hkind
    exact .inl (Copy.kind_toWork hkind)
  | finish hp hgone =>
    intro c hc
    exact Copy.isGone_iff.mp (List.all_eq_true.mp hgone c hc)
  | copy place =>
    intro c hc
    obtain ⟨c₀, hc₀, hstep⟩ := mem_copies_step hc
    exact (hk c₀ hc₀).step hstep
  | refuse hp hb hx => exact fun c hc => kind_of_begun hb hc
  | accept hp hb hx =>
    intro c hc
    exact (kind_of_begun hb hc).resolve_right (kind_ne_of_refusal? hx hc)
  | giveReason hp => rw [hp] at hk; exact hk
  | raiseFlag hp =>
    intro c hc
    have hkind := hk c hc
    rw [hp] at hkind
    rcases hkind with hkind | hkind
    · exact .inl hkind
    · exact .inr (.inl hkind)
  | pass hp _ _ => rw [hp] at hk; exact hk
  | @abandon x gone c₁ hp hc₁ hb =>
    intro c hc
    rw [hp] at hk
    show r.phase.Allows c.kind
    rw [hp]
    obtain ⟨i, hi⟩ := List.mem_iff_getElem?.mp hc
    obtain ⟨c₀, hc₀, rfl | ⟨rfl, rfl⟩⟩ := getElem?_modify hi
    · exact hk c (List.mem_of_getElem? hc₀)
    · obtain rfl : c₁ = c₀ := Option.some.inj (hc₁.symm.trans hc₀)
      exact .inr (.inr (.inl (Copy.kind_toAbandon hb)))
  | @close x gone hp hc =>
    intro c hmem
    obtain ⟨i, hi⟩ := List.mem_iff_getElem?.mp hmem
    have hlen : r.net.copies.length ≤ gone := List.getElem?_eq_none_iff.mp hc
    have hlt : i < gone := Nat.lt_of_lt_of_le (List.getElem?_eq_some_iff.mp hi).1 hlen
    exact h.abandoned x gone hp i hlt c hi
  | @stopCancel place other rest _ =>
    intro c hc
    obtain ⟨i, hi⟩ := List.mem_iff_getElem?.mp hc
    obtain ⟨c₀, hc₀, rfl | ⟨-, rfl⟩⟩ := getElem?_modify hi
    · exact hk c (List.mem_of_getElem? hc₀)
    · show r.phase.Allows _
      rw [Copy.kind_with_own]
      exact hk c₀ (List.mem_of_getElem? hc₀)
  | _ => exact hk

theorem abandoned_happen (h : r.Staged) (he : r.Effect e r') :
    ∀ x gone, r'.phase = .abandoning x gone → ∀ i < gone, ∀ c,
      r'.net.copies[i]? = some c → c.kind = .gone := by
  have ha := h.abandoned
  intro x gone hp i hi c hc
  cases he with
  | copy place =>
    obtain ⟨c₀, hc₀, ⟨-, rfl⟩ | ⟨rfl, rfl⟩⟩ := getElem?_copies_step hc
    · exact ha x gone hp i hi c hc₀
    · have hgone := ha x gone hp i hi c₀ hc₀
      have hstep := c₀.kind_step r.net.shared
      rw [hgone] at hstep
      exact hstep
  | @raiseFlag x' _ =>
    cases hp
    exact absurd hi (Nat.not_lt_zero i)
  | @pass x₀ gone₀ c₀ hp₀ hc₀ hgone₀ =>
    have hlt : i < gone₀ + 1 := (Phase.abandoning.inj hp).2 ▸ hi
    by_cases hig : i = gone₀
    · rw [hig, hc₀] at hc
      cases hc
      exact hgone₀
    · exact ha x₀ gone₀ hp₀ i (by omega) c hc
  | @abandon x₀ gone₀ c₀ hp₀ _ _ =>
    have hlt : i < gone₀ := (Phase.abandoning.inj (hp₀.symm.trans hp)).2 ▸ hi
    obtain ⟨c₁, hc₁, rfl | ⟨rfl, -⟩⟩ := getElem?_modify hc
    · exact ha x₀ gone₀ hp₀ i hlt c hc₁
    · exact absurd hlt (Nat.lt_irrefl i)
  | @stopCancel place other rest _ =>
    obtain ⟨c₀, hc₀, rfl | ⟨-, rfl⟩⟩ := getElem?_modify hc
    · exact ha x gone hp i hi c hc₀
    · rw [Copy.kind_with_own]
      exact ha x gone hp i hi c₀ hc₀
  | nothing _ | requestStop | stopReason _ | stopFlag _ | stopOn _ _ =>
    exact ha x gone hp i hi c hc
  | _ => cases hp

theorem culprit_happen (h : r.Staged) (he : r.Effect e r') :
    ∀ x, r'.phase = .refusing x → ∃ c ∈ r'.net.copies, c.kind = .refused := by
  have hu := h.culprit
  intro x hp
  cases he with
  | refuse _ _ hx => exact refused_of_refusal? hx
  | copy place =>
    obtain ⟨c, hc, hk⟩ := hu x hp
    obtain ⟨i, hi⟩ := List.mem_iff_getElem?.mp hc
    by_cases hip : i = place
    · subst hip
      have hstep := c.kind_step r.net.shared
      rw [hk] at hstep
      refine ⟨(c.step r.net.shared).1, ?_, hstep⟩
      have hlt := (List.getElem?_eq_some_iff.mp hi).1
      simp only [Net.step, hi]
      exact List.mem_iff_getElem?.mpr ⟨i, List.getElem?_set_self hlt⟩
    · refine ⟨c, List.mem_iff_getElem?.mpr ⟨i, ?_⟩, hk⟩
      rw [r.net.getElem?_copies_step_of_ne hip]
      exact hi
  | abandon hp' _ _ =>
    rw [hp'] at hp
    cases hp
  | @stopCancel place other rest _ =>
    obtain ⟨c, hc, hk⟩ := hu x hp
    obtain ⟨i, hi⟩ := List.mem_iff_getElem?.mp hc
    by_cases hio : other = i
    · refine ⟨{ c with own := { c.own with cancelled := true } }, ?_, (c.kind_with_own _).trans hk⟩
      exact List.mem_iff_getElem?.mpr ⟨i, by simp [cancelCopy, Net.modify, hio, hi]⟩
    · exact ⟨c, List.mem_iff_getElem?.mpr ⟨i, by simp [cancelCopy, Net.modify, hio, hi]⟩, hk⟩
  | nothing _ | requestStop | stopReason _ | stopFlag _ | stopOn _ _ => exact hu x hp
  | _ => cases hp

/-- A reason that was given stays. -/
theorem reason_happen (e : Event) (h : r.control.reason ≠ none) :
    (r.happen e).control.reason ≠ none := by
  obtain ⟨reason, hr⟩ := Option.ne_none_iff_exists'.mp h
  exact Option.ne_none_iff_exists'.mpr ⟨reason, (r.shared_le_happen e).control.reason reason hr⟩

theorem happen (h : r.Staged) (e : Event) : (r.happen e).Staged := by
  have he := r.effect_happen e
  have hreason := reason_happen (r := r) e
  refine ⟨h.kinds_happen he, h.abandoned_happen he, h.culprit_happen he, ?_, ?_⟩
  · intro hp
    have hold := h.phaseReason
    revert he hreason hp
    generalize r.happen e = r'
    intro he hreason hp
    cases he with
    | giveReason _ => simp [control, setControl, Control.giveReason]
    | raiseFlag hp₀ | pass hp₀ _ _ | close hp₀ _ => exact hreason (hold (by rw [hp₀]; rfl))
    | prepare _ | start _ | finish _ _ | refuse _ _ _ | accept _ _ _ => cases hp
    | _ => exact hreason (hold hp)
  · intro call hcall hne
    have hold := h.stopReason
    revert he hreason
    generalize hr' : r.happen e = r' at hcall
    intro he hreason
    cases he with
    | requestStop =>
      rcases List.mem_append.mp hcall with hmem | hmem
      · exact hold call hmem hne
      · exact absurd (List.mem_singleton.mp hmem) hne
    | stopReason hs => simp [control, setControl, Control.giveReason]
    | stopFlag hs => exact hold _ (List.mem_of_getElem? hs) (by simp)
    | stopOn hs hcall' => exact hold _ (List.mem_of_getElem? hs) hcall'
    | stopCancel hs => exact hold _ (List.mem_of_getElem? hs) (by simp)
    | giveReason _ => simp [control, setControl, Control.giveReason]
    | copy place => exact hreason (hold call hcall hne)
    | _ => exact hold call hcall hne

theorem after (h : r.Staged) (events : List Event) : (r.after events).Staged := by
  induction events generalizing r with
  | nil => exact h
  | cons e rest ih => exact ih (h.happen e)

theorem gone_of_isOver (h : r.Staged) (hover : r.IsOver) {c : Copy} (hc : c ∈ r.net.copies) :
    c.kind = .gone := by
  have hk := h.kinds c hc
  rcases hover with hp | ⟨x, hp⟩
  · rw [hp] at hk
    exact hk
  · rw [hp] at hk
    exact hk

/-- Whoever waits for a run that is over is told its result at once. -/
theorem await_of_isOver (h : r.Staged) (hover : r.IsOver) : r.await = (r, .ok r.result) := by
  have hgone : r.net.allGone = true :=
    List.all_eq_true.mpr fun c hc => Copy.isGone_iff.mpr (h.gone_of_isOver hover hc)
  have hwait : r.waitProblem? = none := by
    rcases hover with hp | ⟨x, hp⟩ <;> simp [waitProblem?, hp]
  have hdrive : r.driveUntil (·.net.allGone) = r := by
    show r.drive _ (999999999999 + 1) = r
    rw [drive, if_pos hgone]
  have hfinish : r.finish = r := by
    rcases hover with hp | ⟨x, hp⟩ <;> simp [finish, hp]
  simp only [await, hwait, hdrive, hfinish]

/-- Nothing has happened yet. -/
theorem of_created (hp : r.phase = .created) (hs : r.stops = [])
    (hk : ∀ c ∈ r.net.copies, c.kind = .created) : r.Staged where
  kinds c hc := by
    rw [hp]
    exact hk c hc
  abandoned x gone h := by simp [hp] at h
  culprit x h := by simp [hp] at h
  phaseReason h := by simp [hp, Phase.HasReason] at h
  stopReason call h := by simp [hs] at h

end Staged
end Run
end RowFlow
