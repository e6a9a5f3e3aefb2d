import RowFlow.Proofs.Run.Staged

/-
Agreements that are kept.  If the copies of a run meet their contracts before anything
has happened, they meet them whatever happens to the run (`Kept.after`): the copy that
moves by its own contract, and the others because what is shared only goes up and stays
inside the world of the agreement.
-/
namespace RowFlow

namespace Record

open Run

variable {t : Record}

def position (t : Record) (place : Nat) (c : Copy) : Position :=
  ⟨t.past place, c.own, t.run.net.shared⟩

/-- An event changes what surrounds a copy, or the copy does what it is about to do. -/
theorem position_happen (e : Event) {place : Nat} {c' : Copy}
    (hc' : (t.happen e).run.net.copies[place]? = some c') :
    ∃ c, t.run.net.copies[place]? = some c ∧
      ((t.position place c).Drift ((t.happen e).position place c') ∨
        ∃ n, c.node? = some n ∧ n.Leads (t.position place c) ((t.happen e).position place c')) := by
  have hle := t.run.shared_le_happen e
  have he := t.run.effect_happen e
  simp only [happen, position] at hc' ⊢
  generalize t.run.happen e = r' at he hc' hle ⊢
  have still : ∀ {c : Copy} {past : List Deed}, t.run.net.copies[place]? = some c →
      past = t.past place → (∃ b, c'.own = { c.own with cancelled := b }) →
        ∃ c : Copy, t.run.net.copies[place]? = some c ∧
          (Position.Drift ⟨t.past place, c.own, t.run.net.shared⟩ ⟨past, c'.own, r'.net.shared⟩ ∨
            ∃ n, c.node? = some n ∧ n.Leads ⟨t.past place, c.own, t.run.net.shared⟩
              ⟨past, c'.own, r'.net.shared⟩) := fun hc hpast hown =>
    ⟨_, hc, .inl ⟨hpast, hown, hle⟩⟩
  cases he with
  | copy moved =>
    obtain ⟨c, hc, ⟨hne, rfl⟩ | ⟨rfl, rfl⟩⟩ := Staged.getElem?_copies_step hc'
    · exact still hc (Function.update_of_ne hne _ _) ⟨c'.own.cancelled, rfl⟩
    · refine ⟨c, hc, ?_⟩
      simp only [Function.update_self, deed?, hc, Option.bind_some, Net.step]
      rcases c.step_leads (t.past place) t.run.net.shared with hsame | hl
      · rw [hsame]
        exact .inl (.refl _)
      · exact .inr hl
  | prepare _ =>
    obtain ⟨c, hc, rfl⟩ := Staged.getElem?_modifyAll hc'
    exact still hc rfl ⟨c.own.cancelled, c.own_toBegin⟩
  | start _ =>
    obtain ⟨c, hc, rfl⟩ := Staged.getElem?_modifyAll hc'
    exact still hc rfl ⟨c.own.cancelled, c.own_toWork⟩
  | abandon _ _ _ =>
    obtain ⟨c, hc, rfl | ⟨-, rfl⟩⟩ := Staged.getElem?_modify hc'
    · exact still hc rfl ⟨c'.own.cancelled, rfl⟩
    · exact still hc rfl ⟨c.own.cancelled, c.own_toAbandon⟩
  | stopCancel _ =>
    obtain ⟨c, hc, rfl | ⟨-, rfl⟩⟩ := Staged.getElem?_modify hc'
    · exact still hc rfl ⟨c'.own.cancelled, rfl⟩
    · exact still hc rfl ⟨true, rfl⟩
  | nothing hne =>
    cases e with
    | copy moved => exact absurd rfl (hne moved)
    | _ => exact still hc' rfl ⟨c'.own.cancelled, rfl⟩
  | _ => exact still hc' rfl ⟨c'.own.cancelled, rfl⟩

end Record

structure Record.Kept (A : Agreement) (t : Record) : Prop where
  staged : t.run.Staged
  world : A.world t.run.net.shared
  copies : ∀ (place : Nat) (c : Copy), t.run.net.copies[place]? = some c →
    c.Meets A t.run.phase.atWork (t.past place) t.run.net.shared
  /-- Where there is no copy nothing is done. -/
  absent : ∀ place, t.run.net.copies.length ≤ place → t.past place = []

namespace Record.Kept

open Run

variable {A : Agreement} {t : Record}

theorem world_happen (hA : A.Lawful) (h : t.Kept A) (e : Event) :
    A.world (t.run.happen e).net.shared := by
  have hw := h.world
  have he := t.run.effect_happen e
  revert he
  generalize t.run.happen e = r'
  intro he
  cases he with
  | copy place =>
    simp only [Net.step]
    split
    · exact hw
    · next c hc => exact (h.copies place c hc).world hA hw
  | @giveReason x hp =>
    obtain ⟨c, hc, hk⟩ := h.staged.culprit x hp
    obtain ⟨place, hplace⟩ := List.mem_iff_getElem?.mp hc
    obtain ⟨hop, hholds⟩ := h.copies place c hplace
    obtain ⟨op, own, task⟩ := c
    cases task with
    | refused m f => exact hA.refusal op hop m _ x.step hw hholds.2
    | _ => cases hk
  | raiseFlag hp => exact hA.raise _ hw (h.staged.phaseReason (by rw [hp]; rfl))
  | stopReason _ => exact hA.external _ hw
  | stopFlag hs => exact hA.raise _ hw (h.staged.stopReason _ (List.mem_of_getElem? hs) (by simp))
  | _ => exact hw

/-- A copy of which only what surrounds it has changed. -/
theorem meets_of_drift (hA : A.Lawful) (h : t.Kept A) (e : Event) {place : Nat} {c : Copy}
    (hc : t.run.net.copies[place]? = some c) :
    c.Meets A t.run.phase.atWork (t.past place) (t.run.happen e).net.shared :=
  (h.copies place c hc).drift hA (t.run.shared_le_happen e) (h.world_happen hA e)

theorem meets_toBegin (hA : A.Lawful) {past : List Deed} {s : Shared} {c : Copy}
    (h : c.Meets A false past s) (hw : A.world s) : c.toBegin.Meets A false past s := by
  obtain ⟨hop, hholds⟩ := h
  obtain ⟨op, own, task⟩ := c
  cases task with
  | created => exact ⟨hop, rfl, (hA.contract op hop).begin _ hw hholds.2⟩
  | _ => exact ⟨hop, hholds⟩

theorem meets_toWork (hA : A.Lawful) {past : List Deed} {s : Shared} {c : Copy}
    (h : c.Meets A false past s) (hk : c.kind = .ready) :
    c.toWork.Meets A true past s := by
  obtain ⟨hop, hholds⟩ := h
  have hC := hA.contract c.op hop
  obtain ⟨op, own, task⟩ := c
  cases task with
  | ready m =>
    refine ⟨hop, rfl, fun q hd hw => ?_⟩
    obtain ⟨hg, hidle⟩ := hC.start m q hw (hC.ready m _ q hd hw hholds.2)
    exact ⟨hg, fun q' hd' hw' => hC.idle m _ q' hd' hw' hidle⟩
  | _ => cases hk

theorem meets_toAbandon (hA : A.Lawful) {past : List Deed} {s : Shared} {c : Copy}
    (h : c.Meets A false past s) (hw : A.world s) : c.toAbandon.Meets A false past s := by
  obtain ⟨hop, hholds⟩ := h
  have hC := hA.contract c.op hop
  obtain ⟨op, own, task⟩ := c
  cases task with
  | ready m => exact ⟨hop, hC.abandon m _ hw (.inl hholds.2)⟩
  | refused m f => exact ⟨hop, hC.abandon m _ hw (.inr hholds.2)⟩
  | _ => exact ⟨hop, hholds⟩

theorem copies_happen (hA : A.Lawful) (h : t.Kept A) (e : Event) :
    ∀ (place : Nat) (c : Copy), (t.happen e).run.net.copies[place]? = some c →
      c.Meets A (t.happen e).run.phase.atWork ((t.happen e).past place)
        (t.happen e).run.net.shared := by
  have hw := h.world
  have hmeets := h.copies
  have hdrift : ∀ (place : Nat) (c : Copy), t.run.net.copies[place]? = some c →
      c.Meets A t.run.phase.atWork (t.past place) (t.run.happen e).net.shared :=
    fun place c hc => h.meets_of_drift hA e hc
  have he := t.run.effect_happen e
  have hstaged := h.staged
  intro place c hc
  simp only [Record.happen] at hc ⊢
  revert he hc hdrift
  generalize t.run.happen e = r'
  intro hdrift he hc
  cases he with
  | copy moved =>
    obtain ⟨c₀, hc₀, ⟨hne, rfl⟩ | ⟨rfl, rfl⟩⟩ := Staged.getElem?_copies_step hc
    · simp only [Function.update_of_ne hne]
      exact hdrift place c hc₀
    · simp only [Function.update_self, deed?, hc₀, Option.bind_some, Net.step]
      exact (hmeets place c₀ hc₀).step hA hw
  | prepare hp =>
    obtain ⟨c₀, hc₀, rfl⟩ := Staged.getElem?_modifyAll hc
    have h₀ := hmeets place c₀ hc₀
    rw [hp] at h₀
    exact meets_toBegin hA h₀ hw
  | start hp =>
    obtain ⟨c₀, hc₀, rfl⟩ := Staged.getElem?_modifyAll hc
    have h₀ := hmeets place c₀ hc₀
    have hk := hstaged.kinds c₀ (List.mem_of_getElem? hc₀)
    rw [hp] at h₀ hk
    exact meets_toWork hA h₀ hk
  -- Copies are at work before such events as well as after them, or neither.
  | finish hp _ | refuse hp _ _ | accept hp _ _ | pass hp _ _ | close hp _ =>
    have h₀ := hmeets place c hc
    rw [hp] at h₀
    exact h₀
  | giveReason hp | raiseFlag hp =>
    have h₀ := hdrift place c hc
    rw [hp] at h₀
    exact h₀
  | @abandon x gone c₁ hp hc₁ _ =>
    have hwork : t.run.phase.atWork = false := by rw [hp]; rfl
    obtain ⟨c₀, hc₀, hcopy⟩ := Staged.getElem?_modify hc
    have h₀ := hmeets place c₀ hc₀
    rw [hwork] at h₀ ⊢
    obtain rfl | ⟨-, rfl⟩ := hcopy
    · exact h₀
    · exact meets_toAbandon hA h₀ hw
  | @stopCancel _ other rest _ =>
    obtain ⟨c₀, hc₀, rfl | ⟨-, rfl⟩⟩ := Staged.getElem?_modify hc
    · exact hmeets place c hc₀
    · exact (hmeets place c₀ hc₀).cancelled hA hw
  | stopReason _ | stopFlag _ => exact hdrift place c hc
  | nothing hne =>
    cases e with
    | copy moved => exact absurd rfl (hne moved)
    | _ => exact hmeets place c hc
  | requestStop | stopOn _ _ => exact hmeets place c hc

theorem absent_happen (h : t.Kept A) (e : Event) :
    ∀ place, (t.happen e).run.net.copies.length ≤ place → (t.happen e).past place = [] := by
  intro place hlen
  have hlen' : t.run.net.copies.length ≤ place := by
    rw [← t.run.length_copies_happen e]
    exact hlen
  have hpast := h.absent place hlen'
  cases e with
  | copy moved =>
    show Function.update t.past moved ((t.deed? moved).toList ++ t.past moved) place = []
    by_cases hp : place = moved
    · subst hp
      rw [Function.update_self, deed?, List.getElem?_eq_none hlen', hpast]
      rfl
    · rw [Function.update_of_ne hp]
      exact hpast
  | _ => exact hpast

/-- Whatever happens, the agreement is kept. -/
theorem happen (hA : A.Lawful) (h : t.Kept A) (e : Event) : (t.happen e).Kept A where
  staged := h.staged.happen e
  world := h.world_happen hA e
  copies := h.copies_happen hA e
  absent := h.absent_happen e

theorem after (hA : A.Lawful) (h : t.Kept A) (events : List Event) : (t.after events).Kept A :=
  after_induction h (fun _ e ht => ht.happen hA e) events

/-- A condition that others cannot break and that is kept by every action which the
agreement lets through holds of all copies. -/
theorem forall_positions (hA : A.Lawful) (h : t.Kept A) {P : Position → Prop}
    (hstable : Stable A.world P)
    (hleads : ∀ op hop atWork n p q, A.world p.shared → (A.contract op hop).guard atWork n p →
      n.Leads p q → P p → P q)
    (hstart : ∀ (place : Nat) (c : Copy), t.run.net.copies[place]? = some c →
      P (t.position place c)) (events : List Event) :
    ∀ (place : Nat) (c : Copy), (t.after events).run.net.copies[place]? = some c →
      P ((t.after events).position place c) := by
  have hstep : ∀ (t : Record) (e : Event), (t.Kept A ∧ ∀ (place : Nat) (c : Copy),
      t.run.net.copies[place]? = some c → P (t.position place c)) → ((t.happen e).Kept A ∧
        ∀ (place : Nat) (c : Copy), (t.happen e).run.net.copies[place]? = some c →
          P ((t.happen e).position place c)) := by
    rintro t e ⟨hk, hp⟩
    refine ⟨hk.happen hA e, fun place c' hc' => ?_⟩
    obtain ⟨c, hc, hd | ⟨n, hn, hl⟩⟩ := position_happen e hc'
    · exact hstable _ _ hd (hk.happen hA e).world (hp place c hc)
    · obtain ⟨hop, hg⟩ := (hk.copies place c hc).guard hk.world hn
      exact hleads _ hop _ n _ _ hk.world hg hl (hp place c hc)
  exact (after_induction ⟨h, hstart⟩ hstep events).2

end Record.Kept
end RowFlow
