import RowFlow.Proofs.Copy.Watch
import RowFlow.Proofs.Program.Effects
import RowFlow.Proofs.Run.Made

/-
Runs under watch.  By an event a copy either does one thing, and then no other copy does
anything, or it waits (`Run.goes_happen`).  So a copy that obeys a regime from the start
obeys it whatever happens to the run, and what its watch has to do with where it stands
lasts as long as each doing keeps it (`Record.minded_after`).
-/
namespace RowFlow

inductive Copy.Waits (s : Shared) : Copy → Copy → Prop
  | goes {c c' : Copy} (h : c.Goes s none none c' s) : Waits s c c'
  | cancelled {op : Operator} {own : Local} {t : Task op} (b : Bool) :
      Waits s ⟨op, own, t⟩ ⟨op, own.withCancelled b, t⟩

namespace Copy

variable {c c' : Copy} {s : Shared}

theorem Waits.refl (s : Shared) (c : Copy) : c.Waits s c := .goes (.still c)

theorem Waits.rests (h : c.Waits s c') : c.own.Rests c'.own := by
  cases h with
  | goes h => exact h.rests.2.1
  | @cancelled op own t b => exact ⟨own.pending, own.cursor, b, rfl⟩

theorem goes_toBegin (c : Copy) (s : Shared) : c.Goes s none none c.toBegin s := by
  obtain ⟨op, own, task⟩ := c
  cases task with
  | created => exact .turn .begin
  | _ => exact .still _

theorem goes_toWork (c : Copy) (s : Shared) : c.Goes s none none c.toWork s := by
  obtain ⟨op, own, task⟩ := c
  cases task with
  | ready m => exact .turn (.start m)
  | _ => exact .still _

theorem goes_toAbandon (c : Copy) (s : Shared) : c.Goes s none none c.toAbandon s := by
  obtain ⟨op, own, task⟩ := c
  cases task with
  | ready m => exact .turn (.giveUp m)
  | refused m f => exact .turn (.giveUpRefused m f)
  | _ => exact .still _

end Copy

namespace Run

variable {r : Run} {place : Nat} {c' : Copy}

structure Does (r : Run) (e : Event) (place : Nat) (c : Copy) (d : Doing) (c' : Copy) : Prop where
  event : e = .copy place
  doing : c.doing? r.net.shared = some d
  goes : c.Goes r.net.shared (some d) (c.deed? r.net.shared) c' (r.happen e).net.shared

structure Skips (r : Run) (e : Event) (place : Nat) (c c' : Copy) : Prop where
  waits : c.Waits r.net.shared c'
  doing : e = .copy place → c.doing? r.net.shared = none

theorem net_happen_copy {c : Copy} (hc : r.net.copies[place]? = some c) :
    (r.happen (.copy place)).net =
      ⟨r.net.copies.set place (c.step r.net.shared).1, (c.step r.net.shared).2⟩ := by
  show r.net.step place = _
  simp [Net.step, hc]

/-- A copy that moves does something or skips. -/
theorem does_or_skips {c : Copy} (hc : r.net.copies[place]? = some c) :
    (∃ d, r.Does (.copy place) place c d (c.step r.net.shared).1) ∨
      r.Skips (.copy place) place c (c.step r.net.shared).1 ∧
        (r.happen (.copy place)).net.shared = r.net.shared := by
  have hgoes := c.goes_step r.net.shared
  cases hd : c.doing? r.net.shared with
  | some d =>
    rw [hd] at hgoes
    refine .inl ⟨d, rfl, hd, ?_⟩
    rw [net_happen_copy hc]
    exact hgoes
  | none =>
    rw [hd] at hgoes
    obtain ⟨hdeed, -, hsame⟩ := hgoes.rests
    rw [hdeed, hsame] at hgoes
    refine .inr ⟨⟨.goes hgoes, fun _ => hd⟩, ?_⟩
    rw [net_happen_copy hc]
    exact hsame

/-- By an event a copy does one thing or waits. -/
theorem goes_happen {e : Event} (h : (r.happen e).net.copies[place]? = some c') :
    ∃ c, r.net.copies[place]? = some c ∧
      ((∃ d, r.Does e place c d c') ∨ r.Skips e place c c') := by
  by_cases hmoved : ∃ moved, e = .copy moved
  · obtain ⟨moved, rfl⟩ := hmoved
    obtain ⟨c, hc, ⟨hne, rfl⟩ | ⟨rfl, rfl⟩⟩ := Staged.getElem?_copies_step h
    · refine ⟨_, hc, .inr ⟨.refl _ _, fun he => ?_⟩⟩
      cases he
      exact absurd rfl hne
    · exact ⟨c, hc, (does_or_skips hc).imp_right And.left⟩
  have hne : ∀ moved, e ≠ .copy moved := fun moved he => hmoved ⟨moved, he⟩
  have hskips : ∀ {c : Copy}, r.net.copies[place]? = some c → c.Waits r.net.shared c' →
      ∃ c, r.net.copies[place]? = some c ∧
        ((∃ d, r.Does e place c d c') ∨ r.Skips e place c c') :=
    fun hc hw => ⟨_, hc, .inr ⟨hw, fun he => absurd he (hne place)⟩⟩
  have he := r.effect_happen e
  generalize r.happen e = r' at he h
  cases he with
  | copy moved => exact absurd rfl (hne moved)
  | prepare _ =>
    obtain ⟨c, hc, rfl⟩ := Staged.getElem?_modifyAll h
    exact hskips hc (.goes (c.goes_toBegin _))
  | start _ =>
    obtain ⟨c, hc, rfl⟩ := Staged.getElem?_modifyAll h
    exact hskips hc (.goes (c.goes_toWork _))
  | abandon _ _ _ =>
    obtain ⟨c, hc, rfl | ⟨-, rfl⟩⟩ := Staged.getElem?_modify h
    · exact hskips hc (.refl _ _)
    · exact hskips hc (.goes (c.goes_toAbandon _))
  | stopCancel _ =>
    obtain ⟨c, hc, rfl | ⟨-, rfl⟩⟩ := Staged.getElem?_modify h
    · exact hskips hc (.refl _ _)
    · exact hskips hc (.cancelled true)
  | _ => exact hskips h (.refl _ _)

end Run

namespace Regime

variable {w : Watch} {R : Regime w} {c c' : Copy} {s s' : Shared} {x : w.State}

/-- A copy that obeys, with a watch that is right about the run. -/
structure Minds (R : Regime w) (c : Copy) (s : Shared) (x : w.State) : Prop where
  obeys : R.Obeys c x
  right : w.Down x → s.control.stopped = true

theorem Minds.later (h : R.Minds c s x) (hle : s ≤ s') : R.Minds c s' x :=
  ⟨h.obeys, fun hd => (Shared.Le.control hle).stopped (h.right hd)⟩

theorem Minds.waits (hR : R.Lawful) (h : R.Minds c s x) (hw : c.Waits s c') : R.Minds c' s x := by
  refine ⟨?_, h.right⟩
  cases hw with
  | goes hg => exact h.obeys.waits hR h.right hg
  | @cancelled op own t b => exact h.obeys.rests ⟨own.pending, own.cursor, b, rfl⟩

theorem Minds.goes (hR : R.Lawful) (h : R.Minds c s x) {d : Doing} {deed : Option Deed}
    (hg : c.Goes s (some d) deed c' s') : ∃ z, w.Next x d z ∧ R.Minds c' s' z := by
  obtain ⟨z, hz, hobeys⟩ := h.obeys.goes hR h.right hg
  exact ⟨z, hz, hobeys, hR.watch.right hz (hg.leads []) h.right⟩

end Regime

namespace Record

open Run

variable {t : Record} {place : Nat} {c c' : Copy} {e : Event}

theorem position_of_does {d : Doing} (h : t.run.Does e place c d c')
    (hc : t.run.net.copies[place]? = some c) :
    d.Leads (t.position place c) ((t.happen e).position place c') := by
  obtain ⟨rfl, -, hgoes⟩ := h
  have hpast : (t.happen (.copy place)).past place =
      (c.deed? t.run.net.shared).toList ++ t.past place := by
    show Function.update t.past place ((t.deed? place).toList ++ t.past place) place = _
    rw [Function.update_self, deed?, hc]
    rfl
  have hleads := hgoes.leads (t.past place)
  rw [← hpast] at hleads
  exact hleads

theorem past_of_skips (h : t.run.Skips e place c c') (hc : t.run.net.copies[place]? = some c) :
    (t.happen e).past place = t.past place := by
  cases e with
  | copy moved =>
    show Function.update t.past moved ((t.deed? moved).toList ++ t.past moved) place = _
    by_cases hplace : place = moved
    · subst hplace
      have hgoes := c.goes_step t.run.net.shared
      rw [h.doing rfl] at hgoes
      rw [Function.update_self, deed?, hc, Option.bind_some, hgoes.rests.1]
      rfl
    · rw [Function.update_of_ne hplace]
  | _ => rfl

variable {w : Watch} {R : Regime w}

/-- The copy at a place obeys, and the state of its watch has this to do with where it
stands. -/
def Minded (R : Regime w) (F : w.State → Position → Prop) (t : Record) (place : Nat) : Prop :=
  ∀ c, t.run.net.copies[place]? = some c →
    ∃ x, R.Minds c t.run.net.shared x ∧ F x (t.position place c)

variable {F : w.State → Position → Prop}

/-- What each doing keeps, and others cannot break, lasts. -/
theorem minded_after (hR : R.Lawful)
    (hrests : ∀ x p q, F x p → p.own.Rests q.own → q.past = p.past → p.shared ≤ q.shared → F x q)
    (hnext : ∀ x d z p q, w.Next x d z → d.Leads p q → F x p → F z q)
    (h : t.Minded R F place) (events : List Event) : (t.after events).Minded R F place := by
  refine after_induction (P := fun t => t.Minded R F place) h (fun t e ht c' hc' => ?_) events
  obtain ⟨c, hc, ⟨d, hdoes⟩ | hskips⟩ := goes_happen hc'
  · obtain ⟨x, hminds, hx⟩ := ht c hc
    obtain ⟨z, hz, hminds'⟩ := hminds.goes hR hdoes.goes
    exact ⟨z, hminds', hnext x d z _ _ hz (position_of_does hdoes hc) hx⟩
  · obtain ⟨x, hminds, hx⟩ := ht c hc
    have hle := t.run.shared_le_happen e
    exact ⟨x, (hminds.waits hR hskips.waits).later hle,
      hrests x _ _ hx hskips.waits.rests (past_of_skips hskips hc) hle⟩

/-- What each move of a copy brings about, whether it does something or not, is told by how
many it has made. -/
theorem counted_after (hR : R.Lawful) {S : Nat → w.State → Copy → List Deed → Prop}
    (hwaits : ∀ n x c c' past s, S n x c past → c.Waits s c' → S n x c' past)
    (hidle : ∀ n x c past s, R.Minds c s x → S n x c past → c.doing? s = none →
      S (n + 1) x c past)
    (hdoes : ∀ n x z c c' past past' s s' d, S n x c past → c.doing? s = some d → w.Next x d z →
      d.Leads ⟨past, c.own, s⟩ ⟨past', c'.own, s'⟩ → S (n + 1) z c' past')
    {r : Run} {x : w.State} (hc : r.net.copies[place]? = some c) (hminds : R.Minds c r.net.shared x)
    (h : S 0 x c []) (events : List Event) :
    ∀ c', (r.after events).net.copies[place]? = some c' → ∃ z,
      R.Minds c' (r.after events).net.shared z ∧
        S (events.count (.copy place)) z c' ((r.record events).past place) := by
  induction events using List.reverseRecOn with
  | nil =>
    intro c' hc'
    obtain rfl := Option.some.inj (hc.symm.trans hc')
    exact ⟨x, hminds, h⟩
  | append_singleton events e ih =>
    have hrecord : r.record (events ++ [e]) = (r.record events).happen e :=
      after_append _ events [e]
    have hrun : (r.record events).run = r.after events := run_after _ events
    intro c' hc'
    rw [after_concat] at hc' ⊢
    rw [hrecord, List.count_append]
    obtain ⟨c, hc, hgoes⟩ := goes_happen hc'
    obtain ⟨x, hminds, hS⟩ := ih c hc
    rcases hgoes with ⟨d, hd⟩ | hs
    · obtain ⟨z, hz, hminds'⟩ := hminds.goes hR hd.goes
      rw [← hrun] at hd hc
      obtain rfl := hd.event
      refine ⟨z, hminds', ?_⟩
      rw [List.count_singleton_self]
      exact hdoes _ x z c c' _ _ _ _ d hS hd.doing hz (position_of_does hd hc)
    · refine ⟨x, (hminds.waits hR hs.waits).later ((r.after events).shared_le_happen e), ?_⟩
      rw [← hrun] at hs hc hminds
      rw [past_of_skips hs hc]
      by_cases he : e = .copy place
      · subst he
        rw [List.count_singleton_self]
        exact hwaits _ _ _ _ _ _ (hidle _ _ _ _ _ hminds hS (hs.doing rfl)) hs.waits
      · rw [List.count_singleton, if_neg (by simpa using he)]
        exact hwaits _ _ _ _ _ _ hS hs.waits

end Record

namespace Run

variable {r : Run} {e : Event}

structure Pauses (r : Run) (e : Event) : Prop where
  skips : ∀ place c', (r.happen e).net.copies[place]? = some c' →
    ∃ c, r.net.copies[place]? = some c ∧ r.Skips e place c c'
  total : ∀ k : Total, k.of (r.happen e).control = k.of r.control

theorem Pauses.map_own {α : Type} (h : r.Pauses e) {f : Local → α}
    (hf : ∀ l l', l.Rests l' → f l' = f l) :
    (r.happen e).net.copies.map (fun c => f c.own) = r.net.copies.map fun c => f c.own := by
  refine List.ext_getElem? fun i => ?_
  simp only [List.getElem?_map]
  cases hc' : (r.happen e).net.copies[i]? with
  | none =>
    rw [List.getElem?_eq_none_iff, length_copies_happen, ← List.getElem?_eq_none_iff] at hc'
    rw [hc']
  | some c' =>
    obtain ⟨c, hc, hskips⟩ := h.skips i c' hc'
    rw [hc]
    exact congrArg some (hf _ _ hskips.waits.rests)

/-- Only copies count. -/
theorem pauses_of_not_copy (h : ∀ place, e ≠ .copy place) : r.Pauses e := by
  refine ⟨fun place c' hc' => ?_, fun k => ?_⟩
  · obtain ⟨c, hc, ⟨d, hdoes⟩ | hskips⟩ := goes_happen hc'
    · exact absurd hdoes.event (h place)
    · exact ⟨c, hc, hskips⟩
  · have he := r.effect_happen e
    generalize r.happen e = r' at he
    cases he with
    | copy place => exact absurd rfl (h place)
    | _ => cases k <;> rfl

/-- By an event one copy does one thing, or none does anything. -/
theorem does_or_pauses (r : Run) (e : Event) :
    (∃ place c d c', r.net.copies[place]? = some c ∧ r.Does e place c d c' ∧
      (r.happen e).net.copies = r.net.copies.set place c') ∨ r.Pauses e := by
  by_cases hmoved : ∃ place, e = .copy place
  · obtain ⟨place, rfl⟩ := hmoved
    cases hc : r.net.copies[place]? with
    | none =>
      have hsame : r.happen (.copy place) = r := by
        simp [happen, Net.step, hc]
      refine .inr ⟨fun i c' hc' => ?_, fun k => by rw [hsame]⟩
      rw [hsame] at hc'
      refine ⟨c', hc', .refl _ _, fun he => ?_⟩
      cases he
      rw [hc] at hc'
      cases hc'
    | some c =>
      rcases does_or_skips hc with ⟨d, hdoes⟩ | ⟨hskips, hshared⟩
      · exact .inl ⟨place, c, d, _, hc, hdoes, by rw [net_happen_copy hc]⟩
      · refine .inr ⟨fun i c' hc' => ?_, fun k => by rw [control, hshared]; rfl⟩
        obtain ⟨c₀, hc₀, ⟨hne, rfl⟩ | ⟨rfl, rfl⟩⟩ := Staged.getElem?_copies_step hc'
        · refine ⟨_, hc₀, .refl _ _, fun he => ?_⟩
          cases he
          exact absurd rfl hne
        · obtain rfl := Option.some.inj (hc.symm.trans hc₀)
          exact ⟨c, hc, hskips⟩
  · exact .inr (pauses_of_not_copy fun place he => hmoved ⟨place, he⟩)

end Run

namespace Regime

open Run

variable {w : Watch} {R : Regime w} {r : Run} {xs : List w.State} {e : Event}

structure Watches (R : Regime w) (r : Run) (xs : List w.State) : Prop where
  length : xs.length = r.net.copies.length
  minds : ∀ (i : Nat) (c : Copy) (x : w.State), r.net.copies[i]? = some c → xs[i]? = some x →
    R.Minds c r.net.shared x

theorem Watches.exists_state (h : R.Watches r xs) {i : Nat} {c : Copy}
    (hc : r.net.copies[i]? = some c) : ∃ x, xs[i]? = some x ∧ R.Minds c r.net.shared x := by
  have hlt : i < xs.length := by
    rw [h.length]
    exact (List.getElem?_eq_some_iff.mp hc).1
  exact ⟨_, List.getElem?_eq_getElem hlt, h.minds i c _ hc (List.getElem?_eq_getElem hlt)⟩

theorem Watches.exists_copy (h : R.Watches r xs) {i : Nat} {x : w.State} (hx : xs[i]? = some x) :
    ∃ c, r.net.copies[i]? = some c ∧ R.Minds c r.net.shared x := by
  have hlt : i < r.net.copies.length := by
    rw [← h.length]
    exact (List.getElem?_eq_some_iff.mp hx).1
  exact ⟨_, List.getElem?_eq_getElem hlt, h.minds i _ x (List.getElem?_eq_getElem hlt) hx⟩

/-- Such a sum is none if no term is any. -/
theorem Watches.sum_eq_zero (h : R.Watches r xs) {f : w.State → Nat}
    (hf : ∀ c ∈ r.net.copies, ∀ x, R.Obeys c x → f x = 0) : (xs.map f).sum = 0 := by
  refine List.sum_eq_zero fun n hn => ?_
  obtain ⟨x, hx, rfl⟩ := List.mem_map.mp hn
  obtain ⟨i, hi⟩ := List.mem_iff_getElem?.mp hx
  obtain ⟨c, hc, hminds⟩ := h.exists_copy hi
  exact hf c (List.mem_of_getElem? hc) x hminds.obeys

theorem Watches.pause (hR : R.Lawful) (h : R.Watches r xs) (hp : r.Pauses e) :
    R.Watches (r.happen e) xs where
  length := h.length.trans (r.length_copies_happen e).symm
  minds i c' x hc' hx := by
    obtain ⟨c, hc, hskips⟩ := hp.skips i c' hc'
    exact ((h.minds i c x hc hx).waits hR hskips.waits).later (r.shared_le_happen e)

theorem Watches.does (hR : R.Lawful) (h : R.Watches r xs) {place : Nat} {c c' : Copy} {d : Doing}
    (hc : r.net.copies[place]? = some c) (hd : r.Does e place c d c')
    (hset : (r.happen e).net.copies = r.net.copies.set place c') :
    ∃ x z, xs[place]? = some x ∧ w.Next x d z ∧ R.Watches (r.happen e) (xs.set place z) := by
  obtain ⟨x, hx, hminds⟩ := h.exists_state hc
  obtain ⟨z, hz, hminds'⟩ := hminds.goes hR hd.goes
  refine ⟨x, z, hx, hz, by simp [hset, h.length], fun i c₁ x₁ hc₁ hx₁ => ?_⟩
  rw [hset] at hc₁
  by_cases hi : place = i
  · subst hi
    rw [List.getElem?_set_self (List.getElem?_eq_some_iff.mp hc).1, Option.some.injEq] at hc₁
    rw [List.getElem?_set_self (List.getElem?_eq_some_iff.mp hx).1, Option.some.injEq] at hx₁
    subst hc₁ hx₁
    exact hminds'
  · rw [List.getElem?_set_ne hi] at hc₁ hx₁
    exact (h.minds i c₁ x₁ hc₁ hx₁).later (r.shared_le_happen e)

/-- What lasts while no copy does anything, and is kept by each thing that a copy does,
lasts all the way. -/
theorem Watches.after (hR : R.Lawful) {P : List Event → List w.State → Prop}
    (hpause : ∀ events e xs, P events xs → (r.after events).Pauses e → P (events ++ [e]) xs)
    (hdoes : ∀ events e xs place c d c' x z, P events xs → R.Watches (r.after events) xs →
      (r.after events).net.copies[place]? = some c → (r.after events).Does e place c d c' →
      ((r.after events).happen e).net.copies = (r.after events).net.copies.set place c' →
      xs[place]? = some x → w.Next x d z → P (events ++ [e]) (xs.set place z))
    (h : R.Watches r xs) (hP : P [] xs) (events : List Event) :
    ∃ ys, R.Watches (r.after events) ys ∧ P events ys := by
  induction events using List.reverseRecOn with
  | nil => exact ⟨xs, h, hP⟩
  | append_singleton events e ih =>
    obtain ⟨ys, hys, hPys⟩ := ih
    rw [after_concat]
    rcases (r.after events).does_or_pauses e with ⟨place, c, d, c', hc, hd, hset⟩ | hp
    · obtain ⟨x, z, hx, hz, hnext⟩ := hys.does hR hc hd hset
      exact ⟨_, hnext, hdoes events e ys place c d c' x z hPys hys hc hd hset hx hz⟩
    · exact ⟨ys, hys.pause hR hp, hpause events e ys hPys hp⟩

end Regime

namespace Run.Made

variable {d : Definition} {registry : Registry} {config : Config} {plan : Plan} {r : Run}
  {w : Watch} {R : Regime w}

/-- A copy that was just made obeys. -/
theorem minds (h : Made d registry config plan r) {c : Copy} (hc : c ∈ r.net.copies)
    {x : w.State} (hfits : R.fits c.op) (hseam : R.seam c.op c.own.origin .created x)
    (hup : ¬ w.Down x) : R.Minds c r.net.shared x := by
  refine ⟨⟨hfits, ?_⟩, fun hd => absurd hd hup⟩
  have hkind := (h.isMade hc).choose_spec.kind
  obtain ⟨op, own, task⟩ := c
  cases task with
  | created => exact hseam
  | _ => cases hkind

theorem watches (h : Made d registry config plan r) (start : Copy → w.State)
    (hstart : ∀ c ∈ r.net.copies, R.fits c.op ∧ R.seam c.op c.own.origin .created (start c) ∧
      ¬ w.Down (start c)) : R.Watches r (r.net.copies.map start) where
  length := List.length_map _
  minds i c x hc hx := by
    rw [List.getElem?_map, hc, Option.map_some, Option.some.injEq] at hx
    have hmem := List.mem_of_getElem? hc
    obtain ⟨hfits, hseam, hup⟩ := hstart c hmem
    subst hx
    exact h.minds hmem hfits hseam hup

end Run.Made
end RowFlow
