import Mathlib.Algebra.BigOperators.Group.List.Basic
import RowFlow.Proofs.Control.Calls

/-
What can be said of a control that is called from many sides.  The invariant `Kept` knows of
each call how far it has come.  The flag goes up once, so there is one call that raised it;
it goes up after a reason was given; and a count that has reached its limit is followed by
the flag before the call ends.  A counter that starts over has less in it than before, so a
limit that it reaches then had been reached already.
-/
namespace RowFlow
namespace Calls

/-- Nothing that was told of the calls is lost. -/
structure Later (t t' : Calls) : Prop where
  past : ∀ e ∈ t.past, e ∈ t'.past
  limit? : ∀ total : Total, total.limit? t'.control = total.limit? t.control
  reason : ∀ r, t.control.reason = some r → t'.control.reason = some r
  stopped : t.control.stopped = true → t'.control.stopped = true
  calls : ∀ (i : Nat) (c : Call), t.calls[i]? = some c →
    ∃ c', t'.calls[i]? = some c' ∧ c'.operation = c.operation

namespace Later

theorem refl (t : Calls) : t.Later t :=
  ⟨fun _ h => h, fun _ => rfl, fun _ h => h, id, fun _ c hc => ⟨c, hc, rfl⟩⟩

theorem trans {t t' t'' : Calls} (h : t.Later t') (h' : t'.Later t'') : t.Later t'' where
  past e he := h'.past e (h.past e he)
  limit? total := (h'.limit? total).trans (h.limit? total)
  reason r hr := h'.reason r (h.reason r hr)
  stopped hs := h'.stopped (h.stopped hs)
  calls i c hc := by
    obtain ⟨c', hc', ho⟩ := h.calls i c hc
    obtain ⟨c'', hc'', ho'⟩ := h'.calls i c' hc'
    exact ⟨c'', hc'', ho'.trans ho⟩

end Later

theorem exists_getElem?_set {cs : List Call} {i : Nat} {c c' : Call} (hc : cs[i]? = some c)
    (ho : c'.operation = c.operation) (j : Nat) (d : Call) (hd : cs[j]? = some d) :
    ∃ d', (cs.set i c')[j]? = some d' ∧ d'.operation = d.operation := by
  by_cases hj : i = j
  · subst hj
    obtain rfl := Option.some.inj (hc.symm.trans hd)
    exact ⟨c', List.getElem?_set_self (List.getElem?_eq_some_iff.mp hc).1, ho⟩
  · exact ⟨d, by rw [List.getElem?_set_ne hj, hd], rfl⟩

theorem later_move (t : Calls) {i : Nat} {c : Call} (hc : t.calls[i]? = some c) :
    t.Later (t.move i c) := by
  cases hcarried : c.rest.carried? t.control with
  | some e =>
    obtain ⟨d, rest, control⟩ := e
    obtain ⟨-, -, -, total, n, -, -, -, -, -, -, hcontrol⟩ := exists_of_carried? hcarried
    rw [move_of_carried? hcarried]
    refine ⟨fun _ h => List.mem_cons_of_mem _ h, fun k => ?_, fun r hr => ?_, fun hs => ?_,
      exists_getElem?_set hc rfl⟩
    · show k.limit? control = _
      rw [hcontrol, Total.limit?_set]
    · show control.reason = _
      rw [hcontrol, Total.reason_set, hr]
    · show control.stopped = _
      rw [hcontrol, Total.stopped_set, hs]
  | none =>
    have hle : t.control ≤ (c.step t.shared).2.control := (c.rest.le_step c.own t.shared).control
    rw [move_of_fits hcarried]
    refine ⟨fun _ h => List.mem_append_right _ h, fun k => ?_, hle.reason, hle.stopped,
      exists_getElem?_set hc rfl⟩
    cases k with
    | errors => exact hle.maxErrors
    | sourceRows => exact hle.rowLimit

theorem later_happen (t : Calls) (e : Event) : t.Later (t.happen e) := by
  cases e with
  | begin o own =>
    refine ⟨fun _ h => h, fun _ => rfl, fun _ h => h, id, fun i c hc => ⟨c, ?_, rfl⟩⟩
    have hlt : i < t.calls.length := (List.getElem?_eq_some_iff.mp hc).1
    show (t.calls ++ [Call.start o own])[i]? = some c
    rw [List.getElem?_append_left hlt, hc]
  | step i =>
    cases hc : t.calls[i]? with
    | none => simpa [happen, hc] using Later.refl t
    | some c =>
      cases hdown : c.crashed with
      | true => simpa [happen, hc, hdown] using Later.refl t
      | false => simpa [happen, hc, hdown] using later_move t hc

variable {t t' : Calls}

namespace Later

variable (h : t.Later t')
include h

theorem reason_ne_none (hr : t.control.reason ≠ none) : t'.control.reason ≠ none := by
  obtain ⟨r, hr⟩ := Option.ne_none_iff_exists'.mp hr
  simp [h.reason r hr]

theorem reached {i : Nat} {n : UInt64} {total : Total} (hr : t.Reached i total n) :
    t'.Reached i total n := by
  obtain ⟨d, v, limit, hd, hcounted, hlimit, hle⟩ := hr
  exact ⟨d, v, limit, h.past _ hd, hcounted, by rw [h.limit?, hlimit], hle⟩

theorem shows {x : Stand} {o : Operation} {i : Nat} (hx : x.Shows t o i) : x.Shows t' o i := by
  cases x with
  | beyond =>
    obtain ⟨total, n, ho, hr⟩ := hx
    exact ⟨total, n, ho, h.reached hr⟩
  | told => exact h.reason_ne_none hx
  | settled won => exact ⟨h.past _ hx.1, h.stopped hx.2⟩
  | crashed => exact hx
  | _ => trivial

end Later

/-- The reason comes from a call to stop, or from one whose count has reached its limit. -/
def Given (t : Calls) (r : StopReason) : Prop :=
  ∃ (i : Nat) (c : Call), t.calls[i]? = some c ∧ (c.operation = .stop r ∨
    ∃ total n, c.operation = .count total n ∧ r = total.reason ∧ t.Reached i total n)

theorem Given.later {r : StopReason} (h : t.Given r) (hl : t.Later t') : t'.Given r := by
  obtain ⟨i, c, hc, hgiven⟩ := h
  obtain ⟨c', hc', ho⟩ := hl.calls i c hc
  refine ⟨i, c', hc', ?_⟩
  rw [ho]
  exact hgiven.imp_right fun ⟨total, n, ho, hr, hreached⟩ =>
    ⟨total, n, ho, hr, hl.reached hreached⟩

def won : Nat × Doing → Bool
  | (_, .act .raiseFlag true) => true
  | _ => false

/-- The operations that were called, each with how far its call has come. -/
structure Kept (t : Calls) (ps : List (Operation × Stand)) : Prop where
  calls : t.calls.map Call.operation = ps.map Prod.fst
  stands : ∀ (i : Nat) (c : Call) (x : Stand), t.calls[i]? = some c →
    ps[i]? = some (c.operation, x) → t.Stands i c x
  added : ∀ total : Total,
    total.of t.control = (ps.map fun p => p.2.added total p.1).sum % UInt64.size
  past : ∀ total : Total,
    total.of t.control = (t.past.map fun e => e.2.amount total).sum % UInt64.size
  limit : ∀ (total : Total) (limit : Nat), total.limit? t.control = some limit →
    total.of t.control < limit ∨ (∀ p ∈ ps, ∀ n, p.1 = .count total n → p.2 = .fresh) ∨
      ∃ p ∈ ps, p.2.Stops
  flag : t.control.stopped = true → t.control.reason ≠ none
  raised : ∀ i b, (i, Doing.act .raiseFlag b) ∈ t.past → t.control.stopped = true
  won : t.past.countP won = t.control.stopped.toNat
  given : ∀ r, t.control.reason = some r → t.Given r

theorem kept_fresh (checked : Bool) (maxErrors rowLimit : Option Nat) :
    (fresh checked maxErrors rowLimit).Kept [] where
  calls := rfl
  stands _ _ _ h := by simp [fresh] at h
  added total := by cases total <;> rfl
  past total := by cases total <;> rfl
  limit _ _ _ := .inr (.inl fun _ h => by cases h)
  flag h := by cases h
  raised _ _ h := by cases h
  won := rfl
  given _ h := by cases h

theorem Stands.later {i : Nat} {c : Call} {x : Stand} (h : t.Stands i c x) (hl : t.Later t') :
    t'.Stands i c x := ⟨h.heeds, h.crashed, hl.shows h.shows⟩

theorem getElem?_set_cases {α : Type*} {l : List α} {i j : Nat} {a b : α}
    (h : (l.set i b)[j]? = some a) : j = i ∧ a = b ∨ j ≠ i ∧ l[j]? = some a := by
  by_cases hj : i = j
  · subst hj
    have hlt : i < (l.set i b).length := (List.getElem?_eq_some_iff.mp h).1
    rw [List.length_set] at hlt
    rw [List.getElem?_set_self hlt, Option.some.injEq] at h
    exact .inl ⟨rfl, h.symm⟩
  · rw [List.getElem?_set_ne hj] at h
    exact .inr ⟨Ne.symm hj, h⟩

theorem exists_of_raises {d : Doing} (hd : d.raises = true) : ∃ b, d = .act .raiseFlag b := by
  cases d with
  | act a v =>
    cases a with
    | raiseFlag => exact ⟨v, rfl⟩
    | _ => cases hd
  | _ => cases hd

namespace Stand.Next

variable {o : Operation} {x z : Stand} {d : Doing} (h : x.Next o d z)
include h

theorem added (total : Total) : x.added total o + d.amount total = z.added total o := by
  cases h with
  | below hd | beyond hd | crash hd =>
    simp only [Stand.added, Doing.amount, hd, Operation.amount, Nat.zero_add]
  | _ => rfl

theorem told_of_raises (hd : d.raises = true) : x = .told := by
  cases h with
  | raise => rfl
  | below hcounted | beyond hcounted | crash hcounted =>
    simp [(quiet_of_counted hcounted).1] at hd
  | _ => cases hd

end Stand.Next

theorem won_of_not_raises (i : Nat) {d : Doing} (hd : d.raises = false) : won (i, d) = false := by
  cases d with
  | act a v =>
    cases a with
    | raiseFlag => cases hd
    | _ => rfl
  | _ => rfl

/-- What the call has done shows. -/
theorem Does.shows {i : Nat} {c c' : Call} {x z : Stand} {d : Doing}
    (hd : t.Does i c x d c' z t') : z.Shows t' c'.operation i := by
  have hmem : (i, d) ∈ t'.past := by
    rw [hd.past]
    exact List.mem_cons_self
  have hnext := hd.next
  rw [hd.operation]
  generalize c.operation = o at hnext
  cases hnext with
  | give | tell =>
    show t'.control.reason ≠ none
    rw [hd.reason]
    cases t.control.reason <;> simp [Doing.reason?]
  | below hcounted hv => trivial
  | crash hcounted hv => exact ⟨_, _, rfl⟩
  | @beyond total n d v hcounted hv =>
    have htally := hd.tally _ _ _ hcounted
    rw [htally] at hv
    cases hlimit : total.limit? t'.control with
    | none => simp [Total.tally, hlimit, Control.reaches] at hv
    | some limit =>
      have hle : limit ≤ total.of t'.control := by
        simpa [Total.tally, hlimit, Control.reaches] using hv
      exact ⟨total, n, rfl, d, v, limit, hmem, hcounted, hlimit, by rw [htally]; exact hle⟩
  | raise => exact ⟨hmem, by rw [hd.stopped]; exact Bool.or_true _⟩

/-- Whoever gives a reason has one. -/
theorem Does.given {i : Nat} {c c' : Call} {x z : Stand} {d : Doing} {r : StopReason}
    (hc : t.calls[i]? = some c) (hd : t.Does i c x d c' z t') (hs : t.Stands i c x)
    (hl : t.Later t') (hr : d.reason? = some r) : t'.Given r := by
  have hc' : t'.calls[i]? = some c' := by
    rw [hd.calls, List.getElem?_set_self (List.getElem?_eq_some_iff.mp hc).1]
  have hshows := hl.shows hs.shows
  have hnext := hd.next
  rw [← hd.operation] at hnext hshows
  generalize ho : c'.operation = o at hnext hshows
  cases hnext with
  | give =>
    cases hr
    exact ⟨i, c', hc', .inl ho⟩
  | tell =>
    cases hr
    obtain ⟨total, n, heq, hreached⟩ := hshows
    cases heq
    exact ⟨i, c', hc', .inr ⟨_, _, ho, rfl, hreached⟩⟩
  | below hcounted | beyond hcounted | crash hcounted =>
    simp [(quiet_of_counted hcounted).2] at hr
  | raise => cases hr

namespace Kept

variable {ps : List (Operation × Stand)} (h : t.Kept ps)
include h

theorem exists_stand {i : Nat} {c : Call} (hc : t.calls[i]? = some c) :
    ∃ x, ps[i]? = some (c.operation, x) ∧ t.Stands i c x := by
  have hop := congrArg (fun l => l[i]?) h.calls
  simp only [List.getElem?_map, hc, Option.map_some] at hop
  obtain ⟨⟨o, x⟩, hx, rfl⟩ := Option.map_eq_some_iff.mp hop.symm
  exact ⟨x, hx, h.stands i c x hc hx⟩

theorem begin (o : Operation) (own : Local) :
    (t.happen (.begin o own)).Kept (ps ++ [(o, .fresh)]) := by
  have hlater := t.later_happen (.begin o own)
  have hlength : t.calls.length = ps.length := by simpa using congrArg List.length h.calls
  refine ⟨?_, fun i c x hc hx => ?_, fun total => ?_, h.past, fun total limit hlimit => ?_, h.flag,
    h.raised, h.won, fun r hr => (h.given r hr).later hlater⟩
  · show (t.calls ++ [_]).map Call.operation = _
    rw [List.map_append, List.map_append, h.calls]
    rfl
  · replace hc : (t.calls ++ [Call.start o own])[i]? = some c := hc
    rw [List.getElem?_append] at hc hx
    rw [hlength] at hc
    split at hc
    · next hlt =>
      rw [if_pos hlt] at hx
      exact (h.stands i c x hc hx).later hlater
    · next hlt =>
      rw [if_neg hlt] at hx
      obtain rfl : c = Call.start o own := by
        obtain ⟨_, rfl⟩ := List.getElem?_eq_some_iff.mp hc
        exact List.getElem_singleton _
      obtain ⟨_, heq⟩ := List.getElem?_eq_some_iff.mp hx
      rw [List.getElem_singleton] at heq
      cases heq
      exact ⟨fun _ => heeds_operation o own.origin, nofun, trivial⟩
  · show total.of t.control = _
    rw [h.added total, List.map_append, List.sum_append]
    rfl
  · rcases h.limit total limit hlimit with hbelow | hfresh | ⟨p, hp, hstops⟩
    · exact .inl hbelow
    · refine .inr (.inl fun p hp n ho => ?_)
      rcases List.mem_append.mp hp with hp | hp
      · exact hfresh p hp n ho
      · rw [List.mem_singleton.mp hp]
    · exact .inr (.inr ⟨p, List.mem_append_left _ hp, hstops⟩)

theorem rests {i : Nat} {c c' : Call} {x : Stand} (hc : t.calls[i]? = some c)
    (hx : ps[i]? = some (c.operation, x)) (hr : t.Rests i c x c' t') (hl : t.Later t') :
    t'.Kept ps := by
  have hcontrol : t'.control = t.control := by rw [Calls.control, hr.shared]; rfl
  refine ⟨?_, fun j c₁ x₁ hc₁ hx₁ => ?_, ?_, ?_, ?_, ?_, ?_, ?_, fun r hgiven => ?_⟩
  · obtain ⟨hlt, rfl⟩ := List.getElem?_eq_some_iff.mp hc
    have hlt' : i < (t.calls.map Call.operation).length := by simpa using hlt
    rw [hr.calls, List.map_set, hr.operation, ← h.calls,
      ← List.getElem_map Call.operation (h := hlt'), List.set_getElem_self]
  · rw [hr.calls] at hc₁
    rcases getElem?_set_cases hc₁ with ⟨rfl, rfl⟩ | ⟨hne, hc₁⟩
    · rw [hr.operation, hx] at hx₁
      cases hx₁
      refine ⟨fun _ => hr.heeds, fun hdown => ?_,
        hr.operation ▸ hl.shows (h.stands j c x hc hx).shows⟩
      rw [hr.crashed] at hdown
      cases hdown
    · exact (h.stands j c₁ x₁ hc₁ hx₁).later hl
  · rw [hcontrol]
    exact h.added
  · rw [hcontrol, hr.past]
    exact h.past
  · rw [hcontrol]
    exact h.limit
  · rw [hcontrol]
    exact h.flag
  · rw [hcontrol, hr.past]
    exact h.raised
  · rw [hcontrol, hr.past]
    exact h.won
  · rw [hcontrol] at hgiven
    exact (h.given r hgiven).later hl

theorem fits (total : Total) : total.of t.control < UInt64.size := by
  rw [h.added]
  exact Nat.mod_lt _ (by decide)

/-- Where all calls that count a total have yet to begin there is nothing in its counter. -/
theorem total_of_fresh {total : Total}
    (hfresh : ∀ p ∈ ps, ∀ n, p.1 = .count total n → p.2 = .fresh) : total.of t.control = 0 := by
  rw [h.added, List.sum_eq_zero fun m hm => ?_]
  · rfl
  · obtain ⟨⟨o, x⟩, hp, rfl⟩ := List.mem_map.mp hm
    cases x with
    | fresh => rfl
    | _ => exact Operation.amount_eq_zero fun n ho => by cases hfresh _ hp n ho

/-- A call that begins leaves a limit as it is if the counter has no more in it than before. -/
theorem limit_of_le {i : Nat} {o : Operation} {total : Total} {limit new : Nat}
    (hx : ps[i]? = some (o, .fresh)) (hlimit : total.limit? t.control = some limit) (z : Stand)
    (hle : new ≤ total.of t.control) (hcount : ∀ n, o = .count total n → 0 < total.of t.control) :
    new < limit ∨ (∀ p ∈ ps.set i (o, z), ∀ n, p.1 = .count total n → p.2 = .fresh) ∨
      ∃ p ∈ ps.set i (o, z), p.2.Stops := by
  rcases h.limit total limit hlimit with hbelow | hfresh | ⟨p, hp, hstops⟩
  · exact .inl (by omega)
  · refine .inr (.inl fun p hp m ho => ?_)
    rcases List.mem_or_eq_of_mem_set hp with hp | rfl
    · exact hfresh p hp m ho
    · have hzero := h.total_of_fresh hfresh
      have hpos := hcount m ho
      omega
  · refine .inr (.inr ⟨p, ?_, hstops⟩)
    obtain ⟨j, hj⟩ := List.mem_iff_getElem?.mp hp
    have hne : i ≠ j := by
      rintro rfl
      obtain rfl := Option.some.inj (hx.symm.trans hj)
      exact hstops
    exact List.mem_of_getElem? (by rw [List.getElem?_set_ne hne, hj])

section Does

variable {i : Nat} {c c' : Call} {x z : Stand} {d : Doing}
  (hx : ps[i]? = some (c.operation, x)) (hd : t.Does i c x d c' z t') (hl : t.Later t')
include hx hd hl

theorem limit_does (total : Total) (limit : Nat) (hlimit : total.limit? t'.control = some limit) :
    total.of t'.control < limit ∨
      (∀ p ∈ ps.set i (c.operation, z), ∀ n, p.1 = .count total n → p.2 = .fresh) ∨
        ∃ p ∈ ps.set i (c.operation, z), p.2.Stops := by
  have hold : total.limit? t.control = some limit := by rw [← hl.limit?, hlimit]
  have htotal := hd.total total
  have htally := hd.tally
  have hnext := hd.next
  generalize c.operation = o at hnext hx ⊢
  have hnow : (o, z) ∈ ps.set i (o, z) := List.mem_set (List.getElem?_eq_some_iff.mp hx).1 _
  cases hnext with
  | @below k n d v hcounted hv =>
    by_cases hk : k = total
    · subst hk
      rw [htally _ _ _ hcounted, Total.tally, hlimit] at hv
      exact .inl (by simpa [Control.reaches] using hv)
    · refine h.limit_of_le hx hold (.below) (Nat.le_of_eq ?_) fun m ho => ?_
      · simpa [Doing.amount, hcounted, hk, Nat.mod_eq_of_lt (h.fits total)] using htotal
      · cases ho
        exact absurd rfl hk
  | @crash k n d v hcounted hv =>
    by_cases hk : k = total
    · subst hk
      -- The counter has started over, so there was something in it, and more than now.
      rw [htally _ _ _ hcounted, Total.tally, htotal] at hv
      have hfits := h.fits k
      have hn := n.toNat_lt
      simp only [Doing.amount, hcounted, if_pos, UInt64.size] at hv htotal hfits
      exact h.limit_of_le hx hold .crashed (by omega) fun m _ => by omega
    · refine h.limit_of_le hx hold .crashed (Nat.le_of_eq ?_) fun m ho => ?_
      · simpa [Doing.amount, hcounted, hk, Nat.mod_eq_of_lt (h.fits total)] using htotal
      · cases ho
        exact absurd rfl hk
  | _ => exact .inr (.inr ⟨_, hnow, trivial⟩)

theorem stands_does {j : Nat} {c₁ : Call} {x₁ : Stand} (hc₁ : t'.calls[j]? = some c₁)
    (hx₁ : (ps.set i (c.operation, z))[j]? = some (c₁.operation, x₁)) : t'.Stands j c₁ x₁ := by
  rw [hd.calls] at hc₁
  rcases getElem?_set_cases hc₁ with ⟨rfl, rfl⟩ | ⟨hne, hc₁⟩
  · rw [List.getElem?_set_self (List.getElem?_eq_some_iff.mp hx).1, hd.operation] at hx₁
    cases hx₁
    exact ⟨hd.heeds, hd.crashed, hd.shows⟩
  · rw [List.getElem?_set_ne (Ne.symm hne)] at hx₁
    exact (h.stands j c₁ x₁ hc₁ hx₁).later hl

omit hl in
theorem added_does (total : Total) : total.of t'.control =
    ((ps.set i (c.operation, z)).map fun p => p.2.added total p.1).sum % UInt64.size := by
  have hsum := sum_map_set (fun p : Operation × Stand => p.2.added total p.1) hx (c.operation, z)
  have hadded := hd.next.added total
  simp only at hsum
  rw [hd.total, h.added, Nat.mod_add_mod]
  congr 1
  omega

omit hx hl in
theorem past_does (total : Total) :
    total.of t'.control = (t'.past.map fun e => e.2.amount total).sum % UInt64.size := by
  rw [hd.total, h.past, Nat.mod_add_mod, hd.past, List.map_cons, List.sum_cons, Nat.add_comm]

omit hx hl in
theorem won_does : t'.past.countP Calls.won = t'.control.stopped.toNat := by
  rw [hd.past, List.countP_cons, h.won, hd.stopped]
  cases hraises : d.raises with
  | false => rw [won_of_not_raises i hraises]; simp
  | true =>
    obtain ⟨b, rfl⟩ := exists_of_raises hraises
    rw [hd.won b rfl]
    cases t.control.stopped <;> rfl

omit hx in
theorem raised_does {j : Nat} {b : Bool} (hb : (j, Doing.act .raiseFlag b) ∈ t'.past) :
    t'.control.stopped = true := by
  rw [hd.past] at hb
  rcases List.mem_cons.mp hb with heq | hb
  · cases heq
    rw [hd.stopped]
    exact Bool.or_true _
  · exact hl.stopped (h.raised j b hb)

variable (hc : t.calls[i]? = some c)
include hc

theorem flag_does (hup : t'.control.stopped = true) : t'.control.reason ≠ none := by
  cases hdown : t.control.stopped with
  | true => exact hl.reason_ne_none (h.flag hdown)
  | false =>
    rw [hd.stopped, hdown, Bool.false_or] at hup
    have hnext := hd.next
    obtain rfl := hnext.told_of_raises hup
    exact hl.reason_ne_none (h.stands i c .told hc hx).shows

theorem given_does {r : StopReason} (hgiven : t'.control.reason = some r) : t'.Given r := by
  cases hold : t.control.reason with
  | some r' =>
    rw [hd.reason, hold] at hgiven
    cases hgiven
    exact (h.given r hold).later hl
  | none =>
    rw [hd.reason, hold, Option.none_or] at hgiven
    exact hd.given hc (h.stands i c x hc hx) hl hgiven

theorem does : t'.Kept (ps.set i (c.operation, z)) where
  calls := by rw [hd.calls, List.map_set, List.map_set, h.calls, hd.operation]
  stands _ _ _ hc₁ hx₁ := h.stands_does hx hd hl hc₁ hx₁
  added := h.added_does hx hd
  past := h.past_does hd
  limit := h.limit_does hx hd hl
  flag := h.flag_does hx hd hl hc
  raised _ _ := h.raised_does hd hl
  won := h.won_does hd
  given _ := h.given_does hx hd hl hc

end Does

theorem happen (e : Event) : ∃ ps', (t.happen e).Kept ps' := by
  have hlater := t.later_happen e
  cases e with
  | begin o own => exact ⟨_, h.begin o own⟩
  | step i =>
    cases hc : t.calls[i]? with
    | none => exact ⟨ps, by simpa [Calls.happen, hc] using h⟩
    | some c =>
      cases hup : c.crashed with
      | true => exact ⟨ps, by simpa [Calls.happen, hc, hup] using h⟩
      | false =>
        have hmove : t.happen (.step i) = t.move i c := by simp [Calls.happen, hc, hup]
        obtain ⟨x, hx, hs⟩ := h.exists_stand hc
        rw [hmove] at hlater ⊢
        rcases does_or_rests (hs.heeds hup) h.fits hup with ⟨d, c', z, hd⟩ | ⟨c', hr⟩
        · exact ⟨_, h.does hx hd hlater hc⟩
        · exact ⟨ps, h.rests hc hx hr hlater⟩

/-- A call that has returned has come to its end. -/
theorem ended {i : Nat} {c : Call} (hc : t.calls[i]? = some c) (hup : c.crashed = false)
    {a : c.operation.request.Answer} (hdone : c.rest = .done a) :
    ∃ x, ps[i]? = some (c.operation, x) ∧ x.Shows t c.operation i ∧ Ends c.operation a x := by
  obtain ⟨x, hx, hs⟩ := h.exists_stand hc
  have hheeds := hs.heeds hup
  rw [hdone] at hheeds
  exact ⟨x, hx, hs.shows, hheeds x rfl⟩

/-- Where no call is on its way each has begun, and the flag is up if one of them stops the
run. -/
theorem ended_of_quiet (hquiet : t.Quiet) {p : Operation × Stand} (hp : p ∈ ps) :
    p.2 ≠ .fresh ∧ (p.2.Stops → t.control.stopped = true) := by
  obtain ⟨i, hi⟩ := List.mem_iff_getElem?.mp hp
  have hop := congrArg (fun l => l[i]?) h.calls
  simp only [List.getElem?_map, hi, Option.map_some] at hop
  obtain ⟨c, hc, ho⟩ := Option.map_eq_some_iff.mp hop
  have hover := hquiet c (List.mem_of_getElem? hc)
  cases hup : c.crashed with
  | true =>
    obtain ⟨x, hx, hs⟩ := h.exists_stand hc
    obtain rfl := Option.some.inj (hi.symm.trans hx)
    have hcrashed : x = .crashed := hs.crashed hup
    subst hcrashed
    exact ⟨nofun, fun hstops => hstops.elim⟩
  | false =>
    cases hrest : c.rest with
    | done a =>
      obtain ⟨x, hx, hshows, hends⟩ := h.ended hc hup hrest
      obtain rfl := Option.some.inj (hi.symm.trans hx)
      rcases below_or_settled hends with rfl | ⟨won, rfl⟩
      · exact ⟨nofun, fun hstops => hstops.elim⟩
      · exact ⟨nofun, fun _ => hshows.2⟩
    | _ => simp [Call.isOver, hup, hrest, Program.isDone] at hover

theorem total_of_quiet (hquiet : t.Quiet) (total : Total) : total.of t.control =
    (t.calls.map fun c => c.operation.amount total).sum % UInt64.size := by
  have hall : ps.map (fun p => p.2.added total p.1) = ps.map fun p => p.1.amount total := by
    refine List.map_congr_left fun p hp => ?_
    have hbegun := (h.ended_of_quiet hquiet hp).1
    obtain ⟨o, x⟩ := p
    cases x with
    | fresh => exact absurd rfl hbegun
    | _ => rfl
  have hcalls := congrArg (List.map (Operation.amount total)) h.calls
  rw [List.map_map, List.map_map] at hcalls
  rw [h.added, hall]
  exact congrArg (List.sum · % UInt64.size) hcalls.symm

/-- Where no call is on its way and all calls that count the total have yet to begin there
are none. -/
theorem ne_count_of_fresh (hquiet : t.Quiet) {total : Total}
    (hfresh : ∀ p ∈ ps, ∀ n, p.1 = .count total n → p.2 = .fresh) {c : Call} (hc : c ∈ t.calls)
    (n : UInt64) : c.operation ≠ .count total n := by
  intro ho
  obtain ⟨i, hi⟩ := List.mem_iff_getElem?.mp hc
  obtain ⟨x, hx, -⟩ := h.exists_stand hi
  have hmem := List.mem_of_getElem? hx
  exact (h.ended_of_quiet hquiet hmem).1 (hfresh _ hmem n ho)

end Kept

theorem kept_after (h : ∃ ps, t.Kept ps) (events : List Event) :
    ∃ ps, (t.after events).Kept ps := by
  induction events generalizing t with
  | nil => exact h
  | cons e rest ih =>
    obtain ⟨ps, hps⟩ := h
    exact ih (hps.happen e)

theorem later_after (t : Calls) (events : List Event) : t.Later (t.after events) := by
  induction events generalizing t with
  | nil => exact .refl t
  | cons e rest ih => exact (t.later_happen e).trans (ih (t.happen e))

/-- What can be said of the control whoever calls it.  The totals are those of counters that
start over: they are the sums that were added as long as these fit. -/
structure Consistent (t : Calls) : Prop where
  flag : t.control.stopped = true → t.control.reason ≠ none
  given : ∀ r, t.control.reason = some r → t.Given r
  won : (∃ i b, (i, Doing.act .raiseFlag b) ∈ t.past) → t.past.countP won = 1
  /-- A call to stop returns the answer that it got when it raised the flag. -/
  answer : ∀ (i : Nat) (c : Call) (b : Bool), t.calls[i]? = some c → c.answer? = some b →
    (i, Doing.act .raiseFlag b) ∈ t.past
  added : ∀ total : Total,
    total.of t.control = (t.past.map fun e => e.2.amount total).sum % UInt64.size
  total : t.Quiet → ∀ total : Total, total.of t.control =
    (t.calls.map fun c => c.operation.amount total).sum % UInt64.size
  limit : t.Quiet → ∀ (total : Total) (limit : Nat), total.limit? t.control = some limit →
    limit ≤ total.of t.control → 0 < limit ∨ (∃ c ∈ t.calls, ∃ n, c.operation = .count total n) →
    t.control.stopped = true

theorem Kept.consistent {ps : List (Operation × Stand)} (h : t.Kept ps) : t.Consistent where
  flag := h.flag
  given := h.given
  won := by
    rintro ⟨i, b, hb⟩
    rw [h.won, h.raised i b hb]
    rfl
  answer i c b hc hb := by
    obtain ⟨o, own, rest, crashed⟩ := c
    cases o with
    | stop r =>
      cases hup : crashed with
      | true =>
        obtain ⟨x, -, hs⟩ := h.exists_stand hc
        obtain rfl := hs.crashed hup
        obtain ⟨total, n, ho⟩ := hs.shows
        cases ho
      | false =>
        cases rest with
        | done a =>
          obtain rfl : a = b := Option.some.inj hb
          obtain ⟨x, -, hshows, rfl⟩ := h.ended hc hup rfl
          exact hshows.1
        | _ => cases hb
    | count total n => cases hb
  added := h.past
  total hquiet total := h.total_of_quiet hquiet total
  limit hquiet total limit hlimit hle hcalled := by
    rcases h.limit total limit hlimit with hbelow | hfresh | ⟨p, hp, hstops⟩
    · exact absurd hle (Nat.not_le.mpr hbelow)
    · have hzero := h.total_of_fresh hfresh
      rcases hcalled with hpos | ⟨c, hc, n, ho⟩
      · omega
      · exact absurd ho (h.ne_count_of_fresh hquiet hfresh hc n)
    · exact (h.ended_of_quiet hquiet hp).2 hstops

/-- Any number of calls to stop and to count, whatever their order, their amounts and their
limits: there is a reason before the flag is up, and it was asked for; one call is told that
it raised the flag; the totals are what was added, as far as it fits; and where no call is on
its way a total that has been counted up to its limit has stopped the run.  Neither the flag
nor the reason ever changes back.  It is so whether or not additions are checked. -/
theorem consistent_after (checked : Bool) (maxErrors rowLimit : Option Nat)
    (events more : List Event) :
    ((fresh checked maxErrors rowLimit).after events).Consistent ∧
    (((fresh checked maxErrors rowLimit).after events).control.stopped = true →
      (((fresh checked maxErrors rowLimit).after events).after more).control.stopped = true) ∧
    ∀ r, ((fresh checked maxErrors rowLimit).after events).control.reason = some r →
      (((fresh checked maxErrors rowLimit).after events).after more).control.reason = some r := by
  obtain ⟨ps, hps⟩ := kept_after ⟨[], kept_fresh checked maxErrors rowLimit⟩ events
  have hlater := later_after ((fresh checked maxErrors rowLimit).after events) more
  exact ⟨hps.consistent, hlater.stopped, hlater.reason⟩

def caller : Local := .fresh { name := "source" } [] [] none

/-- A control that allows no errors at all, with one source row counted by a copy. -/
def strict : Calls :=
  (fresh false (some 0) none).after [.begin (.count .sourceRows 1) caller, .step 0]

/-- Errors are counted that do not fit into the counter. -/
def passing : Calls :=
  (fresh false none none).after [.begin (.count .errors 18446744073709551614) caller, .step 0,
    .begin (.count .errors 3) caller, .step 1]

/-- A limit of no errors is reached from the start, but nobody looks before errors are
counted; and a count that does not fit leaves a total that is not the sum. -/
theorem unstopped_strict_passing :
    (strict.Quiet ∧ strict.control.maxErrors = some 0 ∧
      ¬ (0 ≤ strict.control.errors → strict.control.stopped = true)) ∧
    passing.Quiet ∧ passing.control.errors = 1 ∧
      (passing.calls.map fun c => c.operation.amount .errors).sum = 18446744073709551617 := by
  have hstrict : strict.calls.all Call.isOver = true := rfl
  have hpassing : passing.calls.all Call.isOver = true := rfl
  refine ⟨⟨List.all_eq_true.mp hstrict, rfl, fun h => ?_⟩, List.all_eq_true.mp hpassing, rfl, rfl⟩
  cases h (Nat.zero_le _)

end Calls
end RowFlow
