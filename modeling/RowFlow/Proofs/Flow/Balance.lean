import Mathlib.Algebra.BigOperators.Group.Finset.Basic
import Mathlib.Algebra.Order.Group.Multiset
import Mathlib.Tactic.Abel
import RowFlow.Proofs.Flow.Contract
import RowFlow.Proofs.Progress.Waiting

/-
No row is lost and none comes twice.  As long as no reason to stop has been given, the
rows that have been given to the row sets of a run are those that have been taken from
them and those that are still in them.  An action moves one row at most, and only its
own copy and one row set know of it.
-/
namespace RowFlow

namespace Shared

def bufferAt (s : Shared) (i : Nat) : List Row := (s.rowSets[i]?.map (·.buffer)).getD []

def held (s : Shared) : Multiset (Nat × Row) :=
  ∑ i ∈ Finset.range s.rowSets.length, ((s.bufferAt i).map (i, ·) : List (Nat × Row))

end Shared

namespace Flow

/-- Two sums that differ in one term. -/
theorem sum_change {α : Type} {f g : Nat → Multiset α} {n i : Nat} (hi : i < n)
    (hsame : ∀ j, j ≠ i → g j = f j) {a b : Multiset α} (h : g i + a = f i + b) :
    ∑ j ∈ Finset.range n, g j + a = ∑ j ∈ Finset.range n, f j + b := by
  have hmem : i ∈ Finset.range n := Finset.mem_range.mpr hi
  have hrest : ∑ j ∈ (Finset.range n).erase i, g j = ∑ j ∈ (Finset.range n).erase i, f j :=
    Finset.sum_congr rfl fun j hj => hsame j (Finset.ne_of_mem_erase hj)
  rw [← Finset.add_sum_erase _ g hmem, ← Finset.add_sum_erase _ f hmem, hrest,
    add_right_comm, h, add_right_comm]

section Held

variable {s : Shared} {i : Nat} {rs : RowSet} {row : Row}

theorem bufferAt_of_getElem? (hrs : s.rowSets[i]? = some rs) : s.bufferAt i = rs.buffer := by
  rw [Shared.bufferAt, hrs]
  rfl

/-- The row sets but for one are as they were. -/
theorem held_set {rs' : RowSet} (hrs : s.rowSets[i]? = some rs) {a b : Multiset (Nat × Row)}
    (h : ((rs'.buffer.map (i, ·) : List (Nat × Row)) : Multiset (Nat × Row)) + a =
      (rs.buffer.map (i, ·) : List (Nat × Row)) + b) :
    Shared.held { s with rowSets := s.rowSets.set i rs' } + a = s.held + b := by
  have hlt := (List.getElem?_eq_some_iff.mp hrs).1
  simp only [Shared.held, List.length_set]
  refine sum_change hlt (fun j hj => ?_) ?_
  · simp only [Shared.bufferAt, List.getElem?_set_ne (Ne.symm hj)]
  · have hset : (s.rowSets.set i rs')[i]? = some rs' := List.getElem?_set_self hlt
    rw [bufferAt_of_getElem? hrs, bufferAt_of_getElem? (s := { s with rowSets := _ }) hset]
    exact h

theorem held_poll (h : (s.poll i).2 = .row row) : s.held = (s.poll i).1.held + {(i, row)} := by
  unfold Shared.poll at h ⊢
  split at h
  · cases h
  · next rs hrs =>
    have hpoll : rs.buffer = row :: rs.poll.1.buffer := by
      unfold RowSet.poll at h ⊢
      split at h
      · next first rest hbuffer =>
        cases h
        simp [hbuffer]
      · split at h <;> cases h
    rw [← add_zero (Shared.held s)]
    refine (held_set hrs ?_).symm
    rw [hpoll, List.map_cons, ← Multiset.cons_coe, ← Multiset.singleton_add, add_zero, add_comm]

theorem held_offer (h : (s.offer i row).2 = .ok .accepted) :
    (s.offer i row).1.held = s.held + {(i, row)} := by
  unfold Shared.offer at h ⊢
  split at h
  · cases h
  · next rs hrs =>
    have hoffer : (rs.offer row).1.buffer = rs.buffer ++ [row] := by
      revert h
      unfold RowSet.offer
      repeat' split
      all_goals simp
    rw [← add_zero (Shared.held _)]
    refine held_set hrs ?_
    rw [hoffer, List.map_append, ← Multiset.coe_add, add_zero]
    rfl

theorem held_close : (s.close i).1.held = s.held := by
  unfold Shared.close
  split
  · rfl
  · next rs hrs =>
    have hclose : rs.close.1.buffer = rs.buffer := by
      unfold RowSet.close
      split <;> rfl
    rw [← add_zero (Shared.held _), ← add_zero (Shared.held s)]
    refine held_set hrs ?_
    rw [hclose]

/-- Nothing is lost when a row set is left that has ended. -/
theorem held_detach (h : s.IsDone i) : (s.detach i).held = s.held := by
  simp only [Shared.held, Shared.detach, List.length_modify]
  refine Finset.sum_congr rfl fun j _ => ?_
  have hbuffer : (s.detach i).bufferAt j = s.bufferAt j := by
    simp only [Shared.bufferAt, Shared.detach, List.getElem?_modify]
    cases hrs : s.rowSets[j]? with
    | none => rfl
    | some rs =>
      by_cases hij : i = j
      · subst hij
        have hdone := h rs hrs
        simp only [RowSet.isDone, Bool.and_eq_true, List.isEmpty_iff] at hdone
        simp [hdone.2]
      · simp [hij]
  rw [← hbuffer]
  rfl

end Held

theorem gives_enter (a : Action) (x : Account) : (a.enter x).gives = x.gives := by
  cases a with
  | mark m =>
    cases m with
    | got row => cases row <;> rfl
    | putDone r => cases r <;> rfl
    | rejectDone r => cases r <;> rfl
    | _ => rfl
  | add counter n => cases counter <;> rfl
  | _ => rfl

theorem takes_enter (a : Action) (x : Account) : (a.enter x).takes = x.takes := by
  cases a with
  | mark m =>
    cases m with
    | got row => cases row <;> rfl
    | putDone r => cases r <;> rfl
    | rejectDone r => cases r <;> rfl
    | _ => rfl
  | add counter n => cases counter <;> rfl
  | _ => rfl

theorem held_perform {a : Action} {p : Position} {x : a.Answer} {l : Local} {s : Shared}
    (ha : ∀ i, a = .detach i → p.shared.IsDone i)
    (h : a.perform p.own p.shared = (some x, l, s)) : s.held = p.shared.held := by
  cases a with
  | close i =>
    cases h
    exact held_close
  | detach i =>
    cases h
    exact held_detach (ha i rfl)
  | _ =>
    simp only [Action.perform, Prod.mk.injEq] at h
    obtain ⟨-, -, rfl⟩ := h
    rfl

/-- What an action gives it adds to the row sets, and what it takes comes from there. -/
theorem moved_of_leads {n : Node} {p q : Position} (h : n.Leads p q)
    (hn : ∀ i, n = .act (.detach i) → p.shared.IsDone i) :
    (q.account.gives + (p.account.takes + p.shared.held) : Multiset (Nat × Row)) =
      p.account.gives + (q.account.takes + q.shared.held) := by
  cases h with
  | @act a p x l s ha =>
    have hheld := held_perform (fun i hi => hn i (congrArg Node.act hi)) ha
    rw [account_of_act ha, gives_enter, takes_enter, hheld]
  | pass => rfl
  | drop _ => rfl
  | @take p i row _ hrow =>
    show (p.account.gives : Multiset (Nat × Row)) + (p.account.takes + p.shared.held) =
      p.account.gives +
        (((i, row) :: p.account.takes : List (Nat × Row)) + (p.shared.poll i).1.held)
    rw [held_poll hrow, ← Multiset.cons_coe, ← Multiset.singleton_add]
    abel
  | @give p i row haccepted =>
    show (((i, row) :: p.account.gives : List (Nat × Row)) : Multiset (Nat × Row)) +
        (p.account.takes + p.shared.held) =
      p.account.gives + (p.account.takes + (p.shared.offer i row).1.held)
    rw [held_offer haccepted, ← Multiset.cons_coe, ← Multiset.singleton_add]
    abel

section Records

open Run

variable {t : Record}

def total (t : Record) (f : Account → List (Nat × Row)) : Multiset (Nat × Row) :=
  ∑ place ∈ Finset.range t.run.net.copies.length, (f (.ofPast (t.past place)) : Multiset _)

def Balanced (t : Record) : Prop :=
  t.run.control.reason = none → total t (·.gives) = total t (·.takes) + t.run.net.shared.held

theorem balance_step {α : Type} {G G' T T' H H' g g' k k' : Multiset α} (hb : G = T + H)
    (hG : G' + g = G + g') (hT : T' + k = T + k') (hm : g' + (k + H) = g + (k' + H')) :
    G' = T' + H' := by
  refine add_right_cancel (b := g + k) ?_
  calc G' + (g + k) = G' + g + k := by abel
    _ = T + (g' + (k + H)) := by rw [hG, hb]; abel
    _ = T + k' + (g + H') := by rw [hm]; abel
    _ = T' + H' + (g + k) := by rw [← hT]; abel

theorem rowSets_happen (r : Run) {e : Event} (he : ∀ place, e ≠ .copy place) :
    (r.happen e).net.shared.rowSets = r.net.shared.rowSets := by
  have heffect := r.effect_happen e
  generalize r.happen e = r' at heffect
  cases heffect with
  | copy place => exact absurd rfl (he place)
  | _ => rfl

theorem total_step (f : Account → List (Nat × Row)) {place : Nat}
    (hlt : place < t.run.net.copies.length) :
    total (t.happen (.copy place)) f + (f (.ofPast (t.past place)) : Multiset _) =
      total t f + (f (.ofPast ((t.happen (.copy place)).past place)) : Multiset _) := by
  have hlen : (t.happen (.copy place)).run.net.copies.length = t.run.net.copies.length :=
    t.run.length_copies_happen (.copy place)
  rw [total, total, hlen]
  refine sum_change hlt (fun other hne => ?_) (add_comm _ _)
  rw [show (t.happen (.copy place)).past other = t.past other from Function.update_of_ne hne _ _]

theorem balanced_step (hk : t.Kept agreement) (hb : Balanced t) {place : Nat} {c : Copy}
    (hc : t.run.net.copies[place]? = some c) : Balanced (t.happen (.copy place)) := by
  intro hclear
  let p := t.position place c
  let q : Position :=
    ⟨(c.deed? p.shared).toList ++ p.past, (c.step p.shared).1.own, (c.step p.shared).2⟩
  have hpast : (t.happen (.copy place)).past place = q.past := by
    simp only [Record.happen, Record.deed?, hc, Option.bind_some, Function.update_self]
    rfl
  have hshared : (t.happen (.copy place)).run.net.shared = q.shared := by
    show (t.run.net.step place).shared = q.shared
    simp only [Net.step, hc]
    rfl
  have hlt := (List.getElem?_eq_some_iff.mp hc).1
  have hle : p.shared ≤ q.shared := c.le_step _
  have hbefore : p.IsClear := by
    refine Position.IsClear.before (q := q) ?_ hle
    rw [Position.IsClear, ← hshared]
    exact hclear
  have hmoved : (q.account.gives + (p.account.takes + p.shared.held) : Multiset (Nat × Row)) =
      p.account.gives + (q.account.takes + q.shared.held) := by
    rcases c.step_leads p.past p.shared with hsame | ⟨n, hn, hl⟩
    · rw [show q = p from hsame]
    · obtain ⟨_, hg⟩ := (hk.copies place c hc).guard hk.world hn
      exact moved_of_leads hl fun i hi => hg.2 i hi hbefore
  rw [hshared]
  refine balance_step (hb hbefore) (total_step _ hlt) (total_step _ hlt) ?_
  rw [hpast]
  exact hmoved

theorem balanced_happen (hk : t.Kept agreement) (hb : Balanced t) (e : Event) :
    Balanced (t.happen e) := by
  have same : (t.happen e).past = t.past →
      (t.run.happen e).net.shared.rowSets = t.run.net.shared.rowSets → Balanced (t.happen e) := by
    intro hpast hrows hclear
    have hbefore : t.run.control.reason = none := by
      by_contra hreason
      exact Staged.reason_happen e hreason hclear
    have htotal : ∀ f, total (t.happen e) f = total t f := by
      intro f
      rw [total, hpast]
      simp only [Record.happen, length_copies_happen]
      rfl
    have hheld : (t.run.happen e).net.shared.held = t.run.net.shared.held := by
      simp only [Shared.held, Shared.bufferAt, hrows]
    rw [htotal, htotal, hb hbefore, ← hheld]
    rfl
  by_cases he : ∀ place, e ≠ .copy place
  · refine same ?_ (rowSets_happen _ he)
    cases e with
    | copy place => exact absurd rfl (he place)
    | _ => rfl
  · simp only [not_forall, not_not] at he
    obtain ⟨place, rfl⟩ := he
    cases hc : t.run.net.copies[place]? with
    | some c => exact balanced_step hk hb hc
    | none =>
      refine same ?_ ?_
      · simp [Record.happen, Record.deed?, hc]
      · simp [Run.happen, Net.step, hc]

theorem balanced_after (hk : t.Kept agreement) (hb : Balanced t) (events : List Event) :
    Balanced (t.after events) :=
  (Record.after_induction (P := fun t => t.Kept agreement ∧ Balanced t) ⟨hk, hb⟩
    (fun _ e h => ⟨h.1.happen lawful_agreement e, balanced_happen h.1 h.2 e⟩) events).2

end Records

/-- What a copy takes comes from its inputs, and what it gives goes to its outlets. -/
structure Wired (p : Position) : Prop where
  takes : ∀ x ∈ p.account.takes, x.1 ∈ p.own.inputs
  gives : ∀ x ∈ p.account.gives, x.1 ∈ p.own.outlets

theorem wired_stable {W : Shared → Prop} : Stable W Wired := by
  intro p q hd _ h
  have horigin := origin_of_drift hd
  constructor
  · rw [Position.account_of_drift hd, Local.inputs_of_origin horigin]
    exact h.takes
  · rw [Position.account_of_drift hd, Local.outlets_of_origin horigin]
    exact h.gives

theorem Wired.leads {calm : Prop} {atWork : Bool} {n : Node} {p q : Position} (h : Wired p)
    (hg : Progress.guard calm atWork n p) (hl : n.Leads p q) : Wired q := by
  have horigin := hl.origin
  constructor
  · rw [Local.inputs_of_origin horigin]
    cases hl with
    | act ha =>
      rw [account_of_act ha, takes_enter]
      exact h.takes
    | take hi _ =>
      intro x hx
      rcases List.mem_cons.mp hx with rfl | hx
      · exact hg.1.reads.pending _ (List.mem_of_getElem? hi)
      · exact h.takes x hx
    | _ => exact h.takes
  · rw [Local.outlets_of_origin horigin]
    cases hl with
    | act ha =>
      rw [account_of_act ha, gives_enter]
      exact h.gives
    | give _ =>
      intro x hx
      rcases List.mem_cons.mp hx with rfl | hx
      · exact hg.2.2 _ _ rfl
      · exact h.gives x hx
    | _ => exact h.gives

end Flow
end RowFlow
