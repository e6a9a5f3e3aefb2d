import RowFlow.Proofs.Plan.Spread

/-
What keeps steps from being ordered.  A step is taken when all steps before it are taken, so
those that are taken have no cycle before them (`Forward.not_behindCycle`).  When no step is
ready any more, every step that is left has a hop from another one that is left; going back along
such hops in a finite set one comes to a cycle (`behindCycle_of_left`).  So the steps that are
left are those on a cycle and those that a path leads to from there.

No count goes below zero on the way: with a subtraction that is checked the ordering comes to
the same (`Ordering.Invariant.turns?`).
-/
namespace RowFlow
namespace Plan

open Relation

section Behind

variable {α β : Type} {joins : α → α → Prop} {joins' : β → β → Prop} {a b : α}

/-- The step lies on a cycle, or a path leads to it from a step on a cycle. -/
def BehindCycle (joins : α → α → Prop) (a : α) : Prop :=
  ∃ c, TransGen joins c c ∧ ReflTransGen joins c a

theorem behindCycle_of_transGen (h : TransGen joins a a) : BehindCycle joins a := ⟨a, h, .refl⟩

theorem BehindCycle.trans (h : BehindCycle joins a) (hab : ReflTransGen joins a b) :
    BehindCycle joins b := by
  obtain ⟨c, hc, hca⟩ := h
  exact ⟨c, hc, hca.trans hab⟩

theorem BehindCycle.lift (f : α → β) (hf : ∀ a b, joins a b → joins' (f a) (f b))
    (h : BehindCycle joins a) : BehindCycle joins' (f a) := by
  obtain ⟨c, hc, hca⟩ := h
  exact ⟨f c, hc.lift f hf, hca.lift f hf⟩

end Behind

abbrev Precedes (hops : List (Nat × Nat)) (a b : Nat) : Prop := (a, b) ∈ hops

section Places

variable {n i a b : Nat} {hops : List (Nat × Nat)} {places : List Nat}

/-- A hop to a step that is taken comes from one that was taken before. -/
theorem Forward.idxOf_lt (h : Forward hops places) (hb : b ∈ places) (hop : (a, b) ∈ hops) :
    a ∈ places ∧ places.idxOf a < places.idxOf b := by
  obtain ⟨before, after, hsplit, hnew⟩ := List.eq_append_cons_of_mem hb
  have ha := h before b after hsplit a hop
  rw [hsplit, List.idxOf_append_of_mem ha, List.idxOf_append_of_notMem hnew,
    List.idxOf_cons_self, Nat.add_zero]
  exact ⟨List.mem_append_left _ ha, List.idxOf_lt_length_of_mem ha⟩

theorem Forward.mem_of_path (h : Forward hops places) (hb : b ∈ places)
    (hab : ReflTransGen (Precedes hops) a b) : a ∈ places := by
  induction hab using ReflTransGen.head_induction_on with
  | refl => exact hb
  | head hop _ ih => exact (h.idxOf_lt ih hop).1

theorem Forward.idxOf_lt_of_path (h : Forward hops places) (hb : b ∈ places)
    (hab : TransGen (Precedes hops) a b) : places.idxOf a < places.idxOf b := by
  induction hab using TransGen.head_induction_on with
  | single hop => exact (h.idxOf_lt hb hop).2
  | head hop hpath ih => exact (h.idxOf_lt (h.mem_of_path hb hpath.to_reflTransGen) hop).2.trans ih

/-- No cycle comes before a step that is taken. -/
theorem Forward.not_behindCycle (h : Forward hops places) (hb : b ∈ places) :
    ¬ BehindCycle (Precedes hops) b := by
  rintro ⟨c, hc, hcb⟩
  exact Nat.lt_irrefl _ (h.idxOf_lt_of_path (h.mem_of_path hb hcb) hc)

/-- If every step that is left has a hop from another one, they are all behind cycles. -/
theorem behindCycle_of_left {left : Nat → Prop} (hlt : ∀ i, left i → i < n)
    (hback : ∀ i, left i → ∃ a, (a, i) ∈ hops ∧ left a) (hi : left i) :
    BehindCycle (Precedes hops) i := by
  classical
  by_contra hnot
  -- the steps that are left before `i`, and the hops between them
  let before : Nat → Prop := fun a => left a ∧ ReflTransGen (Precedes hops) a i
  let inner := hops.filter fun h => before h.1 ∧ before h.2
  have hinner : ∀ a b, (a, b) ∈ inner ↔ (a, b) ∈ hops ∧ before a ∧ before b := by
    intro a b
    simp [inner, List.mem_filter]
  have hacyclic : ∀ a, ¬ TransGen (fun a b => (a, b) ∈ inner) a a := by
    intro a hcycle
    obtain ⟨b, hab, -⟩ := TransGen.head'_iff.mp hcycle
    have hbefore := ((hinner a b).mp hab).2.1
    have hcycle' := TransGen.mono (fun a b h => ((hinner a b).mp h).1) _ _ hcycle
    exact hnot ((behindCycle_of_transGen hcycle').trans hbefore.2)
  obtain ⟨j, hj, hfirst⟩ := exists_first (n := n) hacyclic (fun a => before a.val)
    ⟨⟨i, hlt i hi⟩, hi, .refl⟩
  obtain ⟨a, hop, ha⟩ := hback j hj.1
  have hbefore : before a := ⟨ha, .head hop hj.2⟩
  exact hfirst ⟨a, hlt a ha⟩ hbefore ((hinner _ _).mpr ⟨hop, hbefore, hj⟩)

namespace Ordering

variable {targets : List Nat} {o : Ordering}

/-- In the end the steps are taken that are not behind a cycle. -/
theorem mem_taken_run_iff (hn : ∀ h ∈ hops, h.1 < n ∧ h.2 < n) (hi : i < n) :
    i ∈ (run n hops).taken ↔ ¬ BehindCycle (Precedes hops) i := by
  have hn' := fun h hmem => (hn h hmem).2
  have hinv := (invariant_start n hops).turns hn' n
  refine ⟨hinv.forward.not_behindCycle, fun hnot => ?_⟩
  by_contra hleft
  let left : Nat → Prop := fun i => i < n ∧ i ∉ (run n hops).taken
  have hback : ∀ j, left j → ∃ a, (a, j) ∈ hops ∧ left a := by
    rintro j ⟨hj, hjleft⟩
    obtain ⟨a, hop, ha⟩ := hinv.exists_before (ready_run hn') hj hjleft
    exact ⟨a, hop, (hn _ hop).1, ha⟩
  exact hnot (behindCycle_of_left (fun _ h => h.1) hback ⟨hi, hleft⟩)

/-- The steps that something still enters in the end are those behind a cycle. -/
theorem mem_stuck_run_iff (hn : ∀ h ∈ hops, h.1 < n ∧ h.2 < n) :
    i ∈ (run n hops).stuck ↔ i < n ∧ BehindCycle (Precedes hops) i := by
  have hn' := fun h hmem => (hn h hmem).2
  have hsound : (run n hops).Sound n (targetsLeft hops (run n hops).taken) :=
    ((invariant_start n hops).turns hn' n).sound
  rw [stuck, List.mem_filter, List.mem_range, hsound.length]
  refine and_congr_right fun hi => ?_
  have hqueued := hsound.queued i
  rw [ready_run hn', List.append_nil, mem_taken_run_iff hn hi] at hqueued
  rw [decide_eq_true_iff, hsound.entering i hi]
  constructor
  · intro hpos
    by_contra hnot
    exact Nat.ne_of_gt hpos (hqueued.mp hnot).2
  · intro hbehind
    exact Nat.pos_of_ne_zero fun hzero => hqueued.mpr ⟨hi, hzero⟩ hbehind

theorem stuck_run_sublist (hn : ∀ h ∈ hops, h.2 < n) :
    (run n hops).stuck.Sublist (List.range n) := by
  have hsound : (run n hops).Sound n (targetsLeft hops (run n hops).taken) :=
    ((invariant_start n hops).turns hn n).sound
  rw [stuck, hsound.length]
  exact List.filter_sublist

section Counting

def release? (o : Ordering) (target : Nat) : Option Ordering :=
  if 0 < o.entering.getD target 0 then some (o.release target) else none

/-- A turn in which no count may go below zero. -/
def turn? (hops : List (Nat × Nat)) (o : Ordering) : Option Ordering :=
  match o.ready with
  | [] => some o
  | i :: rest =>
    ((hops.filter (·.1 == i)).map (·.2)).foldlM release?
      { o with ready := rest, taken := o.taken ++ [i] }

def turns? (hops : List (Nat × Nat)) : Nat → Ordering → Option Ordering
  | 0, o => some o
  | k + 1, o => (turn? hops o).bind (turns? hops k)

theorem Sound.release? {t : Nat} (h : o.Sound n (t :: targets)) (ht : t < n) :
    o.release? t = some (o.release t) := by
  refine if_pos ?_
  rw [h.entering t ht, List.count_cons_self]
  exact Nat.succ_pos _

theorem Sound.releaseAll? {ts : List Nat} (h : o.Sound n (ts ++ targets))
    (hts : ∀ t ∈ ts, t < n) :
    ts.foldlM Ordering.release? o = some (ts.foldl Ordering.release o) := by
  induction ts generalizing o with
  | nil => rfl
  | cons t ts ih =>
    have ht := hts t List.mem_cons_self
    rw [List.foldlM_cons, h.release? ht]
    exact ih (h.release ht) fun t' ht' => hts t' (List.mem_cons_of_mem t ht')

theorem Invariant.turn? (hn : ∀ h ∈ hops, h.2 < n) (h : o.Invariant n hops) :
    Ordering.turn? hops o = some (Ordering.turn hops o) := by
  cases hready : o.ready with
  | nil =>
    unfold Ordering.turn? Ordering.turn
    rw [hready]
  | cons i rest =>
    unfold Ordering.turn? Ordering.turn
    rw [hready]
    exact (h.sound_taking hready).releaseAll? (target_lt hn)

theorem Invariant.turns? (hn : ∀ h ∈ hops, h.2 < n) (h : o.Invariant n hops) (k : Nat) :
    Ordering.turns? hops k o = some (Ordering.turns hops k o) := by
  induction k generalizing o with
  | zero => rfl
  | succ k ih =>
    rw [Ordering.turns?, h.turn? hn]
    exact ih (h.turn hn)

end Counting
end Ordering

theorem eq_stuck_of_order {stuck : List Nat} (h : order n hops = .error stuck) :
    stuck = (Ordering.run n hops).stuck := by
  unfold order at h
  simp only at h
  split at h
  · cases h
  · cases h
    rfl

/-- There is an order just if there is no cycle. -/
theorem exists_order_iff (hn : ∀ h ∈ hops, h.1 < n ∧ h.2 < n) :
    (∃ places, order n hops = .ok places) ↔ ∀ i, ¬ TransGen (Precedes hops) i i := by
  refine ⟨?_, exists_order hn⟩
  rintro ⟨places, h⟩ i hcycle
  obtain ⟨hperm, hforward⟩ := order_ok (fun h hmem => (hn h hmem).2) h
  obtain ⟨b, hop, -⟩ := TransGen.head'_iff.mp hcycle
  have hi : i ∈ places := hperm.mem_iff.mpr (List.mem_range.mpr (hn _ hop).1)
  exact hforward.not_behindCycle hi (behindCycle_of_transGen hcycle)

end Places

end Plan
end RowFlow
