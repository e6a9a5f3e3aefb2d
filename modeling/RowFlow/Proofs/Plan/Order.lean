import Mathlib.Data.Fintype.Fin
import Mathlib.Data.List.Perm.Subperm
import Mathlib.Logic.Relation
import RowFlow.Plan.Order

/-
The order of steps is an order: it has every step once, and a hop goes from an earlier
step to a later one.  The state of the ordering is sound for the targets of the hops
that are left: the numbers count them, and the steps that are queued or taken are those
that no hop enters any more.

There is an order when the hops make no cycle.  If the queue runs dry too early, every
step that is left has a hop from another step that is left, and a finite set of steps
of that kind has a cycle.
-/
namespace RowFlow
namespace Plan

open Relation

def Forward (hops : List (Nat × Nat)) (places : List Nat) : Prop :=
  ∀ before i after, places = before ++ i :: after → ∀ a, (a, i) ∈ hops → a ∈ before

theorem forward_nil (hops : List (Nat × Nat)) : Forward hops [] := by
  intro before i after h
  simp at h

theorem Forward.concat {hops : List (Nat × Nat)} {places : List Nat} {i : Nat}
    (h : Forward hops places) (hi : ∀ a, (a, i) ∈ hops → a ∈ places) :
    Forward hops (places ++ [i]) := by
  intro before j after heq a ha
  rcases List.eq_nil_or_concat after with rfl | ⟨after', last, rfl⟩
  · obtain ⟨rfl, hj⟩ := List.append_inj' heq rfl
    cases hj
    exact hi a ha
  · have heq' : places ++ [i] = (before ++ j :: after') ++ [last] := by simpa using heq
    exact h before j after' (List.append_inj' heq' rfl).1 a ha

namespace Ordering

structure Sound (n : Nat) (targets : List Nat) (o : Ordering) : Prop where
  length : o.entering.length = n
  entering : ∀ i < n, o.entering.getD i 0 = targets.count i
  queued : ∀ i, i ∈ o.taken ++ o.ready ↔ i < n ∧ targets.count i = 0
  nodup : (o.taken ++ o.ready).Nodup

variable {n : Nat} {targets : List Nat} {o : Ordering}

theorem Sound.perm {targets' : List Nat} (h : o.Sound n targets) (hp : targets.Perm targets') :
    o.Sound n targets' where
  length := h.length
  entering i hi := (h.entering i hi).trans (hp.count_eq i)
  queued i := by rw [h.queued i, hp.count_eq i]
  nodup := h.nodup

/-- One hop into a step is gone. -/
theorem Sound.release {t : Nat} (h : o.Sound n (t :: targets)) (ht : t < n) :
    (o.release t).Sound n targets := by
  have hleft : o.entering.getD t 0 - 1 = targets.count t := by
    rw [h.entering t ht, List.count_cons_self]
    rfl
  have hnew : t ∉ o.taken ++ o.ready := by
    intro hmem
    have hcount := ((h.queued t).mp hmem).2
    rw [List.count_cons_self] at hcount
    omega
  have hother : ∀ i, i ≠ t → (t :: targets).count i = targets.count i := fun i hi =>
    List.count_cons_of_ne (Ne.symm hi)
  simp only [Ordering.release, hleft]
  refine ⟨by simp [h.length], ?_, ?_, ?_⟩
  · intro i hi
    by_cases heq : i = t
    · subst heq
      simp [List.getD_eq_getElem?_getD, List.getElem?_set_self (h.length ▸ hi)]
    · rw [← hother i heq, ← h.entering i hi]
      simp [List.getD_eq_getElem?_getD, List.getElem?_set_ne (Ne.symm heq)]
  · intro i
    by_cases heq : i = t
    · subst heq
      split
      · next hzero => simp [hzero, ht]
      · next hpos => exact ⟨fun hmem => absurd hmem hnew, fun hmem => absurd hmem.2 hpos⟩
    · rw [← hother i heq, ← h.queued i]
      split
      · simp [heq]
      · rfl
  · split
    · rw [← List.append_assoc]
      refine List.nodup_append.mpr ⟨h.nodup, List.pairwise_singleton _ t, ?_⟩
      rintro a ha b hb rfl
      rw [List.mem_singleton.mp hb] at ha
      exact hnew ha
    · exact h.nodup

@[simp] theorem taken_release (o : Ordering) (t : Nat) : (o.release t).taken = o.taken := rfl

theorem Sound.releaseAll {ts : List Nat} (h : o.Sound n (ts ++ targets)) (hts : ∀ t ∈ ts, t < n) :
    (ts.foldl Ordering.release o).Sound n targets := by
  induction ts generalizing o with
  | nil => exact h
  | cons t ts ih =>
    exact ih (h.release (hts t List.mem_cons_self)) fun t' ht => hts t' (List.mem_cons_of_mem t ht)

@[simp] theorem taken_releaseAll (o : Ordering) (ts : List Nat) :
    (ts.foldl release o).taken = o.taken := by
  induction ts generalizing o with
  | nil => rfl
  | cons t ts ih => exact ih (o.release t)

/-- The targets of the hops that do not leave a taken step. -/
def targetsLeft (hops : List (Nat × Nat)) (taken : List Nat) : List Nat :=
  (hops.filter fun h => h.1 ∉ taken).map (·.2)

/-- The hops of a step that is taken are left no more. -/
theorem perm_targetsLeft (hops : List (Nat × Nat)) {taken : List Nat} {i : Nat} (hi : i ∉ taken) :
    (targetsLeft hops taken).Perm
      ((hops.filter (·.1 == i)).map (·.2) ++ targetsLeft hops (taken ++ [i])) := by
  have hleft : (hops.filter fun h => h.1 ∉ taken).filter (·.1 == i) = hops.filter (·.1 == i) := by
    rw [List.filter_filter]
    refine List.filter_congr fun h _ => ?_
    by_cases heq : h.1 = i
    · simp [heq, hi]
    · simp [heq]
  have hrest : (hops.filter fun h => h.1 ∉ taken).filter (fun h => !(h.1 == i)) =
      hops.filter fun h => h.1 ∉ taken ++ [i] := by
    rw [List.filter_filter]
    refine List.filter_congr fun h _ => ?_
    by_cases heq : h.1 = i <;> simp [heq, hi]
  have hperm := List.filter_append_perm (·.1 == i) (hops.filter fun h => h.1 ∉ taken)
  rw [hleft, hrest] at hperm
  unfold targetsLeft
  rw [← List.map_append]
  exact (hperm.map (·.2)).symm

structure Invariant (n : Nat) (hops : List (Nat × Nat)) (o : Ordering) : Prop where
  sound : o.Sound n (targetsLeft hops o.taken)
  forward : Forward hops o.taken

variable {hops : List (Nat × Nat)}

theorem invariant_start (n : Nat) (hops : List (Nat × Nat)) : (start n hops).Invariant n hops := by
  have hall : targetsLeft hops [] = hops.map (·.2) := by simp [targetsLeft]
  have hcount : ∀ i, hops.countP (·.2 == i) = (hops.map (·.2)).count i := by
    intro i
    rw [List.count, List.countP_map]
    rfl
  refine ⟨?_, forward_nil hops⟩
  show (start n hops).Sound n (targetsLeft hops [])
  rw [hall]
  refine ⟨by simp [start], ?_, ?_, ?_⟩
  · intro i hi
    simp [start, List.getD_eq_getElem?_getD, hi, hcount]
  · intro i
    by_cases hi : i < n
    · simp [start, hi, hcount]
    · simp [start, hi]
  · exact List.nodup_range.filter _

/-- The first of the ready steps is not taken yet. -/
theorem Invariant.notMem_taken {i : Nat} {rest : List Nat} (h : o.Invariant n hops)
    (hready : o.ready = i :: rest) : i ∉ o.taken := by
  have hnodup := h.sound.nodup
  rw [hready] at hnodup
  intro hmem
  exact (List.nodup_append.mp hnodup).2.2 i hmem i List.mem_cons_self rfl

/-- A hop into a step that is queued or taken comes from one that is taken. -/
theorem Invariant.mem_taken_of_hop {i a : Nat} (h : o.Invariant n hops)
    (hi : i ∈ o.taken ++ o.ready) (hop : (a, i) ∈ hops) : a ∈ o.taken := by
  by_contra hnot
  refine List.count_eq_zero.mp ((h.sound.queued i).mp hi).2 ?_
  exact List.mem_map.mpr ⟨(a, i), List.mem_filter.mpr ⟨hop, by simpa using hnot⟩, rfl⟩

/-- With a step just taken, its hops are still to be taken away. -/
theorem Invariant.sound_taking {i : Nat} {rest : List Nat} (h : o.Invariant n hops)
    (hready : o.ready = i :: rest) :
    Sound n ((hops.filter (·.1 == i)).map (·.2) ++ targetsLeft hops (o.taken ++ [i]))
      { o with ready := rest, taken := o.taken ++ [i] } := by
  have hsame : (o.taken ++ [i]) ++ rest = o.taken ++ o.ready := by simp [hready]
  have hmoved : Sound n (targetsLeft hops o.taken)
      { o with ready := rest, taken := o.taken ++ [i] } :=
    ⟨h.sound.length, h.sound.entering, hsame ▸ h.sound.queued, hsame ▸ h.sound.nodup⟩
  exact hmoved.perm (perm_targetsLeft hops (h.notMem_taken hready))

theorem target_lt {i : Nat} (hn : ∀ h ∈ hops, h.2 < n) :
    ∀ t ∈ (hops.filter (·.1 == i)).map (·.2), t < n := by
  intro t ht
  obtain ⟨hop, hhop, rfl⟩ := List.mem_map.mp ht
  exact hn hop (List.mem_filter.mp hhop).1

theorem Invariant.turn (hn : ∀ h ∈ hops, h.2 < n) (h : o.Invariant n hops) :
    (turn hops o).Invariant n hops := by
  unfold Ordering.turn
  split
  · exact h
  · next i rest hready =>
    constructor
    · rw [taken_releaseAll]
      exact (h.sound_taking hready).releaseAll (target_lt hn)
    · rw [taken_releaseAll]
      refine h.forward.concat fun a ha => h.mem_taken_of_hop ?_ ha
      rw [hready]
      exact List.mem_append_right _ List.mem_cons_self

theorem Invariant.turns (hn : ∀ h ∈ hops, h.2 < n) (h : o.Invariant n hops) (k : Nat) :
    (turns hops k o).Invariant n hops := by
  induction k generalizing o with
  | zero => exact h
  | succ k ih => exact ih (h.turn hn)

theorem Invariant.nodup_taken (h : o.Invariant n hops) : o.taken.Nodup :=
  (List.sublist_append_left _ _).nodup h.sound.nodup

theorem Invariant.taken_subset (h : o.Invariant n hops) : o.taken ⊆ List.range n := by
  intro i hi
  have hqueued := (h.sound.queued i).mp (List.mem_append_left _ hi)
  exact List.mem_range.mpr hqueued.1

theorem turns_of_ready_nil (h : o.ready = []) (k : Nat) : turns hops k o = o := by
  induction k with
  | zero => rfl
  | succ k ih =>
    have hturn : turn hops o = o := by rw [turn, h]
    rw [turns, hturn, ih]

/-- As long as a step is ready, every turn takes one. -/
theorem ready_nil_or_length_taken (hops : List (Nat × Nat)) (k : Nat) (o : Ordering) :
    (turns hops k o).ready = [] ∨ (turns hops k o).taken.length = o.taken.length + k := by
  induction k generalizing o with
  | zero => exact .inr rfl
  | succ k ih =>
    cases hready : o.ready with
    | nil =>
      left
      rw [turns_of_ready_nil hready, hready]
    | cons i rest =>
      have htaken : (turn hops o).taken.length = o.taken.length + 1 := by
        rw [turn, hready, taken_releaseAll, List.length_append, List.length_singleton]
      have hnext := ih (turn hops o)
      rw [htaken, Nat.add_assoc, Nat.add_comm 1] at hnext
      exact hnext

/-- When no step is ready, a step that is not taken has a hop from another such step. -/
theorem Invariant.exists_before (h : o.Invariant n hops) (hready : o.ready = []) {i : Nat}
    (hi : i < n) (hnot : i ∉ o.taken) : ∃ a, (a, i) ∈ hops ∧ a ∉ o.taken := by
  have hqueued := h.sound.queued i
  rw [hready, List.append_nil] at hqueued
  have hcount : (targetsLeft hops o.taken).count i ≠ 0 := fun hzero =>
    hnot (hqueued.mpr ⟨hi, hzero⟩)
  have hmem : i ∈ targetsLeft hops o.taken := List.count_pos_iff.mp (Nat.pos_of_ne_zero hcount)
  obtain ⟨⟨a, b⟩, hhop, rfl⟩ := List.mem_map.mp hmem
  obtain ⟨hhop, ha⟩ := List.mem_filter.mp hhop
  exact ⟨a, hhop, by simpa using ha⟩

end Ordering

/-- Every step once, and all hops forward. -/
theorem order_ok {n : Nat} {hops : List (Nat × Nat)} {places : List Nat}
    (hn : ∀ h ∈ hops, h.2 < n) (h : order n hops = .ok places) :
    places.Perm (List.range n) ∧ Forward hops places := by
  unfold order at h
  simp only at h
  split at h
  · next hlen =>
    cases h
    have hinv := (Ordering.invariant_start n hops).turns hn n
    refine ⟨(hinv.nodup_taken.subperm hinv.taken_subset).perm_of_length_le ?_, hinv.forward⟩
    rw [List.length_range]
    exact Nat.le_of_eq hlen.symm
  · cases h

/-- Without a cycle, some step of a set of steps has no hop from another one of the set. -/
theorem exists_first {n : Nat} {hops : List (Nat × Nat)}
    (hacyclic : ∀ i, ¬ TransGen (fun a b => (a, b) ∈ hops) i i) (left : Fin n → Prop)
    (hleft : ∃ i, left i) : ∃ i, left i ∧ ∀ a, left a → (a.val, i.val) ∉ hops := by
  let before : Fin n → Fin n → Prop := TransGen fun a b => (a.val, b.val) ∈ hops
  have hirrefl : Std.Irrefl before := ⟨fun i hi => hacyclic i (hi.lift Fin.val fun _ _ => id)⟩
  have htrans : IsTrans (Fin n) before := ⟨fun _ _ _ => TransGen.trans⟩
  have hwf := Finite.wellFounded_of_trans_of_irrefl before
  obtain ⟨i, hi, hfirst⟩ := hwf.has_min {i | left i} hleft
  exact ⟨i, hi, fun a ha hhop => hfirst a ha (.single hhop)⟩

/-- Without a cycle there is an order. -/
theorem exists_order {n : Nat} {hops : List (Nat × Nat)} (hn : ∀ h ∈ hops, h.1 < n ∧ h.2 < n)
    (hacyclic : ∀ i, ¬ TransGen (fun a b => (a, b) ∈ hops) i i) :
    ∃ places, order n hops = .ok places := by
  have hinv := (Ordering.invariant_start n hops).turns (fun h hmem => (hn h hmem).2) n
  refine ⟨_, if_pos ?_⟩
  show (Ordering.run n hops).taken.length = n
  rcases Ordering.ready_nil_or_length_taken hops n (.start n hops) with hready | hlen
  · have hall : List.range n ⊆ (Ordering.run n hops).taken := by
      intro i hi
      by_contra hnot
      obtain ⟨j, hj, hfirst⟩ := exists_first hacyclic
        (fun i => i.val ∉ (Ordering.run n hops).taken) ⟨⟨i, List.mem_range.mp hi⟩, hnot⟩
      obtain ⟨a, hhop, ha⟩ := hinv.exists_before hready j.isLt hj
      exact hfirst ⟨a, (hn _ hhop).1⟩ ha hhop
    have hle := (hinv.nodup_taken.subperm hinv.taken_subset).length_le
    have hge := (List.nodup_range.subperm hall).length_le
    rw [List.length_range] at hle hge
    exact Nat.le_antisymm hle hge
  · exact hlen.trans (Nat.zero_add n)

end Plan
end RowFlow
