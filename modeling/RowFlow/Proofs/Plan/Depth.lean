import Mathlib.Order.Lattice.Nat
import RowFlow.Proofs.Plan.Cycles

/-
The order goes by depth.  The steps taken and those ready, one after the other, make a queue to
which a turn only adds at the end, and it adds only steps that the step just taken leads to.  A
path to any queued step comes by way of steps that are taken, which are no deeper than the one
taken last; so an added step is at least as deep as every step queued so far
(`Ordering.Invariant.noDeeper_of_added`), and in the end the depths of the steps never go down.
-/
namespace RowFlow
namespace Plan

open Relation

section Paths

variable {α β : Type} {joins : α → α → Prop} {joins' : β → β → Prop} {a b c : α} {k : Nat}

/-- A path of so many hops leads to the step. -/
inductive PathTo (joins : α → α → Prop) : Nat → α → Prop
  | start (a : α) : PathTo joins 0 a
  | hop {k : Nat} {a b : α} : PathTo joins k a → joins a b → PathTo joins (k + 1) b

/-- A path to the first step has a path to the second one that is as long. -/
def NoDeeper (joins : α → α → Prop) (a b : α) : Prop := ∀ k, PathTo joins k a → PathTo joins k b

/-- The longest path that leads to the step has so many hops. -/
def IsDepth (joins : α → α → Prop) (a : α) (depth : Nat) : Prop :=
  IsGreatest {k | PathTo joins k a} depth

theorem PathTo.lift (f : α → β) (hf : ∀ a b, joins a b → joins' (f a) (f b))
    (h : PathTo joins k a) : PathTo joins' k (f a) := by
  induction h with
  | start a => exact .start _
  | hop _ hab ih => exact .hop ih (hf _ _ hab)

/-- Every path to the later step is a hop longer than one to a step before it. -/
theorem noDeeper_of_joins (hbc : joins b c) (h : ∀ d, joins d a → NoDeeper joins d b) :
    NoDeeper joins a c := by
  intro k hk
  cases hk with
  | start => exact .start c
  | hop hd hda => exact .hop (h _ hda _ hd) hbc

theorem noDeeper_of_not_joins (h : ∀ d, ¬ joins d a) : NoDeeper joins a b := by
  intro k hk
  cases hk with
  | start => exact .start b
  | hop _ hda => exact absurd hda (h _)

noncomputable def depthOf (joins : α → α → Prop) (a : α) : Nat := sSup {k | PathTo joins k a}

/-- Where paths have a bound, there is a longest one. -/
theorem isDepth_depthOf {bound : Nat} (h : ∀ k, PathTo joins k a → k ≤ bound) :
    IsDepth joins a (depthOf joins a) := by
  have hbdd : BddAbove {k | PathTo joins k a} := ⟨bound, fun k hk => h k hk⟩
  exact ⟨Nat.sSup_mem ⟨0, .start a⟩ hbdd, fun k hk => le_csSup hbdd hk⟩

/-- A hop goes to a deeper step. -/
theorem IsDepth.lt_of_joins {depth depth' : Nat} (ha : IsDepth joins a depth)
    (hb : IsDepth joins b depth') (hab : joins a b) : depth < depth' :=
  hb.2 (.hop ha.1 hab)

theorem NoDeeper.le (h : NoDeeper joins a b) {depth depth' : Nat} (ha : IsDepth joins a depth)
    (hb : IsDepth joins b depth') : depth ≤ depth' :=
  hb.2 (h depth ha.1)

end Paths

section Places

variable {n i k : Nat} {hops : List (Nat × Nat)} {places : List Nat}

/-- A path goes from place to place upwards. -/
theorem Forward.le_idxOf (h : Forward hops places) (hi : i ∈ places)
    (hpath : PathTo (Precedes hops) k i) : k ≤ places.idxOf i := by
  induction hpath with
  | start => exact Nat.zero_le _
  | hop _ hop ih =>
    obtain ⟨ha, hlt⟩ := h.idxOf_lt hi hop
    exact Nat.lt_of_le_of_lt (ih ha) hlt

namespace Ordering

variable {o : Ordering}

theorem ready_releaseAll (ts : List Nat) (o : Ordering) :
    ∃ added, (ts.foldl release o).ready = o.ready ++ added ∧ added ⊆ ts := by
  induction ts generalizing o with
  | nil => exact ⟨[], (List.append_nil _).symm, List.nil_subset _⟩
  | cons t ts ih =>
    obtain ⟨added, hready, hsub⟩ := ih (o.release t)
    have hsub' := List.subset_cons_of_subset t hsub
    rw [List.foldl_cons, hready]
    by_cases hleft : o.entering.getD t 0 - 1 = 0
    · refine ⟨t :: added, ?_, List.cons_subset.mpr ⟨List.mem_cons_self, hsub'⟩⟩
      simp only [release, if_pos hleft, List.append_assoc, List.singleton_append]
    · refine ⟨added, ?_, hsub'⟩
      simp only [release, if_neg hleft]

/-- A turn adds to the queue steps that the step just taken leads to. -/
theorem queue_turn (hops : List (Nat × Nat)) (hready : o.ready = i :: places) :
    ∃ added, (turn hops o).taken ++ (turn hops o).ready = (o.taken ++ o.ready) ++ added ∧
      ∀ t ∈ added, (i, t) ∈ hops := by
  obtain ⟨added, hadded, hsub⟩ := ready_releaseAll ((hops.filter (·.1 == i)).map (·.2))
    { o with ready := places, taken := o.taken ++ [i] }
  refine ⟨added, ?_, fun t ht => ?_⟩
  · simp [turn, hready, hadded]
  · obtain ⟨⟨a, b⟩, hop, rfl⟩ := List.mem_map.mp (hsub ht)
    obtain ⟨hmem, hi⟩ := List.mem_filter.mp hop
    obtain rfl : a = i := beq_iff_eq.mp hi
    exact hmem

theorem taken_turn (hready : o.ready = i :: places) : (turn hops o).taken = o.taken ++ [i] := by
  rw [turn, hready, taken_releaseAll]

/-- Steps come after the steps that are less deep. -/
def Graded (hops : List (Nat × Nat)) (o : Ordering) : Prop :=
  (o.taken ++ o.ready).Pairwise (NoDeeper (Precedes hops))

/-- What the first ready step leads to is as deep as all that is queued when it is taken. -/
theorem Invariant.noDeeper_of_added (hn : ∀ h ∈ hops, h.2 < n) (h : o.Invariant n hops)
    (hdepth : o.Graded hops) (hready : o.ready = i :: places) {x t : Nat}
    (hx : x ∈ (Ordering.turn hops o).taken ++ (Ordering.turn hops o).ready) (ht : (i, t) ∈ hops) :
    NoDeeper (Precedes hops) x t := by
  refine noDeeper_of_joins ht fun d hd => ?_
  have htaken := (h.turn hn).mem_taken_of_hop hx hd
  rw [taken_turn hready] at htaken
  rcases List.mem_append.mp htaken with hmem | hmem
  · refine (List.pairwise_append.mp hdepth).2.2 d hmem i ?_
    rw [hready]
    exact List.mem_cons_self
  · rw [List.mem_singleton.mp hmem]
    exact fun _ => id

theorem Graded.turn (hn : ∀ h ∈ hops, h.2 < n) (h : o.Invariant n hops)
    (hdepth : o.Graded hops) : (Ordering.turn hops o).Graded hops := by
  cases hready : o.ready with
  | nil =>
    have hsame : Ordering.turn hops o = o := by rw [Ordering.turn, hready]
    rwa [hsame]
  | cons i rest =>
    obtain ⟨added, hqueue, hadded⟩ := queue_turn hops hready
    have hdeeper : ∀ x ∈ (o.taken ++ o.ready) ++ added, ∀ t ∈ added,
        NoDeeper (Precedes hops) x t := by
      intro x hx t ht
      exact h.noDeeper_of_added hn hdepth hready (hqueue ▸ hx) (hadded t ht)
    unfold Graded
    rw [hqueue]
    refine List.pairwise_append.mpr ⟨hdepth, ?_, fun x hx => hdeeper x (List.mem_append_left _ hx)⟩
    exact List.pairwise_of_forall_mem_list fun x hx => hdeeper x (List.mem_append_right _ hx)

theorem Graded.turns (hn : ∀ h ∈ hops, h.2 < n) (h : o.Invariant n hops)
    (hdepth : o.Graded hops) (k : Nat) : (Ordering.turns hops k o).Graded hops := by
  induction k generalizing o with
  | zero => exact hdepth
  | succ k ih => exact ih (h.turn hn) (hdepth.turn hn h)

/-- No hop leads to the steps that are ready from the start. -/
theorem graded_start (n : Nat) (hops : List (Nat × Nat)) : (start n hops).Graded hops := by
  refine List.pairwise_of_forall_mem_list fun x hx t _ => noDeeper_of_not_joins fun d hd => ?_
  have htaken := (invariant_start n hops).mem_taken_of_hop hx hd
  cases htaken

theorem graded_run (hn : ∀ h ∈ hops, h.2 < n) : (run n hops).Graded hops :=
  (graded_start n hops).turns hn (invariant_start n hops) n

end Ordering

theorem noDeeper_of_order (hn : ∀ h ∈ hops, h.2 < n) (h : order n hops = .ok places) :
    places.Pairwise (NoDeeper (Precedes hops)) := by
  unfold order at h
  simp only at h
  split at h
  · cases h
    exact (List.pairwise_append.mp (Ordering.graded_run hn)).1
  · cases h

end Places

end Plan
end RowFlow
