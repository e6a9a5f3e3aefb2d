import RowFlow.Proofs.Plan.Order

/-
The order of steps among more steps.  Some steps are numbered anew, in the same order,
among others that no hop touches.  An added step is ready from the start and takes no hop
away, so a turn that takes one changes nothing for the others, and every other turn is a
turn of the smaller ordering (`Spread.turn`).  The two do not take equally many turns; but
both are through after as many turns as there are steps, and further turns do nothing, so
in the end they have taken the same steps in the same order (`spread_run`).
-/
namespace RowFlow
namespace Plan

/-- `f` numbers `n` steps anew among `m` steps, in the same order; the others are not `old`. -/
structure Renumbers (n m : Nat) (f : Nat → Nat) (old : Nat → Bool) : Prop where
  range : (List.range m).filter old = (List.range n).map f

def renumbered (f : Nat → Nat) (h : Nat × Nat) : Nat × Nat := (f h.1, f h.2)

namespace Renumbers

variable {n m : Nat} {f : Nat → Nat} {old : Nat → Bool} {i j : Nat} {hops : List (Nat × Nat)}

theorem mem (h : Renumbers n m f old) (hi : i < n) : f i ∈ (List.range m).filter old := by
  rw [h.range]
  exact List.mem_map_of_mem (List.mem_range.mpr hi)

theorem lt (h : Renumbers n m f old) (hi : i < n) : f i < m :=
  List.mem_range.mp (List.mem_filter.mp (h.mem hi)).1

theorem isOld (h : Renumbers n m f old) (hi : i < n) : old (f i) = true :=
  (List.mem_filter.mp (h.mem hi)).2

theorem inj (h : Renumbers n m f old) (hi : i < n) (hj : j < n) (heq : f i = f j) : i = j := by
  have hnodup : ((List.range n).map f).Nodup := by
    rw [← h.range]
    exact List.nodup_range.filter _
  exact List.inj_on_of_nodup_map hnodup (List.mem_range.mpr hi) (List.mem_range.mpr hj) heq

theorem beq (h : Renumbers n m f old) (hi : i < n) (hj : j < n) : (f i == f j) = (i == j) := by
  by_cases heq : i = j
  · simp [heq]
  · have hne : f i ≠ f j := fun e => heq (h.inj hi hj e)
    simp [heq, hne]

/-- The hops of a step are those of old, with the new numbers. -/
theorem leaving (h : Renumbers n m f old) (hn : ∀ x ∈ hops, x.1 < n ∧ x.2 < n) (hi : i < n) :
    ((hops.map (renumbered f)).filter (·.1 == f i)).map (·.2) =
      ((hops.filter (·.1 == i)).map (·.2)).map f := by
  have hsame : hops.filter ((·.1 == f i) ∘ renumbered f) = hops.filter (·.1 == i) :=
    List.filter_congr fun x hx => h.beq (hn x hx).1 hi
  rw [List.filter_map, hsame, List.map_map, List.map_map]
  rfl

/-- No hop leaves an added step. -/
theorem leaving_of_not_old (h : Renumbers n m f old) (hn : ∀ x ∈ hops, x.1 < n ∧ x.2 < n)
    (hj : old j = false) : (hops.map (renumbered f)).filter (·.1 == j) = [] := by
  refine List.filter_eq_nil_iff.mpr fun x hx hbeq => ?_
  obtain ⟨y, hy, rfl⟩ := List.mem_map.mp hx
  have hold := h.isOld (hn y hy).1
  have hsource : f y.1 = j := by simpa [renumbered] using hbeq
  rw [hsource, hj] at hold
  cases hold

theorem entering (h : Renumbers n m f old) (hn : ∀ x ∈ hops, x.1 < n ∧ x.2 < n) (hi : i < n) :
    (hops.map (renumbered f)).countP (·.2 == f i) = hops.countP (·.2 == i) := by
  rw [List.countP_map]
  refine List.countP_congr fun x hx => ?_
  rw [← h.beq (hn x hx).2 hi]
  rfl

end Renumbers

namespace Ordering

variable {n m : Nat} {f : Nat → Nat} {old : Nat → Bool} {hops : List (Nat × Nat)} {o o' : Ordering}

structure Spread (n m : Nat) (f : Nat → Nat) (old : Nat → Bool) (o o' : Ordering) : Prop where
  length : o.entering.length = n
  length' : o'.entering.length = m
  entering : ∀ i < n, o'.entering.getD (f i) 0 = o.entering.getD i 0
  ready : o'.ready.filter old = o.ready.map f
  taken : o'.taken.filter old = o.taken.map f

theorem spread_start (hr : Renumbers n m f old) (hn : ∀ x ∈ hops, x.1 < n ∧ x.2 < n) :
    Spread n m f old (start n hops) (start m (hops.map (renumbered f))) where
  length := by simp [start]
  length' := by simp [start]
  entering i hi := by
    simp only [start, List.getD_eq_getElem?_getD, List.getElem?_map,
      List.getElem?_range (hr.lt hi), List.getElem?_range hi, Option.map_some, Option.getD_some]
    exact hr.entering hn hi
  ready := by
    simp only [start]
    rw [List.filter_filter, List.filter_congr fun i _ => Bool.and_comm _ _, ← List.filter_filter,
      hr.range, List.filter_map]
    refine congrArg (List.map f) (List.filter_congr fun i hi => ?_)
    have hi := List.mem_range.mp hi
    simp only [Function.comp_apply, List.getElem?_map, List.getElem?_range (hr.lt hi),
      List.getElem?_range hi, Option.map_some, hr.entering hn hi]
  taken := rfl

theorem Spread.release (hr : Renumbers n m f old) (h : Spread n m f old o o') {t : Nat}
    (ht : t < n) : Spread n m f old (o.release t) (o'.release (f t)) := by
  have hlt : t < o.entering.length := h.length ▸ ht
  have hlt' : f t < o'.entering.length := h.length' ▸ hr.lt ht
  simp only [Ordering.release, h.entering t ht]
  refine ⟨by simp [h.length], by simp [h.length'], fun i hi => ?_, ?_, h.taken⟩
  · by_cases heq : i = t
    · subst heq
      simp [List.getD_eq_getElem?_getD, List.getElem?_set_self hlt, List.getElem?_set_self hlt']
    · have hne : f t ≠ f i := fun e => heq (hr.inj ht hi e).symm
      simpa [List.getD_eq_getElem?_getD, List.getElem?_set_ne hne,
        List.getElem?_set_ne (Ne.symm heq)] using h.entering i hi
  · split
    · simp [h.ready, hr.isOld ht]
    · exact h.ready

theorem Spread.releaseAll (hr : Renumbers n m f old) (h : Spread n m f old o o') {ts : List Nat}
    (hts : ∀ t ∈ ts, t < n) :
    Spread n m f old (ts.foldl Ordering.release o) ((ts.map f).foldl Ordering.release o') := by
  induction ts generalizing o o' with
  | nil => exact h
  | cons t ts ih =>
    exact ih (h.release hr (hts t List.mem_cons_self)) fun u hu => hts u (List.mem_cons_of_mem t hu)

/-- A turn takes an added step, or it is a turn of the smaller ordering. -/
theorem Spread.turn (hr : Renumbers n m f old) (hn : ∀ x ∈ hops, x.1 < n ∧ x.2 < n)
    (hinv : o.Invariant n hops) (h : Spread n m f old o o') :
    Spread n m f old o (turn (hops.map (renumbered f)) o') ∨
      Spread n m f old (turn hops o) (turn (hops.map (renumbered f)) o') := by
  cases hready' : o'.ready with
  | nil =>
    left
    rw [Ordering.turn, hready']
    exact h
  | cons j rest' =>
    have hready := h.ready
    rw [hready'] at hready
    cases hold : old j with
    | false =>
      left
      rw [List.filter_cons_of_neg (by simp [hold])] at hready
      simp only [Ordering.turn, hready', hr.leaving_of_not_old hn hold, List.map_nil,
        List.foldl_nil]
      exact ⟨h.length, h.length', h.entering, hready, by simp [h.taken, hold]⟩
    | true =>
      right
      rw [List.filter_cons_of_pos hold] at hready
      obtain ⟨i, rest, hcons, rfl, hrest⟩ := List.map_eq_cons_iff.mp hready.symm
      have hi : i < n := by
        refine ((hinv.sound.queued i).mp (List.mem_append_right _ ?_)).1
        rw [hcons]
        exact List.mem_cons_self
      simp only [Ordering.turn, hready', hcons, hr.leaving hn hi]
      refine Spread.releaseAll hr ?_ fun t ht => ?_
      · exact ⟨h.length, h.length', h.entering, hrest.symm, by simp [h.taken, hold]⟩
      · obtain ⟨x, hx, rfl⟩ := List.mem_map.mp ht
        exact (hn x (List.mem_filter.mp hx).1).2

theorem Spread.turns (hr : Renumbers n m f old) (hn : ∀ x ∈ hops, x.1 < n ∧ x.2 < n)
    (hinv : o.Invariant n hops) (h : Spread n m f old o o') (k : Nat) :
    ∃ j, Spread n m f old (turns hops j o) (turns (hops.map (renumbered f)) k o') := by
  induction k generalizing o o' with
  | zero => exact ⟨0, h⟩
  | succ k ih =>
    rcases h.turn hr hn hinv with hadded | hturn
    · exact ih hinv hadded
    · obtain ⟨j, hj⟩ := ih (hinv.turn fun x hx => (hn x hx).2) hturn
      exact ⟨j + 1, hj⟩

theorem turns_add (hops : List (Nat × Nat)) (j k : Nat) (o : Ordering) :
    turns hops (j + k) o = turns hops k (turns hops j o) := by
  induction j generalizing o with
  | zero => rw [Nat.zero_add, turns]
  | succ j ih => rw [Nat.succ_add, turns, turns, ih]

/-- After as many turns as there are steps, none is ready. -/
theorem ready_run (hn : ∀ x ∈ hops, x.2 < n) : (run n hops).ready = [] := by
  have hinv := (invariant_start n hops).turns hn n
  rcases ready_nil_or_length_taken hops n (start n hops) with hready | hlen
  · exact hready
  · have hsubset : (run n hops).taken ++ (run n hops).ready ⊆ List.range n := fun i hi =>
      List.mem_range.mpr ((hinv.sound.queued i).mp hi).1
    have hle : ((run n hops).taken ++ (run n hops).ready).length ≤ (List.range n).length :=
      (hinv.sound.nodup.subperm hsubset).length_le
    have htaken : (run n hops).taken.length = n := hlen.trans (Nat.zero_add n)
    rw [List.length_append, List.length_range, htaken] at hle
    exact List.eq_nil_of_length_eq_zero (by omega)

/-- Where no step is ready any more, the ordering is through. -/
theorem eq_run_of_ready_nil (hn : ∀ x ∈ hops, x.2 < n) {j : Nat}
    (h : (turns hops j (start n hops)).ready = []) : turns hops j (start n hops) = run n hops := by
  calc turns hops j (start n hops)
    _ = turns hops n (turns hops j (start n hops)) := (turns_of_ready_nil h n).symm
    _ = turns hops j (run n hops) := by rw [run, ← turns_add, ← turns_add, Nat.add_comm]
    _ = run n hops := turns_of_ready_nil (ready_run hn) j

theorem spread_run (hr : Renumbers n m f old) (hn : ∀ x ∈ hops, x.1 < n ∧ x.2 < n) :
    Spread n m f old (run n hops) (run m (hops.map (renumbered f))) := by
  have hn' : ∀ x ∈ hops.map (renumbered f), x.2 < m := by
    intro x hx
    obtain ⟨y, hy, rfl⟩ := List.mem_map.mp hx
    exact hr.lt (hn y hy).2
  -- The smaller ordering has taken some number of turns by then; no step is ready any more.
  obtain ⟨j, hj⟩ := (spread_start hr hn).turns hr hn (invariant_start n hops) m
  have hready := hj.ready
  rw [show turns (hops.map (renumbered f)) m (start m (hops.map (renumbered f))) =
    run m (hops.map (renumbered f)) from rfl, ready_run hn', List.filter_nil] at hready
  rw [← eq_run_of_ready_nil (fun x hx => (hn x hx).2) (List.map_eq_nil_iff.mp hready.symm)]
  exact hj

end Ordering

/-- The steps of old come in the same order. -/
theorem order_renumbered {n m : Nat} {f : Nat → Nat} {old : Nat → Bool} {hops : List (Nat × Nat)}
    (hr : Renumbers n m f old) (hn : ∀ x ∈ hops, x.1 < n ∧ x.2 < n) {places places' : List Nat}
    (h : order n hops = .ok places) (h' : order m (hops.map (renumbered f)) = .ok places') :
    places'.filter old = places.map f := by
  unfold order at h h'
  simp only at h h'
  split at h
  · split at h'
    · cases h
      cases h'
      exact (Ordering.spread_run hr hn).taken
    · cases h'
  · cases h

end Plan
end RowFlow
