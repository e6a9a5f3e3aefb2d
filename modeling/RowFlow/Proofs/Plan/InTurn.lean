import RowFlow.Proofs.Plan.Disabled

/-
When the steps of a plan are in the order in which they are defined.  What happens to the queue
does not depend on when steps are taken from it, only on the hops that are taken away: so it is
looked at as one list, to which the targets of the steps taken are released one after the other
(`Ordering.exists_taken_turns`).  A step is queued as soon as no hop into it is left; so the steps
are taken by their numbers just if no step is queued while a step of a smaller number still is
not, at any point on the way (`Ordering.taken_run_eq_range_iff`).
-/
namespace RowFlow
namespace Plan

/-- The targets of the hops of a step, in the order in which the hops are taken away. -/
def successors (hops : List (Nat × Nat)) (i : Nat) : List Nat :=
  (hops.filter (·.1 == i)).map (·.2)

/-- As long as a hop into a step is left, so is one into every step of a greater number. -/
def InTurn (n : Nat) (targets : List Nat) : Prop :=
  ∀ rest, rest <:+ targets → ∀ s t, s < t → t < n → s ∈ rest → t ∈ rest

namespace Ordering

variable {n i k m t : Nat} {hops : List (Nat × Nat)} {targets ts rest : List Nat} {o o' : Ordering}

/-- The steps taken and those ready, in the order in which they became ready. -/
def queue (o : Ordering) : List Nat := o.taken ++ o.ready

/-- The orderings differ only in how many steps of the queue are taken. -/
structure SameQueue (o o' : Ordering) : Prop where
  entering : o.entering = o'.entering
  queue : o.queue = o'.queue

theorem queue_release (o : Ordering) (t : Nat) : (o.release t).queue =
    if o.entering.getD t 0 - 1 = 0 then o.queue ++ [t] else o.queue := by
  unfold queue release
  by_cases hleft : o.entering.getD t 0 - 1 = 0
  · simp only [if_pos hleft, List.append_assoc]
  · simp only [if_neg hleft]

theorem SameQueue.release (h : SameQueue o o') (t : Nat) :
    SameQueue (o.release t) (o'.release t) := by
  constructor
  · simp only [Ordering.release, h.entering]
  · rw [queue_release, queue_release, h.entering, h.queue]

theorem SameQueue.releaseAll (h : SameQueue o o') (ts : List Nat) :
    SameQueue (ts.foldl Ordering.release o) (ts.foldl Ordering.release o') := by
  induction ts generalizing o o' with
  | nil => exact h
  | cons t ts ih => exact ih (h.release t)

theorem SameQueue.trans {o'' : Ordering} (h : SameQueue o o') (h' : SameQueue o' o'') :
    SameQueue o o'' :=
  ⟨h.entering.trans h'.entering, h.queue.trans h'.queue⟩

/-- To the queue a turn makes the difference that taking away the hops makes. -/
theorem sameQueue_turn (hready : o.ready = i :: rest) :
    SameQueue (turn hops o) ((successors hops i).foldl release o) := by
  have hsame : SameQueue { o with ready := rest, taken := o.taken ++ [i] } o :=
    ⟨rfl, by simp [queue, hready]⟩
  rw [turn, hready]
  exact hsame.releaseAll (successors hops i)

theorem exists_taken_turns (hops : List (Nat × Nat)) (k : Nat) (o : Ordering) :
    ∃ more, (turns hops k o).taken = o.taken ++ more ∧
      SameQueue (turns hops k o) ((more.flatMap (successors hops)).foldl release o) := by
  induction k generalizing o with
  | zero => exact ⟨[], (List.append_nil _).symm, rfl, rfl⟩
  | succ k ih =>
    cases hready : o.ready with
    | nil => exact ⟨[], by rw [turns_of_ready_nil hready, List.append_nil],
        by rw [turns_of_ready_nil hready]; exact ⟨rfl, rfl⟩⟩
    | cons i rest =>
      obtain ⟨more, htaken, hsame⟩ := ih (turn hops o)
      refine ⟨i :: more, ?_, ?_⟩
      · rw [turns, htaken, taken_turn hready, List.append_assoc]
        rfl
      · rw [turns, List.flatMap_cons, List.foldl_append]
        exact hsame.trans ((sameQueue_turn hready).releaseAll _)

theorem queue_prefix_releaseAll (ts : List Nat) (o : Ordering) :
    o.queue <+: (ts.foldl release o).queue := by
  obtain ⟨added, hready, -⟩ := ready_releaseAll ts o
  refine ⟨added, ?_⟩
  rw [queue, queue, taken_releaseAll, hready, List.append_assoc]

/-- With all hops before it, the queue is ready to have them taken away in any order of steps. -/
theorem sound_start (hn : ∀ h ∈ hops, h.1 < n) :
    (start n hops).Sound n ((List.range n).flatMap (successors hops)) := by
  have hleft : ∀ k, k ≤ n → (targetsLeft hops []).Perm
      ((List.range k).flatMap (successors hops) ++ targetsLeft hops (List.range k)) := by
    intro k
    induction k with
    | zero => exact fun _ => .refl _
    | succ k ih =>
      intro hk
      have hnot : k ∉ List.range k := by simp
      rw [List.range_succ, List.flatMap_append, List.flatMap_singleton, List.append_assoc]
      exact (ih (Nat.le_of_succ_le hk)).trans
        (List.Perm.append_left _ (perm_targetsLeft hops hnot))
  have hnone : targetsLeft hops (List.range n) = [] := by
    refine List.map_eq_nil_iff.mpr (List.filter_eq_nil_iff.mpr fun h hmem => ?_)
    simp [hn h hmem]
  have hall := hleft n (Nat.le_refl n)
  rw [hnone, List.append_nil] at hall
  exact (invariant_start n hops).sound.perm hall

theorem Sound.mem_queue_iff (h : o.Sound n targets) : i ∈ o.queue ↔ i < n ∧ i ∉ targets := by
  rw [queue, h.queued, List.count_eq_zero]

/-- The queue is an initial part of all steps just if no step of a smaller number is left out. -/
theorem Sound.left_of_queue (h : o.Sound n targets) (hqueue : o.queue = List.range m) {s t : Nat}
    (hst : s < t) (ht : t < n) (hs : s ∈ targets) : t ∈ targets := by
  by_contra hnot
  have hmem := h.mem_queue_iff.mpr ⟨ht, hnot⟩
  rw [hqueue, List.mem_range] at hmem
  have hmem' : s ∈ o.queue := by
    rw [hqueue, List.mem_range]
    exact hst.trans hmem
  exact (h.mem_queue_iff.mp hmem').2 hs

/-- In turn, a step that is queued comes next after those of smaller numbers. -/
theorem Sound.queue_release (h : o.Sound n (t :: targets)) (ht : t < n)
    (hturn : ∀ s < t, s ∈ targets → t ∈ targets) (hqueue : o.queue = List.range m) :
    ∃ m, (o.release t).queue = List.range m := by
  have hafter := h.release ht
  rw [Ordering.queue_release]
  split
  · next hzero =>
    have hnew : (o.release t).queue = List.range m ++ [t] := by
      rw [Ordering.queue_release, if_pos hzero, hqueue]
    have hmem : ∀ i, i ∈ List.range m ++ [t] ↔ i < n ∧ i ∉ targets := by
      intro i
      rw [← hnew]
      exact hafter.mem_queue_iff
    have hnot := ((hmem t).mp (by simp)).2
    have hle : m ≤ t := by
      by_contra hlt
      have hmem := h.mem_queue_iff (i := t)
      rw [hqueue, List.mem_range] at hmem
      exact (hmem.mp (Nat.lt_of_not_le hlt)).2 List.mem_cons_self
    have hge : t ≤ m := by
      by_contra hlt
      have hm : m ∈ List.range m ++ [t] := (hmem m).mpr
        ⟨(Nat.lt_of_not_le hlt).trans ht, fun hmem => hnot (hturn m (Nat.lt_of_not_le hlt) hmem)⟩
      simp at hm
      omega
    refine ⟨m + 1, ?_⟩
    rw [List.range_succ, hqueue, Nat.le_antisymm hge hle]
  · exact ⟨m, hqueue⟩

theorem Sound.queue_releaseAll (h : o.Sound n (ts ++ targets)) (hts : ∀ t ∈ ts, t < n)
    (hturn : InTurn n (ts ++ targets)) (hqueue : ∃ m, o.queue = List.range m) :
    ∃ m, (ts.foldl Ordering.release o).queue = List.range m := by
  induction ts generalizing o with
  | nil => exact hqueue
  | cons t ts ih =>
    obtain ⟨m, hqueue⟩ := hqueue
    have ht := hts t List.mem_cons_self
    have hrest : ts ++ targets <:+ t :: (ts ++ targets) := List.suffix_cons _ _
    refine ih (h.release ht) (fun t' ht' => hts t' (List.mem_cons_of_mem t ht'))
      (fun rest hsuffix => hturn rest (hsuffix.trans hrest)) ?_
    exact Sound.queue_release h ht (fun s hst hs => hturn _ hrest s t hst ht hs) hqueue

theorem filter_range_eq_range {p : Nat → Bool} (hdown : ∀ s t, s < t → t < n → p t → p s) :
    ∃ m, (List.range n).filter p = List.range m := by
  induction n with
  | zero => exact ⟨0, rfl⟩
  | succ n ih =>
    rw [List.range_succ, List.filter_append]
    by_cases hp : p n
    · refine ⟨n + 1, ?_⟩
      have hall : (List.range n).filter p = List.range n :=
        List.filter_eq_self.mpr fun s hs => hdown s n (List.mem_range.mp hs) (Nat.lt_succ_self n) hp
      simp [hall, hp, List.range_succ]
    · obtain ⟨m, hm⟩ := ih fun s t hst ht => hdown s t hst (ht.trans (Nat.lt_succ_self n))
      exact ⟨m, by simp [hm, hp]⟩

/-- The steps that no hop enters come first. -/
theorem queue_start (hn : ∀ h ∈ hops, h.1 < n)
    (hturn : InTurn n ((List.range n).flatMap (successors hops))) :
    ∃ m, (start n hops).queue = List.range m := by
  have hsound := sound_start hn
  refine filter_range_eq_range fun s t hst ht hready => ?_
  have hmem : ∀ i, i < n → (((start n hops).entering[i]? == some 0) = true ↔
      i ∈ (start n hops).queue) := by
    intro i hi
    simp [queue, start, hi]
  have hfree := (hsound.mem_queue_iff.mp ((hmem t ht).mp hready)).2
  refine (hmem s (hst.trans ht)).mpr (hsound.mem_queue_iff.mpr ⟨hst.trans ht, fun hs => ?_⟩)
  exact hfree (hturn _ (List.suffix_refl _) s t hst ht hs)

theorem flatMap_lt {places : List Nat} (hn : ∀ h ∈ hops, h.2 < n) :
    ∀ t ∈ places.flatMap (successors hops), t < n := by
  intro t ht
  obtain ⟨i, -, hi⟩ := List.mem_flatMap.mp ht
  exact target_lt hn t hi

/-- After the hops of the first steps are taken away, no step of the queue is out of turn. -/
theorem queue_flatMap (hn : ∀ h ∈ hops, h.1 < n ∧ h.2 < n)
    (hturn : InTurn n ((List.range n).flatMap (successors hops))) (hk : k ≤ n) :
    ∃ m, (((List.range k).flatMap (successors hops)).foldl release (start n hops)).queue =
      List.range m := by
  obtain ⟨more, hmore⟩ : List.range k <+: List.range n := by
    rw [List.prefix_iff_eq_take, List.length_range, List.take_range, Nat.min_eq_left hk]
  have hsplit : (List.range n).flatMap (successors hops) =
      (List.range k).flatMap (successors hops) ++ more.flatMap (successors hops) := by
    rw [← hmore, List.flatMap_append]
  have hsound := sound_start fun h hmem => (hn h hmem).1
  have hstart := queue_start (fun h hmem => (hn h hmem).1) hturn
  rw [hsplit] at hsound hturn
  exact hsound.queue_releaseAll (flatMap_lt fun h hmem => (hn h hmem).2) hturn hstart

/-- In turn, each step is taken after those of smaller numbers. -/
theorem taken_turns (hn : ∀ h ∈ hops, h.1 < n ∧ h.2 < n) (hforward : ∀ h ∈ hops, h.1 < h.2)
    (hturn : InTurn n ((List.range n).flatMap (successors hops))) (hk : k ≤ n) :
    (turns hops k (start n hops)).taken = List.range k := by
  induction k with
  | zero => rfl
  | succ k ih =>
    have htaken := ih (Nat.le_of_succ_le hk)
    have hinv := (invariant_start n hops).turns (fun h hmem => (hn h hmem).2) k
    obtain ⟨more, hmore, hsame⟩ := exists_taken_turns hops k (start n hops)
    obtain ⟨m, hqueue⟩ := queue_flatMap hn hturn (Nat.le_of_succ_le hk)
    obtain rfl : more = List.range k := (htaken.symm.trans hmore).symm
    rw [← hsame.queue] at hqueue
    have hmem : k ∈ (turns hops k (start n hops)).queue := by
      refine hinv.sound.mem_queue_iff.mpr ⟨hk, fun hmem => ?_⟩
      obtain ⟨hop, hhop, heq⟩ := List.mem_map.mp hmem
      obtain ⟨hhop, hnot⟩ := List.mem_filter.mp hhop
      rw [htaken] at hnot
      have hlt := hforward hop hhop
      simp at hnot
      omega
    rw [hqueue, List.mem_range] at hmem
    have hready : (turns hops k (start n hops)).ready = k :: (List.range m).drop (k + 1) := by
      have hdrop : (turns hops k (start n hops)).ready = (List.range m).drop k := by
        rw [← hqueue, queue, htaken, List.drop_left' List.length_range]
      rw [hdrop, List.drop_eq_getElem_cons (by rwa [List.length_range]), List.getElem_range]
    have hnext : turns hops (k + 1) (start n hops) = turn hops (turns hops k (start n hops)) :=
      turns_add hops k 1 (start n hops)
    rw [hnext, taken_turn hready, htaken, List.range_succ]

/-- If the steps are taken by their numbers, all hops go to greater numbers, -/
theorem lt_of_taken_run (hn : ∀ h ∈ hops, h.1 < n ∧ h.2 < n)
    (htaken : (run n hops).taken = List.range n) : ∀ h ∈ hops, h.1 < h.2 := by
  intro h hmem
  have hinv := (invariant_start n hops).turns (fun h hmem => (hn h hmem).2) n
  have hforward : Forward hops (List.range n) := htaken ▸ hinv.forward
  have hidx : ∀ i < n, (List.range n).idxOf i = i := by
    intro i hi
    have hlt : i < (List.range n).length := by rwa [List.length_range]
    have hget := List.nodup_range.idxOf_getElem i hlt
    rwa [List.getElem_range] at hget
  have hlt := (hforward.idxOf_lt (List.mem_range.mpr (hn h hmem).2) hmem).2
  rwa [hidx _ (hn h hmem).1, hidx _ (hn h hmem).2] at hlt

/-- and the steps have become ready in turn: at any point on the way the queue is an initial part
of what it is in the end. -/
theorem inTurn_of_taken_run (hn : ∀ h ∈ hops, h.1 < n ∧ h.2 < n)
    (htaken : (run n hops).taken = List.range n) :
    InTurn n ((List.range n).flatMap (successors hops)) := by
  rintro rest ⟨before, hbefore⟩ s t hst ht hs
  have hn' := fun h hmem => (hn h hmem).2
  obtain ⟨more, hmore, hsame⟩ := exists_taken_turns hops n (start n hops)
  obtain rfl : more = List.range n := (htaken.symm.trans hmore).symm
  have hlast : (run n hops).queue = List.range n := by
    rw [queue, ready_run hn', List.append_nil, htaken]
  have hqueue : (before.foldl release (start n hops)).queue <+: List.range n := by
    rw [← hlast, run, hsame.queue, ← hbefore, List.foldl_append]
    exact queue_prefix_releaseAll _ _
  rw [List.prefix_iff_eq_take, List.take_range] at hqueue
  have hsound := sound_start fun h hmem => (hn h hmem).1
  rw [← hbefore] at hsound
  have hlt : ∀ t ∈ before, t < n := fun t ht =>
    flatMap_lt hn' t (hbefore ▸ List.mem_append_left rest ht)
  exact (hsound.releaseAll hlt).left_of_queue hqueue hst ht hs

/-- The steps are taken by their numbers just if all hops go to greater numbers and the steps
become ready in turn. -/
theorem taken_run_eq_range_iff (hn : ∀ h ∈ hops, h.1 < n ∧ h.2 < n) :
    (run n hops).taken = List.range n ↔ (∀ h ∈ hops, h.1 < h.2) ∧
      InTurn n ((List.range n).flatMap (successors hops)) :=
  ⟨fun htaken => ⟨lt_of_taken_run hn htaken, inTurn_of_taken_run hn htaken⟩,
    fun ⟨hforward, hturn⟩ => taken_turns hn hforward hturn (Nat.le_refl n)⟩

end Ordering

end Plan
end RowFlow
