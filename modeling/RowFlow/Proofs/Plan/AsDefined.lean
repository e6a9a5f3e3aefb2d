import RowFlow.Proofs.Plan.InTurn

/-
Which definitions are planned in the order in which they are written.  It takes more than that
every hop goes forward: the step that is ready first is taken first, so of two pipelines that are
written one after the other the second one starts before the first one goes on
(`definitions_ne_usedSteps`).  The order is kept just if the steps become ready in that order, too
(`definitions_eq_usedSteps_iff`).
-/
namespace RowFlow
namespace Plan

/-- The steps that hops lead to, in the order in which the hops are taken away when the steps are
taken as they stand. -/
def entered (steps : List StepDefinition) (hops : List Hop) : List String :=
  steps.flatMap fun s => (hops.filter (·.source == s.name)).map (·.target)

/-- As long as a hop into the earlier step is left, so is one into the later step. -/
def ReadyInTurn (steps : List StepDefinition) (hops : List Hop) : Prop :=
  steps.Pairwise fun s t => ∀ rest, rest <:+ entered steps hops → s.name ∈ rest → t.name ∈ rest

section Steps

variable {steps : List StepDefinition} {hops : List Hop} {places : List Nat}

theorem successors_pairsOf {s : StepDefinition} (hs : s ∈ steps) :
    successors (pairsOf steps hops) (numberOf steps s.name) =
      ((hops.filter (·.source == s.name)).map (·.target)).map (numberOf steps) := by
  have hsource : hops.filter ((·.1 == numberOf steps s.name) ∘
      fun h => (numberOf steps h.source, numberOf steps h.target)) =
      hops.filter (·.source == s.name) := by
    refine List.filter_congr fun h _ => ?_
    have hinj : numberOf steps s.name = numberOf steps h.source ↔ s.name = h.source :=
      List.idxOf_inj (List.mem_map_of_mem hs)
    rw [Bool.eq_iff_iff, Function.comp_apply, beq_iff_eq, beq_iff_eq, eq_comm, hinj, eq_comm]
  rw [successors, pairsOf, List.filter_map, hsource, List.map_map, List.map_map]
  rfl

/-- The numbers of the steps at the places are the places. -/
theorem map_numberOf_filterMap (hnames : (steps.map (·.name)).Nodup)
    (hplaces : ∀ i ∈ places, i < steps.length) :
    (places.filterMap fun i => steps[i]?).map (fun s => numberOf steps s.name) = places := by
  induction places with
  | nil => rfl
  | cons i places ih =>
    have hi := hplaces i List.mem_cons_self
    rw [List.filterMap_cons, List.getElem?_eq_getElem hi]
    simp only [List.map_cons, numberOf_getElem hnames hi,
      ih fun j hj => hplaces j (List.mem_cons_of_mem i hj)]

theorem map_numberOf (hnames : (steps.map (·.name)).Nodup) :
    steps.map (fun s => numberOf steps s.name) = List.range steps.length := by
  have hplaces : ∀ i ∈ List.range steps.length, i < steps.length := fun i hi =>
    List.mem_range.mp hi
  have hall := map_numberOf_filterMap hnames hplaces
  rwa [filterMap_getElem?_range] at hall

theorem flatMap_successors (hnames : (steps.map (·.name)).Nodup) :
    (List.range steps.length).flatMap (successors (pairsOf steps hops)) =
      (entered steps hops).map (numberOf steps) := by
  rw [← map_numberOf hnames, List.flatMap_map, entered, List.map_flatMap]
  exact List.flatMap_congr fun s hs => successors_pairsOf hs

namespace Linked

variable (hl : Linked steps hops)

include hl

/-- The steps are ordered as they stand just if they are taken by their numbers. -/
theorem orderedSteps_eq_self_iff_taken : orderedSteps steps hops = .ok steps ↔
    (Ordering.run steps.length (pairsOf steps hops)).taken = List.range steps.length := by
  rw [orderedSteps_eq]
  unfold order
  simp only
  constructor
  · intro h
    split at h
    · next places hplaces =>
      split at hplaces
      · cases hplaces
        have hordered := congrArg (List.map fun s => numberOf steps s.name) (Except.ok.inj h)
        have hlt : ∀ i ∈ (Ordering.run steps.length (pairsOf steps hops)).taken,
            i < steps.length := fun i hi => List.mem_range.mp
          (((Ordering.invariant_start _ _).turns hl.target_lt steps.length).taken_subset hi)
        rwa [map_numberOf_filterMap hl.names hlt, map_numberOf hl.names] at hordered
      · cases hplaces
    · cases h
  · intro h
    rw [h, if_pos List.length_range]
    exact congrArg Except.ok (filterMap_getElem?_range steps)

theorem mem_of_mem_entered {name : String} (h : name ∈ entered steps hops) :
    name ∈ steps.map (·.name) := by
  obtain ⟨s, -, hs⟩ := List.mem_flatMap.mp h
  obtain ⟨hop, hhop, rfl⟩ := List.mem_map.mp hs
  exact hl.target hop (List.mem_filter.mp hhop).1

/-- A step is among those that are left just if its number is. -/
theorem mem_map_numberOf_iff {rest : List String} (hrest : rest <:+ entered steps hops) {i : Nat}
    (hi : i < steps.length) : i ∈ rest.map (numberOf steps) ↔ steps[i].name ∈ rest := by
  constructor
  · intro h
    obtain ⟨name, hmem, rfl⟩ := List.mem_map.mp h
    rwa [← nameOf_eq hi, nameOf_numberOf (hl.mem_of_mem_entered (hrest.subset hmem))]
  · exact fun h => List.mem_map.mpr ⟨_, h, numberOf_getElem hl.names hi⟩

theorem inTurn_iff : InTurn steps.length ((entered steps hops).map (numberOf steps)) ↔
    ReadyInTurn steps hops := by
  refine Iff.trans ?_ List.pairwise_iff_getElem.symm
  constructor
  · intro h i j hi hj hij rest hrest hs
    rw [← hl.mem_map_numberOf_iff hrest hj]
    exact h (rest.map (numberOf steps)) (hrest.map (numberOf steps)) i j hij hj
      ((hl.mem_map_numberOf_iff hrest hi).mpr hs)
  · intro h rest hrest i j hij hj hs
    obtain ⟨names, hnames, rfl⟩ := List.suffix_map_iff.mp hrest
    rw [hl.mem_map_numberOf_iff hnames (hij.trans hj)] at hs
    exact (hl.mem_map_numberOf_iff hnames hj).mpr (h i j (hij.trans hj) hj hij names hnames hs)

end Linked

theorem Checked.inOrder_iff (hc : Checked steps hops) :
    InOrder steps hops ↔ ∀ h ∈ pairsOf steps hops, h.1 < h.2 := by
  constructor
  · intro ho h hmem
    obtain ⟨hop, hhop, rfl⟩ := List.mem_map.mp hmem
    exact ho.idxOf_lt hc hhop
  · refine fun h => List.pairwise_iff_getElem.mpr fun i j hi hj hij hop hhop hsource htarget => ?_
    have hlt := h _ (List.mem_map_of_mem hhop)
    rw [hsource, htarget, numberOf_getElem hc.names hi, numberOf_getElem hc.names hj] at hlt
    exact Nat.lt_asymm hij hlt

theorem Checked.orderedSteps_eq_self_iff (hc : Checked steps hops) :
    orderedSteps steps hops = .ok steps ↔ InOrder steps hops ∧ ReadyInTurn steps hops := by
  rw [hc.linked.orderedSteps_eq_self_iff_taken,
    Ordering.taken_run_eq_range_iff hc.linked.pairs_lt, flatMap_successors hc.names,
    hc.linked.inTurn_iff, hc.inOrder_iff]

end Steps

section Definitions

variable {d : Definition} {queueSize : Nat} {plan : Plan}

/-- No hop tells in which order the unused steps come. -/
theorem inOrder_usedSteps_iff (d : Definition) :
    InOrder (usedSteps d) (enabledHops d) ↔ InOrder d.steps (enabledHops d) := by
  refine List.pairwise_filter.trans ⟨List.Pairwise.imp ?_, List.Pairwise.imp fun h _ _ => h⟩
  intro s t hst hop hhop hsource htarget
  have hused : ∀ name, hop.source = name ∨ hop.target = name → (!isUnused d name) = true := by
    intro name hname
    rw [not_isUnused, decide_eq_true_iff]
    intro hs
    have hapart := hs.apart hhop
    exact hname.elim hapart.1 hapart.2
  exact hst (hused _ (.inr htarget)) (hused _ (.inl hsource)) hop hhop hsource htarget

/-- The steps of a plan are in the order of the definition just if every hop goes forward there
and the steps become ready in that order. -/
theorem definitions_eq_usedSteps_iff (h : ofDefinition d queueSize = .ok plan) :
    plan.steps.map (·.definition) = usedSteps d ↔
      InOrder d.steps (enabledHops d) ∧ ReadyInTurn (usedSteps d) (enabledHops d) := by
  obtain ⟨hproblem, henabled⟩ := (wellFormed_of_ofDefinition h).problem?_eq_none
  have hc := checked_of_problem? hproblem henabled
  obtain ⟨steps, hsteps, rfl⟩ := exists_orderedSteps_of_ofDefinition h
  rw [definitions_wire, ← inOrder_usedSteps_iff, ← hc.orderedSteps_eq_self_iff, hsteps,
    Except.ok.injEq]

end Definitions

def pipelines : Definition where
  name := "pipelines"
  steps := [{ name := "numbers", plugin := "p" }, { name := "evens", plugin := "p" },
    { name := "letters", plugin := "p" }, { name := "vowels", plugin := "p" }]
  hops := [{ source := "numbers", target := "evens" }, { source := "letters", target := "vowels" }]

/-- Every hop goes forward; still the second pipeline starts before the first one goes on. -/
theorem definitions_ne_usedSteps :
    ∃ plan, ofDefinition pipelines 100 = .ok plan ∧
      InOrder pipelines.steps (enabledHops pipelines) ∧ usedSteps pipelines = pipelines.steps ∧
      plan.steps.map (·.definition.name) = ["numbers", "letters", "evens", "vowels"] ∧
      plan.steps.map (·.definition) ≠ usedSteps pipelines := by
  refine ⟨_, rfl, ?_, rfl, rfl, ?_⟩
  · unfold InOrder
    decide
  · exact ne_of_apply_ne (List.map (·.name)) (by decide)

def interleaved : Definition where
  name := "interleaved"
  steps := [{ name := "numbers", plugin := "p" }, { name := "letters", plugin := "p" },
    { name := "evens", plugin := "p" }, { name := "vowels", plugin := "p" }]
  hops := pipelines.hops

theorem definitions_eq_usedSteps_iff_interleaved :
    ∃ plan, ofDefinition interleaved 100 = .ok plan ∧
      plan.steps.map (·.definition) = usedSteps interleaved ∧
      InOrder interleaved.steps (enabledHops interleaved) ∧
      ReadyInTurn (usedSteps interleaved) (enabledHops interleaved) :=
  ⟨_, rfl, rfl,
    (definitions_eq_usedSteps_iff (rfl : ofDefinition interleaved 100 = .ok _)).mp rfl⟩

end Plan
end RowFlow
