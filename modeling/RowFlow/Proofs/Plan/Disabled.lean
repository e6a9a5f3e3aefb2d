import RowFlow.Proofs.Plan.Spread
import RowFlow.Proofs.Plan.WellFormed
import RowFlow.Proofs.Plan.Wiring

/-
Disabled hops are as good as absent.  The plan of a definition is compared with the plan
of the definition without its disabled hops.  There no step is unused, so the only
difference is in the steps that are: no enabled hop touches them, they are steps that were
added to the others (`Renumbers`), and neither the order of the others nor their wiring
depends on them.  But they are planned there, and that takes storage for their copies.
-/
namespace RowFlow

def Definition.enabledOnly (d : Definition) : Definition := { d with hops := Plan.enabledHops d }

namespace Plan

/-- Hops leave the step, all of them disabled, and no hop enters it. -/
structure Stranded (d : Definition) (name : String) : Prop where
  leaves : ∃ h ∈ d.hops, h.source = name
  disabled : ∀ h ∈ d.hops, h.source = name → h.enabled = false
  notEntered : ∀ h ∈ d.hops, h.target ≠ name

section Used

variable {d : Definition} {name : String} {h : Hop}

theorem isUnused_iff : isUnused d name = true ↔ Stranded d name := by
  have hiff : isUnused d name = true ↔ (∃ h ∈ d.hops, h.source = name) ∧
      (∀ h ∈ d.hops, h.source = name → h.enabled = false) ∧ ∀ h ∈ d.hops, h.target ≠ name := by
    simp only [isUnused, Bool.and_eq_true, List.any_eq_true, List.all_eq_true, beq_iff_eq,
      bne_iff_ne, Bool.or_eq_true, Bool.not_eq_true', and_assoc]
    exact and_congr_right fun _ => and_congr_left fun _ => forall₂_congr fun h _ =>
      Decidable.imp_iff_not_or.symm
  rw [hiff]
  constructor
  · rintro ⟨hleaves, hdisabled, hnotEntered⟩
    exact ⟨hleaves, hdisabled, hnotEntered⟩
  · exact fun h => ⟨h.leaves, h.disabled, h.notEntered⟩

instance (d : Definition) (name : String) : Decidable (Stranded d name) :=
  decidable_of_iff _ isUnused_iff

theorem not_isUnused (d : Definition) (name : String) :
    (!isUnused d name) = decide (¬ Stranded d name) := by
  rw [decide_not, decide_eq_decide.mpr isUnused_iff.symm, Bool.decide_coe]

/-- No enabled hop touches a step that is unused. -/
theorem Stranded.apart (hs : Stranded d name) (hmem : h ∈ enabledHops d) :
    h.source ≠ name ∧ h.target ≠ name := by
  obtain ⟨hin, hon⟩ := List.mem_filter.mp hmem
  refine ⟨fun hsource => ?_, hs.notEntered h hin⟩
  rw [hs.disabled h hin hsource] at hon
  cases hon

@[simp] theorem enabledHops_enabledOnly (d : Definition) :
    enabledHops d.enabledOnly = enabledHops d := by
  simp [Definition.enabledOnly, enabledHops]

/-- Without disabled hops every step is used. -/
@[simp] theorem usedSteps_enabledOnly (d : Definition) : usedSteps d.enabledOnly = d.steps := by
  refine List.filter_eq_self.mpr fun s _ => ?_
  rw [Bool.not_eq_true', Bool.eq_false_iff, Ne, isUnused_iff]
  intro hs
  obtain ⟨h, hmem, hsource⟩ := hs.leaves
  have hmem' : h ∈ enabledHops d.enabledOnly := by rwa [enabledHops_enabledOnly]
  exact (hs.apart hmem').1 hsource

end Used

section Kept

variable {α : Type} (p : α → Bool) (xs : List α)

def keptPlaces : List Nat := (List.range xs.length).filter fun i => xs[i]?.any p

theorem map_keptPlaces : (keptPlaces p xs).map (fun i => xs[i]?) = (xs.filter p).map some := by
  induction xs with
  | nil => rfl
  | cons x xs ih =>
    have htail : ((List.range xs.length).map Nat.succ).filter (fun i => (x :: xs)[i]?.any p) =
        (keptPlaces p xs).map Nat.succ := by
      rw [List.filter_map]
      rfl
    rw [keptPlaces, List.length_cons, List.range_succ_eq_map, List.filter_cons, htail]
    cases hx : p x <;> simp [hx, Function.comp_def, ih]

@[simp] theorem length_keptPlaces : (keptPlaces p xs).length = (xs.filter p).length := by
  simpa using congrArg List.length (map_keptPlaces p xs)

theorem getElem?_keptPlaces {i : Nat} (hi : i < (xs.filter p).length) :
    xs[(keptPlaces p xs).getD i 0]? = some (xs.filter p)[i] := by
  have hget := congrArg (·[i]?) (map_keptPlaces p xs)
  have hi' : i < (keptPlaces p xs).length := by rwa [length_keptPlaces]
  simpa [List.getD_eq_getElem?_getD, hi, hi'] using hget

theorem renumbers_keptPlaces : Renumbers (xs.filter p).length xs.length
    (fun i => (keptPlaces p xs).getD i 0) (fun i => xs[i]?.any p) where
  range := by
    show keptPlaces p xs = _
    refine List.ext_getElem? fun i => ?_
    rw [List.getElem?_map]
    by_cases hi : i < (xs.filter p).length
    · have hi' : i < (keptPlaces p xs).length := by rwa [length_keptPlaces]
      rw [List.getElem?_range hi, Option.map_some, List.getD_eq_getElem?_getD,
        List.getElem?_eq_getElem hi', Option.getD_some]
    · simp [hi]

end Kept

section Order

variable {steps ordered ordered' : List StepDefinition} {p : StepDefinition → Bool}
  {hops : List Hop} {name : String}

/-- The place of a step that is kept, among all steps. -/
theorem idxOf_keptPlaces (hnames : (steps.map (·.name)).Nodup)
    (hname : name ∈ (steps.filter p).map (·.name)) :
    (steps.map (·.name)).idxOf name =
      (keptPlaces p steps).getD (((steps.filter p).map (·.name)).idxOf name) 0 := by
  have hlt := List.idxOf_lt_length_of_mem hname
  have hname' := List.getElem_idxOf hlt
  generalize ((steps.filter p).map (·.name)).idxOf name = k at hlt hname'
  rw [List.getElem_map] at hname'
  rw [List.length_map] at hlt
  obtain ⟨hplace, hget⟩ := List.getElem?_eq_some_iff.mp (getElem?_keptPlaces p steps hlt)
  have hidx := hnames.idxOf_getElem ((keptPlaces p steps).getD k 0) (by simpa using hplace)
  rwa [List.getElem_map, hget, hname'] at hidx

/-- Steps that no hop touches leave the order of the others as it is. -/
theorem orderedSteps_filter (hnames : (steps.map (·.name)).Nodup)
    (hhops : ∀ h ∈ hops, h.source ∈ (steps.filter p).map (·.name) ∧
      h.target ∈ (steps.filter p).map (·.name))
    (h : orderedSteps (steps.filter p) hops = .ok ordered)
    (h' : orderedSteps steps hops = .ok ordered') : ordered = ordered'.filter p := by
  let pairs := hops.map fun h => (((steps.filter p).map (·.name)).idxOf h.source,
    ((steps.filter p).map (·.name)).idxOf h.target)
  have hn : ∀ x ∈ pairs, x.1 < (steps.filter p).length ∧ x.2 < (steps.filter p).length := by
    intro x hx
    obtain ⟨hop, hmem, rfl⟩ := List.mem_map.mp hx
    have hsource := List.idxOf_lt_length_of_mem (hhops hop hmem).1
    have htarget := List.idxOf_lt_length_of_mem (hhops hop hmem).2
    rw [List.length_map] at hsource htarget
    exact ⟨hsource, htarget⟩
  have hpairs : (hops.map fun h => ((steps.map (·.name)).idxOf h.source,
      (steps.map (·.name)).idxOf h.target)) =
      pairs.map (renumbered fun i => (keptPlaces p steps).getD i 0) := by
    rw [List.map_map]
    refine List.map_congr_left fun hop hmem => ?_
    rw [idxOf_keptPlaces hnames (hhops hop hmem).1, idxOf_keptPlaces hnames (hhops hop hmem).2]
    rfl
  unfold orderedSteps at h h'
  simp only at h h'
  rw [hpairs] at h'
  split at h
  · next places hplaces =>
    split at h'
    · next places' hplaces' =>
      cases h
      cases h'
      have hsame := order_renumbered (renumbers_keptPlaces p steps) hn hplaces hplaces'
      have hin : ∀ i ∈ places, i < (steps.filter p).length := by
        intro i hi
        exact List.mem_range.mp ((order_ok (fun x hx => (hn x hx).2) hplaces).1.mem_iff.mp hi)
      calc places.filterMap (fun i => (steps.filter p)[i]?)
        _ = places.filterMap (fun i => steps[(keptPlaces p steps).getD i 0]?) :=
          List.filterMap_congr fun i hi => by
            rw [getElem?_keptPlaces p steps (hin i hi), List.getElem?_eq_getElem (hin i hi)]
        _ = (places'.filter fun i => steps[i]?.any p).filterMap (fun i => steps[i]?) := by
          rw [hsame, List.filterMap_map]
          rfl
        _ = (places'.filterMap fun i => steps[i]?).filter p := by
          rw [List.filterMap_filter, List.filter_filterMap]
          refine List.filterMap_congr fun i _ => ?_
          cases steps[i]? with
          | none => rfl
          | some s => cases hs : p s <;> simp [hs, Option.filter_some]
    · cases h'
  · cases h

end Order

section Wire

variable {steps : List StepDefinition} {p : StepDefinition → Bool} {hops : List Hop} {name : String}

theorem copiesOf_filter (hnames : (steps.map (·.name)).Nodup)
    (hname : name ∈ (steps.filter p).map (·.name)) :
    copiesOf (steps.filter p) name = copiesOf steps name := by
  obtain ⟨s, hs, rfl⟩ := List.mem_map.mp hname
  rw [copiesOf_name (hnames.sublist (List.filter_sublist.map _)) hs,
    copiesOf_name hnames (List.mem_filter.mp hs).1]

/-- Steps that no hop touches leave the wiring of the others as it is. -/
theorem wire_filter (hnames : (steps.map (·.name)).Nodup)
    (hhops : ∀ h ∈ hops, h.source ∈ (steps.filter p).map (·.name) ∧
      h.target ∈ (steps.filter p).map (·.name)) (queueSize : Nat) :
    (wire (steps.filter p) hops queueSize).steps =
        (wire steps hops queueSize).steps.filter (fun s => p s.definition) ∧
      (wire (steps.filter p) hops queueSize).rowSets = (wire steps hops queueSize).rowSets := by
  have hlinks : linksOf (copiesOf (steps.filter p)) hops = linksOf (copiesOf steps) hops := by
    refine congrArg List.zipIdx (List.flatMap_congr fun h hmem => ?_)
    rw [copiesOf_filter hnames (hhops h hmem).1, copiesOf_filter hnames (hhops h hmem).2]
  refine ⟨?_, by simp only [wire, hlinks]⟩
  simp only [wire, hlinks, List.filter_map]
  rfl

end Wire

section Plans

variable {d : Definition} {queueSize : Nat} {plan plan' : Plan}

theorem WellFormed.enabledOnly (h : WellFormed d) : WellFormed d.enabledOnly where
  named := h.named
  distinct := h.distinct
  copies := h.copies
  hops hop hmem := h.hops hop (List.mem_filter.mp hmem).1
  single := by rw [enabledHops_enabledOnly]; exact h.single
  errorSources := by rw [enabledHops_enabledOnly]; exact h.errorSources
  acyclic := by rw [enabledHops_enabledOnly]; exact h.acyclic

/-- The disabled hops have to make sense, too. -/
theorem WellFormed.of_enabledOnly (hproblem : problem? d = none) (h : WellFormed d.enabledOnly) :
    WellFormed d where
  named := h.named
  distinct := h.distinct
  copies := h.copies
  hops := hopProblem?_eq_none_iff.mp (Option.or_eq_none_iff.mp hproblem).2
  single := by rw [← enabledHops_enabledOnly]; exact h.single
  errorSources := by rw [← enabledHops_enabledOnly]; exact h.errorSources
  acyclic := by rw [← enabledHops_enabledOnly]; exact h.acyclic

/-- The steps of a plan in their order. -/
theorem exists_orderedSteps_of_ofDefinition (h : ofDefinition d queueSize = .ok plan) :
    ∃ steps, orderedSteps (usedSteps d) (enabledHops d) = .ok steps ∧
      plan = wire steps (enabledHops d) queueSize := by
  unfold ofDefinition at h
  split at h
  · cases h
  · split at h
    · cases h
    · next steps hsteps =>
      cases h
      exact ⟨steps, hsteps, rfl⟩

theorem steps_filter_of_ofDefinition (h : ofDefinition d queueSize = .ok plan)
    (h' : ofDefinition d.enabledOnly queueSize = .ok plan') :
    plan.steps = plan'.steps.filter (fun s => ¬ Stranded d s.definition.name) ∧
      plan.rowSets = plan'.rowSets := by
  simp only [← not_isUnused]
  obtain ⟨steps, hsteps, rfl⟩ := exists_orderedSteps_of_ofDefinition h
  obtain ⟨steps', hsteps', rfl⟩ := exists_orderedSteps_of_ofDefinition h'
  rw [usedSteps_enabledOnly, enabledHops_enabledOnly] at hsteps'
  rw [enabledHops_enabledOnly]
  obtain ⟨hproblem, henabled⟩ := (wellFormed_of_ofDefinition h).problem?_eq_none
  have hc := checked_of_problem? hproblem henabled
  obtain rfl := orderedSteps_filter (wellFormed_of_ofDefinition h).distinct
    (fun hop hmem => ⟨hc.source hop hmem, hc.target hop hmem⟩) hsteps hsteps'
  obtain ⟨hperm, -⟩ := orderedSteps_ok hc.linked hsteps
  obtain ⟨hproblem', henabled'⟩ := (wellFormed_of_ofDefinition h').problem?_eq_none
  have hc' := checked_of_problem? hproblem' henabled'
  rw [usedSteps_enabledOnly, enabledHops_enabledOnly] at hc'
  obtain ⟨hperm', -⟩ := orderedSteps_ok hc'.linked hsteps'
  refine wire_filter ((hperm'.map _).nodup_iff.mpr hc'.names) (fun hop hmem => ?_) queueSize
  rw [(hperm.map _).mem_iff, (hperm.map _).mem_iff]
  exact ⟨hc.source hop hmem, hc.target hop hmem⟩

/-- The steps that are not planned are those that are unused. -/
theorem not_mem_definitions (h : ofDefinition d queueSize = .ok plan) {s : StepDefinition}
    (hs : s ∈ d.steps) : s ∉ plan.steps.map (·.definition) ↔ Stranded d s.name := by
  obtain ⟨steps, hperm, -, -, rfl⟩ := ofDefinition_ok h
  rw [definitions_wire, hperm.mem_iff, ← isUnused_iff, usedSteps, List.mem_filter]
  simp [hs]

/-- There is storage without the disabled hops if there is with them, and for the copies of
the steps that are unused then. -/
theorem storable_enabledOnly_iff : Storable d.enabledOnly queueSize ↔ Storable d queueSize ∧
    ∀ s ∈ d.steps, Stranded d s.name → s.copies.toNat * copyBytes ≤ storageLimit := by
  constructor
  · intro h
    have hcopies := h.copies
    have hrows := h.rows
    rw [usedSteps_enabledOnly] at hcopies
    rw [enabledHops_enabledOnly] at hrows
    exact ⟨⟨fun s hs => hcopies s (List.mem_filter.mp hs).1, hrows⟩, fun s hs _ => hcopies s hs⟩
  · rintro ⟨h, hstranded⟩
    refine ⟨fun s hs => ?_, by rw [enabledHops_enabledOnly]; exact h.rows⟩
    rw [usedSteps_enabledOnly] at hs
    by_cases hunused : Stranded d s.name
    · exact hstranded s hs hunused
    · exact h.copies s (List.mem_filter.mpr ⟨hs, by rw [not_isUnused]; simpa using hunused⟩)

end Plans

/-- A disabled hop is as good as absent, except that it has to make sense and that a step
with none but disabled hops is left out.  Where the hop is absent that step is planned, and if
there is no storage for its copies the build crashes. -/
theorem build_enabledOnly (d : Definition) (queueSize : Nat) :
    (∀ plan, build d queueSize = .returned (.ok plan) →
      problem? d = none ∧
      (∀ s ∈ d.steps, s ∉ plan.steps.map (·.definition) ↔ Stranded d s.name) ∧
      ((∀ s ∈ d.steps, Stranded d s.name → s.copies.toNat * copyBytes ≤ storageLimit) →
        ∃ plan', build d.enabledOnly queueSize = .returned (.ok plan')) ∧
      ((∃ s ∈ d.steps, Stranded d s.name ∧ storageLimit < s.copies.toNat * copyBytes) →
        ∃ text, build d.enabledOnly queueSize = .crashed text)) ∧
    (problem? d = none → ∀ plan', build d.enabledOnly queueSize = .returned (.ok plan') →
      ∃ plan, build d queueSize = .returned (.ok plan) ∧
        plan.steps = plan'.steps.filter (fun s => ¬ Stranded d s.definition.name) ∧
          plan.rowSets = plan'.rowSets) ∧
    ∀ name, Stranded d name → ∀ h ∈ d.hops, h.enabled = true →
      h.source ≠ name ∧ h.target ≠ name := by
  refine ⟨fun plan h => ?_, fun hproblem plan' h' => ?_,
    fun name hs h hmem hon => hs.apart (List.mem_filter.mpr ⟨hmem, hon⟩)⟩
  · obtain ⟨hwf, hstorable⟩ := exists_build_iff.mp ⟨plan, h⟩
    refine ⟨hwf.problem?_eq_none.1, fun s => not_mem_definitions (build_eq_returned_iff.mp h).1,
      fun hfits => ?_, fun ⟨s, hs, hstranded, hlarge⟩ => ?_⟩
    · exact exists_build_iff.mpr ⟨hwf.enabledOnly, storable_enabledOnly_iff.mpr ⟨hstorable, hfits⟩⟩
    · refine build_crashes_iff.mpr (overflows_iff.mpr ⟨hwf.enabledOnly, fun hfits => ?_⟩)
      exact absurd ((storable_enabledOnly_iff.mp hfits).2 s hs hstranded) (Nat.not_le.mpr hlarge)
  · obtain ⟨hwf', hstorable'⟩ := exists_build_iff.mp ⟨plan', h'⟩
    obtain ⟨plan, h⟩ := exists_build_iff.mpr
      ⟨WellFormed.of_enabledOnly hproblem hwf', (storable_enabledOnly_iff.mp hstorable').1⟩
    exact ⟨plan, h, steps_filter_of_ofDefinition (build_eq_returned_iff.mp h).1
      (build_eq_returned_iff.mp h').1⟩

def spare : Definition where
  name := "spare"
  steps := [{ name := "unused", plugin := "RowGenerator" },
    { name := "source", plugin := "RowGenerator" }, { name := "sink", plugin := "Dummy" }]
  hops := [{ source := "unused", target := "sink", enabled := false },
    { source := "source", target := "sink" }]

theorem build_enabledOnly_spare :
    ∃ plan plan', build spare 5 = .returned (.ok plan) ∧
      build spare.enabledOnly 5 = .returned (.ok plan') ∧
      plan.steps.length = 2 ∧ plan'.steps.length = 3 ∧
        plan.steps = plan'.steps.filter (fun s => ¬ Stranded spare s.definition.name) ∧
          plan.rowSets = plan'.rowSets := by
  obtain ⟨plan, h, hsteps, hrowSets⟩ := (build_enabledOnly spare 5).2.1 rfl _ rfl
  cases h
  exact ⟨_, _, rfl, rfl, rfl, rfl, hsteps, hrowSets⟩

def crowded : Definition where
  name := "crowded"
  steps := [{ name := "unused", plugin := "RowGenerator", copies := 18446744073709551615 },
    { name := "sink", plugin := "Dummy" }]
  hops := [{ source := "unused", target := "sink", enabled := false }]

/-- The step is left out, so there is a plan; without the hop it is planned, and there is no
storage for that. -/
theorem crashed_enabledOnly : (∃ plan, build crowded 5 = .returned (.ok plan)) ∧
    ¬ ∃ plan, build crowded.enabledOnly 5 = .returned (.ok plan) := by
  refine ⟨⟨_, rfl⟩, ?_⟩
  rintro ⟨plan, h⟩
  cases h

end Plan
end RowFlow
