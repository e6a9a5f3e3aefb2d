import RowFlow.Proofs.Plan.Sorted

/-
A plan is made of exactly the definitions that are well formed.  The checks look at all
steps and hops, then at the enabled hops, then for an order of the used steps; each is
shown to find something exactly when one condition fails.

To build the plan takes storage.  Of a well-formed definition that is too large (it is not
`Storable`) a build makes no plan and reports no fault: it crashes.
-/
namespace RowFlow
namespace Plan

open Relation

structure WellFormed (d : Definition) : Prop where
  named : ∀ s ∈ d.steps, s.name ≠ ""
  distinct : (d.steps.map (·.name)).Nodup
  copies : ∀ s ∈ d.steps, 1 ≤ s.copies
  /-- Hops join two steps that exist, also those that are disabled. -/
  hops : ∀ h ∈ d.hops,
    h.source ∈ d.steps.map (·.name) ∧ h.target ∈ d.steps.map (·.name) ∧ h.source ≠ h.target
  single : ((enabledHops d).map ends).Nodup
  errorSources : (errorSources (enabledHops d)).Nodup
  acyclic : ∀ name, ¬ TransGen (Joins (enabledHops d)) name name

theorem stepProblem?_iff (steps : List StepDefinition) :
    stepProblem? [] steps = none ↔ (∀ s ∈ steps, s.name ≠ "") ∧
      (steps.map (·.name)).Nodup ∧ ∀ s ∈ steps, 1 ≤ s.copies := by
  rw [stepProblem?_eq_none_iff]
  simp only [List.not_mem_nil, not_false_eq_true, true_and, forall_and]
  rw [and_assoc, and_comm (a := ∀ s ∈ steps, 1 ≤ s.copies)]

theorem enabledProblem?_iff (hops : List Hop) :
    enabledProblem? [] [] hops = none ↔ (hops.map ends).Nodup ∧ (errorSources hops).Nodup := by
  rw [enabledProblem?_eq_none_iff]
  simp

section Order

variable {steps : List StepDefinition} {hops : List Hop}

/-- In an order of all steps the source of a hop comes before its target. -/
theorem InOrder.idxOf_lt (ho : InOrder steps hops) (hc : Checked steps hops) {h : Hop}
    (hmem : h ∈ hops) :
    (steps.map (·.name)).idxOf h.source < (steps.map (·.name)).idxOf h.target := by
  have hsource := List.idxOf_lt_length_of_mem (hc.source h hmem)
  have htarget := List.idxOf_lt_length_of_mem (hc.target h hmem)
  have hgetSource := List.getElem_idxOf hsource
  have hgetTarget := List.getElem_idxOf htarget
  rw [List.getElem_map] at hgetSource hgetTarget
  rw [List.length_map] at hsource htarget
  by_contra hnot
  rcases Nat.lt_or_eq_of_le (Nat.le_of_not_lt hnot) with hlt | heq
  · exact List.pairwise_iff_getElem.mp ho _ _ htarget hsource hlt h hmem hgetSource.symm
      hgetTarget.symm
  · refine hc.apart h hmem ?_
    rw [← hgetSource, ← hgetTarget]
    simp only [heq]

/-- Steps that have an order are joined by no cycle. -/
theorem InOrder.acyclic (ho : InOrder steps hops) (hc : Checked steps hops) (name : String) :
    ¬ TransGen (Joins hops) name name := by
  have hlt : ∀ a b, TransGen (Joins hops) a b →
      (steps.map (·.name)).idxOf a < (steps.map (·.name)).idxOf b := by
    intro a b h
    induction h with
    | single h =>
      obtain ⟨hop, hmem, rfl, rfl⟩ := h
      exact ho.idxOf_lt hc hmem
    | tail _ h ih =>
      obtain ⟨hop, hmem, rfl, rfl⟩ := h
      exact ih.trans (ho.idxOf_lt hc hmem)
  exact fun h => lt_irrefl _ (hlt _ _ h)

end Order

variable {d : Definition} {queueSize : Nat} {plan : Plan}

theorem WellFormed.problem?_eq_none (h : WellFormed d) :
    problem? d = none ∧ enabledProblem? [] [] (enabledHops d) = none :=
  ⟨Option.or_eq_none_iff.mpr ⟨(stepProblem?_iff _).mpr ⟨h.named, h.distinct, h.copies⟩,
    hopProblem?_eq_none_iff.mpr h.hops⟩, (enabledProblem?_iff _).mpr ⟨h.single, h.errorSources⟩⟩

theorem WellFormed.exists_plan (h : WellFormed d) (queueSize : Nat) :
    ∃ plan, ofDefinition d queueSize = .ok plan := by
  obtain ⟨hproblem, henabled⟩ := h.problem?_eq_none
  obtain ⟨steps, hsteps⟩ :=
    (checked_of_problem? hproblem henabled).linked.ordered_iff.mpr h.acyclic
  refine ⟨wire steps (enabledHops d) queueSize, ?_⟩
  rw [ofDefinition, hproblem, henabled, hsteps]
  rfl

theorem wellFormed_of_ofDefinition (h : ofDefinition d queueSize = .ok plan) : WellFormed d := by
  have hnone : (problem? d).or (enabledProblem? [] [] (enabledHops d)) = none := by
    unfold ofDefinition at h
    split at h
    · cases h
    · assumption
  obtain ⟨hproblem, henabled⟩ := Option.or_eq_none_iff.mp hnone
  obtain ⟨hsteps, hhops⟩ := Option.or_eq_none_iff.mp hproblem
  obtain ⟨hnamed, hdistinct, hcopies⟩ := (stepProblem?_iff _).mp hsteps
  obtain ⟨hsingle, herror⟩ := (enabledProblem?_iff _).mp henabled
  obtain ⟨steps, -, hc, ho, -⟩ := ofDefinition_ok h
  exact ⟨hnamed, hdistinct, hcopies, hopProblem?_eq_none_iff.mp hhops, hsingle, herror,
    ho.acyclic hc⟩

/-- The steps of a plan: those that are used, each once, and every enabled hop goes from
an earlier one to a later one. -/
structure Arranged (d : Definition) (steps : List StepDefinition) : Prop where
  perm : steps.Perm (usedSteps d)
  forward : ∀ h ∈ enabledHops d,
    (steps.map (·.name)).idxOf h.source < (steps.map (·.name)).idxOf h.target ∧
      (steps.map (·.name)).idxOf h.target < steps.length

theorem definitions_wire (steps : List StepDefinition) (hops : List Hop) (queueSize : Nat) :
    (wire steps hops queueSize).steps.map (·.definition) = steps := by
  simp [wire, Function.comp_def, stepOf]

/-- A plan is made of the definitions that are well formed and of no others, and its steps
are in an order in which every enabled hop goes forward. -/
theorem ofDefinition_iff (d : Definition) (queueSize : Nat) :
    ((∃ plan, ofDefinition d queueSize = .ok plan) ↔ WellFormed d) ∧
      ∀ plan, ofDefinition d queueSize = .ok plan →
        Arranged d (plan.steps.map (·.definition)) := by
  refine ⟨⟨fun ⟨_, h⟩ => wellFormed_of_ofDefinition h, fun h => h.exists_plan queueSize⟩, ?_⟩
  intro plan h
  obtain ⟨steps, hperm, hc, ho, rfl⟩ := ofDefinition_ok h
  rw [definitions_wire]
  refine ⟨hperm, fun hop hmem => ⟨ho.idxOf_lt hc hmem, ?_⟩⟩
  have hlt := List.idxOf_lt_length_of_mem (hc.target hop hmem)
  rwa [List.length_map] at hlt

/-- There are addresses for what is kept of the copies of each step that is used, and for the
rows of each row set; without enabled hops there is none. -/
structure Storable (d : Definition) (queueSize : Nat) : Prop where
  copies : ∀ s ∈ usedSteps d, s.copies.toNat * copyBytes ≤ storageLimit
  rows : enabledHops d ≠ [] → max queueSize 1 * RowSet.rowBytes ≤ storageLimit

theorem isStorable_iff {steps : List StepDefinition} (hperm : steps.Perm (usedSteps d)) :
    isStorable steps (enabledHops d) queueSize = true ↔ Storable d queueSize := by
  have hiff : isStorable steps (enabledHops d) queueSize = true ↔
      (∀ s ∈ usedSteps d, s.copies.toNat * copyBytes ≤ storageLimit) ∧
        (enabledHops d ≠ [] → max queueSize 1 * RowSet.rowBytes ≤ storageLimit) := by
    simp only [isStorable, hasStorableCopies, RowSet.isStorable, Bool.and_eq_true,
      List.all_eq_true, hperm.mem_iff, Bool.or_eq_true, List.isEmpty_iff, decide_eq_true_eq]
    exact and_congr_right fun _ => Decidable.or_iff_not_imp_left
  rw [hiff]
  exact ⟨fun ⟨hcopies, hrows⟩ => ⟨hcopies, hrows⟩, fun h => ⟨h.copies, h.rows⟩⟩

/-- The storage of a plan is asked for once the definition has been found in order. -/
theorem overflows_iff : overflows d queueSize = true ↔ WellFormed d ∧ ¬ Storable d queueSize := by
  constructor
  · intro h
    unfold overflows at h
    split at h
    · cases h
    · next hproblem =>
      split at h
      · cases h
      · next steps hsteps =>
        have hplan : ofDefinition d queueSize = .ok (wire steps (enabledHops d) queueSize) := by
          rw [ofDefinition, hproblem, hsteps]
        obtain ⟨hproblem, henabled⟩ := Option.or_eq_none_iff.mp hproblem
        have hperm := (orderedSteps_ok (checked_of_problem? hproblem henabled).linked hsteps).1
        rw [Bool.not_eq_true', ← Bool.not_eq_true, isStorable_iff hperm] at h
        exact ⟨wellFormed_of_ofDefinition hplan, h⟩
  · rintro ⟨hwf, hstorable⟩
    obtain ⟨hproblem, henabled⟩ := hwf.problem?_eq_none
    have hlinked := (checked_of_problem? hproblem henabled).linked
    obtain ⟨steps, hsteps⟩ := hlinked.ordered_iff.mpr hwf.acyclic
    rw [← isStorable_iff (orderedSteps_ok hlinked hsteps).1, Bool.not_eq_true] at hstorable
    simp [overflows, hproblem, henabled, hsteps, hstorable]

theorem build_eq_returned_iff : build d queueSize = .returned (.ok plan) ↔
    ofDefinition d queueSize = .ok plan ∧ overflows d queueSize = false := by
  cases hover : overflows d queueSize with
  | true => simp [build, hover, Ending.overflow]
  | false =>
    cases h : ofDefinition d queueSize <;> simp [build, hover, h, Except.mapError]

theorem build_crashes_iff :
    (∃ text, build d queueSize = .crashed text) ↔ overflows d queueSize = true := by
  cases hover : overflows d queueSize <;> simp [build, hover, Ending.overflow]

/-- A build comes to a plan. -/
theorem exists_build_iff : (∃ plan, build d queueSize = .returned (.ok plan)) ↔
    WellFormed d ∧ Storable d queueSize := by
  have hfalse : overflows d queueSize = false ↔ (WellFormed d → Storable d queueSize) := by
    rw [← not_and_not_right, ← overflows_iff, Bool.not_eq_true]
  simp only [build_eq_returned_iff, exists_and_right, (ofDefinition_iff d queueSize).1, hfalse]
  exact ⟨fun ⟨hwf, hstorable⟩ => ⟨hwf, hstorable hwf⟩,
    fun ⟨hwf, hstorable⟩ => ⟨hwf, fun _ => hstorable⟩⟩

/-- A well-formed definition that there is storage for has a plan, and its steps are in an
order in which every enabled hop goes forward; with a well-formed one that is too large the
build crashes, and with every other one it fails. -/
theorem build_iff_wellFormed (d : Definition) (queueSize : Nat) :
    ((∃ plan, build d queueSize = .returned (.ok plan)) ↔
        WellFormed d ∧ Storable d queueSize) ∧
      ((∃ text, build d queueSize = .crashed text) ↔ WellFormed d ∧ ¬ Storable d queueSize) ∧
      ∀ plan, build d queueSize = .returned (.ok plan) →
        Arranged d (plan.steps.map (·.definition)) :=
  ⟨exists_build_iff, build_crashes_iff.trans overflows_iff,
    fun plan h => (ofDefinition_iff d queueSize).2 plan (build_eq_returned_iff.mp h).1⟩

def joined : Definition where
  name := "joined"
  steps := [{ name := "numbers", plugin := "Sequence" }, { name := "sink", plugin := "Dummy" }]
  hops := [{ source := "numbers", target := "sink" }]

theorem build_iff_wellFormed_joined :
    ∃ plan, build joined 100 = .returned (.ok plan) ∧ WellFormed joined ∧
      Arranged joined (plan.steps.map (·.definition)) := by
  obtain ⟨hplan, -, harranged⟩ := build_iff_wellFormed joined 100
  exact ⟨_, rfl, (hplan.mp ⟨_, rfl⟩).1, harranged _ rfl⟩

/-- A well-formed definition without a plan: its row set is to have room for more rows than
there are addresses. -/
theorem crashed_joined : WellFormed joined ∧
    ¬ ∃ plan, build joined 18446744073709551615 = .returned (.ok plan) := by
  have hover : overflows joined 18446744073709551615 = true := rfl
  refine ⟨(overflows_iff.mp hover).1, ?_⟩
  rintro ⟨plan, h⟩
  cases h

end Plan
end RowFlow
