import Mathlib.Data.List.Nodup
import RowFlow.Plan.Basic
import RowFlow.Proofs.Plan.Order

/-
What a plan relies on.  If nothing is wrong with a definition, its used steps have
different names, its enabled hops join two different ones of them, no two hops join the
same steps and no step has two error hops; and the order of the steps has them all, with
every hop going forward.
-/
namespace RowFlow
namespace Plan

theorem stepProblem?_cons {seen : List String} {s : StepDefinition} {rest : List StepDefinition} :
    stepProblem? seen (s :: rest) = none ↔
      (s.name ≠ "" ∧ s.name ∉ seen ∧ 1 ≤ s.copies) ∧ stepProblem? (s.name :: seen) rest = none := by
  have hcopies : 1 ≤ s.copies ↔ s.copies ≠ 0 := by
    rw [UInt64.le_iff_toNat_le, Ne, ← UInt64.toNat_inj]
    exact Nat.one_le_iff_ne_zero
  rw [stepProblem?, hcopies]
  split
  · next h => simp [String.isEmpty_iff.mp h]
  · next hname =>
    split
    · next h => simp [h]
    · next hseen =>
      split
      · next h => simp [h]
      · next hzero => simp_all

theorem stepProblem?_eq_none_iff {seen : List String} {steps : List StepDefinition} :
    stepProblem? seen steps = none ↔
      (∀ s ∈ steps, s.name ≠ "" ∧ s.name ∉ seen ∧ 1 ≤ s.copies) ∧
        (steps.map (·.name)).Nodup := by
  induction steps generalizing seen with
  | nil => simp [stepProblem?]
  | cons s rest ih =>
    rw [stepProblem?_cons, ih, List.forall_mem_cons, List.map_cons, List.nodup_cons]
    grind

theorem hopProblem?_eq_none_iff {names : List String} {hops : List Hop} :
    hopProblem? names hops = none ↔
      ∀ h ∈ hops, h.source ∈ names ∧ h.target ∈ names ∧ h.source ≠ h.target := by
  induction hops with
  | nil => simp [hopProblem?]
  | cons h rest ih =>
    rw [hopProblem?, List.forall_mem_cons, ← ih]
    grind

def ends (h : Hop) : String × String := (h.source, h.target)

def errorSources (hops : List Hop) : List String :=
  (hops.filter fun h => h.kind = .error).map (·.source)

theorem errorSources_cons (h : Hop) (rest : List Hop) : errorSources (h :: rest) =
    if h.kind = .error then h.source :: errorSources rest else errorSources rest := by
  by_cases herror : h.kind = .error <;> simp [errorSources, herror]

theorem enabledProblem?_cons {pairs : List (String × String)} {sources : List String}
    {h : Hop} {rest : List Hop} :
    enabledProblem? pairs sources (h :: rest) = none ↔
      ends h ∉ pairs ∧ (h.kind = .error → h.source ∉ sources) ∧
        enabledProblem? (ends h :: pairs)
          (if h.kind = .error then h.source :: sources else sources) rest = none := by
  rw [enabledProblem?, ends]
  grind

theorem enabledProblem?_eq_none_iff {pairs : List (String × String)} {sources : List String}
    {hops : List Hop} :
    enabledProblem? pairs sources hops = none ↔
      ((∀ h ∈ hops, ends h ∉ pairs) ∧ (hops.map ends).Nodup) ∧
        (∀ source ∈ errorSources hops, source ∉ sources) ∧ (errorSources hops).Nodup := by
  induction hops generalizing pairs sources with
  | nil => simp [enabledProblem?, errorSources]
  | cons h rest ih =>
    rw [enabledProblem?_cons, ih, errorSources_cons, List.map_cons, List.nodup_cons,
      List.forall_mem_cons]
    have hnot : (∀ h' ∈ rest, ends h' ∉ ends h :: pairs) ↔
        ends h ∉ rest.map ends ∧ ∀ h' ∈ rest, ends h' ∉ pairs := by
      grind
    by_cases herror : h.kind = .error
    · have hsource : (∀ source ∈ errorSources rest, source ∉ h.source :: sources) ↔
          h.source ∉ errorSources rest ∧ ∀ source ∈ errorSources rest, source ∉ sources := by
        grind
      rw [hnot, if_pos herror, if_pos herror, hsource, List.forall_mem_cons, List.nodup_cons]
      tauto
    · rw [hnot, if_neg herror, if_neg herror]
      tauto

structure Linked (steps : List StepDefinition) (hops : List Hop) : Prop where
  names : (steps.map (·.name)).Nodup
  source : ∀ h ∈ hops, h.source ∈ steps.map (·.name)
  target : ∀ h ∈ hops, h.target ∈ steps.map (·.name)

structure Checked (steps : List StepDefinition) (hops : List Hop) : Prop where
  names : (steps.map (·.name)).Nodup
  copies : ∀ s ∈ steps, 0 < s.copies.toNat
  source : ∀ h ∈ hops, h.source ∈ steps.map (·.name)
  target : ∀ h ∈ hops, h.target ∈ steps.map (·.name)
  apart : ∀ h ∈ hops, h.source ≠ h.target
  ends : (hops.map ends).Nodup
  errorSources : (errorSources hops).Nodup

theorem Checked.linked {steps : List StepDefinition} {hops : List Hop} (h : Checked steps hops) :
    Linked steps hops :=
  ⟨h.names, h.source, h.target⟩

/-- A step that an enabled hop leaves or enters is used. -/
theorem checked_of_problem? {d : Definition} (h : problem? d = none)
    (henabled : enabledProblem? [] [] (enabledHops d) = none) :
    Checked (usedSteps d) (enabledHops d) := by
  obtain ⟨hsteps, hhops⟩ := Option.or_eq_none_iff.mp h
  obtain ⟨hstep, hnames⟩ := stepProblem?_eq_none_iff.mp hsteps
  have hhop := hopProblem?_eq_none_iff.mp hhops
  obtain ⟨⟨-, hends⟩, -, herror⟩ := enabledProblem?_eq_none_iff.mp henabled
  have hused : ∀ hop ∈ enabledHops d, ∀ name ∈ d.steps.map (·.name),
      hop.source = name ∨ hop.target = name → name ∈ (usedSteps d).map (·.name) := by
    intro hop hmem name hname hend
    obtain ⟨s, hs, rfl⟩ := List.mem_map.mp hname
    refine List.mem_map_of_mem (List.mem_filter.mpr ⟨hs, ?_⟩)
    obtain ⟨hin, hon⟩ := List.mem_filter.mp hmem
    by_contra hnot
    simp only [isUnused, Bool.not_eq_true', Bool.not_eq_false, Bool.and_eq_true, List.all_eq_true,
      Bool.or_eq_true, bne_iff_ne] at hnot
    rcases hend with hsource | htarget
    · rcases hnot.1.2 hop hin with hne | hoff
      · exact hne hsource
      · rw [hon] at hoff
        cases hoff
    · exact hnot.2 hop hin htarget
  constructor
  · exact hnames.sublist (List.filter_sublist.map _)
  · exact fun s hs => UInt64.le_iff_toNat_le.mp (hstep s (List.mem_filter.mp hs).1).2.2
  · intro hop hmem
    exact hused hop hmem _ (hhop hop (List.mem_filter.mp hmem).1).1 (.inl rfl)
  · intro hop hmem
    exact hused hop hmem _ (hhop hop (List.mem_filter.mp hmem).1).2.1 (.inr rfl)
  · intro hop hmem
    exact (hhop hop (List.mem_filter.mp hmem).1).2.2
  · exact hends
  · exact herror

def InOrder (steps : List StepDefinition) (hops : List Hop) : Prop :=
  steps.Pairwise fun s t => ∀ h ∈ hops, h.source = t.name → h.target ≠ s.name

theorem Forward.pairwise {hops : List (Nat × Nat)} {places : List Nat} (h : Forward hops places)
    (hnodup : places.Nodup) : places.Pairwise fun i j => (j, i) ∉ hops := by
  refine List.pairwise_iff_getElem.mpr fun i j hi hj hij hmem => ?_
  have hsplit : places = places.take i ++ places[i] :: places.drop (i + 1) := by simp
  obtain ⟨k, hk, heq⟩ := List.mem_take_iff_getElem.mp (h _ _ _ hsplit _ hmem)
  have hkj := (hnodup.getElem_inj_iff).mp heq
  omega

theorem filterMap_getElem?_range {α : Type} (xs : List α) :
    ((List.range xs.length).filterMap fun i => xs[i]?) = xs := by
  induction xs with
  | nil => rfl
  | cons x xs ih =>
    rw [List.length_cons, List.range_succ_eq_map, List.filterMap_cons, List.filterMap_map]
    simpa using ih

/-- The steps at places that are all the places are all the steps. -/
theorem perm_filterMap_getElem? {α : Type} {xs : List α} {places : List Nat}
    (h : places.Perm (List.range xs.length)) : (places.filterMap fun i => xs[i]?).Perm xs := by
  have hperm := h.filterMap fun i => xs[i]?
  rwa [filterMap_getElem?_range] at hperm

theorem orderedSteps_ok {steps ordered : List StepDefinition} {hops : List Hop}
    (hc : Linked steps hops) (h : orderedSteps steps hops = .ok ordered) :
    ordered.Perm steps ∧ InOrder ordered hops := by
  unfold orderedSteps at h
  simp only at h
  split at h
  · next places hplaces =>
    cases h
    have hin : ∀ p ∈ hops.map fun h => ((steps.map (·.name)).idxOf h.source,
        (steps.map (·.name)).idxOf h.target), p.2 < steps.length := by
      intro p hp
      obtain ⟨hop, hmem, rfl⟩ := List.mem_map.mp hp
      have hlt := List.idxOf_lt_length_of_mem (hc.target hop hmem)
      rwa [List.length_map] at hlt
    obtain ⟨hperm, hforward⟩ := order_ok hin hplaces
    refine ⟨perm_filterMap_getElem? hperm, List.pairwise_filterMap.mpr ?_⟩
    have hnodup : places.Nodup := hperm.nodup_iff.mpr List.nodup_range
    refine (hforward.pairwise hnodup).imp ?_
    intro i j hnot s hs t ht hop hmem hsource htarget
    have hidx : ∀ {k : Nat} {u : StepDefinition}, steps[k]? = some u →
        (steps.map (·.name)).idxOf u.name = k := by
      intro k u hu
      obtain ⟨hlt, rfl⟩ := List.getElem?_eq_some_iff.mp hu
      have hget := hc.names.idxOf_getElem k (by simpa using hlt)
      rwa [List.getElem_map] at hget
    refine hnot (List.mem_map.mpr ⟨hop, hmem, ?_⟩)
    rw [hsource, htarget, hidx hs, hidx ht]
  · cases h

/-- A plan is wired of steps that are in order. -/
theorem ofDefinition_ok {d : Definition} {queueSize : Nat} {plan : Plan}
    (h : ofDefinition d queueSize = .ok plan) :
    ∃ steps, steps.Perm (usedSteps d) ∧ Checked steps (enabledHops d) ∧
      InOrder steps (enabledHops d) ∧ plan = wire steps (enabledHops d) queueSize := by
  unfold ofDefinition at h
  split at h
  · cases h
  · next hproblem =>
    obtain ⟨hproblem, henabled⟩ := Option.or_eq_none_iff.mp hproblem
    split at h
    · cases h
    · next steps hsteps =>
      cases h
      have hc := checked_of_problem? hproblem henabled
      obtain ⟨hperm, hforward⟩ := orderedSteps_ok hc.linked hsteps
      have hnames := hperm.map (·.name)
      refine ⟨steps, hperm, ?_, hforward, rfl⟩
      exact {
        names := hnames.nodup_iff.mpr hc.names
        copies := fun s hs => hc.copies s (hperm.mem_iff.mp hs)
        source := fun hop hmem => hnames.mem_iff.mpr (hc.source hop hmem)
        target := fun hop hmem => hnames.mem_iff.mpr (hc.target hop hmem)
        apart := hc.apart
        ends := hc.ends
        errorSources := hc.errorSources }

end Plan
end RowFlow
