import Mathlib.Data.List.GetD
import RowFlow.Proofs.Plan.Check
import RowFlow.Proofs.Plan.Depth

/-
What the order of steps comes to, for steps of different names and any hops between them.  Numbers
are exchanged for names: a hop between two steps is a hop between their numbers, so the paths and
cycles among the numbers are those among the names.
-/
namespace RowFlow
namespace Plan

open Relation

/-- One of the hops leads from the one step to the other. -/
def Joins (hops : List Hop) (a b : String) : Prop := ∃ h ∈ hops, h.source = a ∧ h.target = b

instance (steps : List StepDefinition) (hops : List Hop) : Decidable (Linked steps hops) :=
  decidable_of_iff ((steps.map (·.name)).Nodup ∧ (∀ h ∈ hops, h.source ∈ steps.map (·.name)) ∧
      ∀ h ∈ hops, h.target ∈ steps.map (·.name))
    ⟨fun h => ⟨h.1, h.2.1, h.2.2⟩, fun h => ⟨h.names, h.source, h.target⟩⟩

def numberOf (steps : List StepDefinition) (name : String) : Nat :=
  (steps.map (·.name)).idxOf name

def nameOf (steps : List StepDefinition) (i : Nat) : String := (steps.map (·.name)).getD i ""

def pairsOf (steps : List StepDefinition) (hops : List Hop) : List (Nat × Nat) :=
  hops.map fun h => (numberOf steps h.source, numberOf steps h.target)

/-- Every step once, by the length of the longest path that leads to it, and all hops forward. -/
structure ByDepth (steps : List StepDefinition) (hops : List Hop)
    (ordered : List StepDefinition) : Prop where
  perm : ordered.Perm steps
  depth : ∃ depth : String → Nat, (∀ s ∈ steps, IsDepth (Joins hops) s.name (depth s.name)) ∧
    ordered.Pairwise fun s t => depth s.name ≤ depth t.name
  forward : ∀ h ∈ hops, numberOf ordered h.source < numberOf ordered h.target

/-- What ordering the steps comes to. -/
structure Sorts (steps : List StepDefinition) (hops : List Hop) : Prop where
  /-- After as many turns as there are steps none is ready any more. -/
  ends : (Ordering.run steps.length (pairsOf steps hops)).ready = []
  /-- No count of hops goes below zero on the way. -/
  counts : ∀ k, Ordering.turns? (pairsOf steps hops) k (.start steps.length (pairsOf steps hops)) =
    some (.turns (pairsOf steps hops) k (.start steps.length (pairsOf steps hops)))
  sorted : ∀ ordered, orderedSteps steps hops = .ok ordered → ByDepth steps hops ordered
  found : (∃ ordered, orderedSteps steps hops = .ok ordered) ↔
    ∀ name, ¬ TransGen (Joins hops) name name
  told : ∀ p, orderedSteps steps hops = .error p → ∃ names, p = .cycle names ∧
    names.Sublist (steps.map (·.name)) ∧
    ∀ name, name ∈ names ↔ BehindCycle (Joins hops) name

section Places

variable {steps ordered : List StepDefinition} {hops : List Hop} {name : String} {i j k : Nat}

theorem orderedSteps_eq (steps : List StepDefinition) (hops : List Hop) :
    orderedSteps steps hops =
      match order steps.length (pairsOf steps hops) with
      | .ok places => .ok (places.filterMap fun i => steps[i]?)
      | .error stuck => .error (.cycle (stuck.filterMap fun i => (steps.map (·.name))[i]?)) := rfl

theorem nameOf_numberOf (h : name ∈ steps.map (·.name)) :
    nameOf steps (numberOf steps name) = name := by
  have hlt := List.idxOf_lt_length_of_mem h
  exact (List.getD_eq_getElem _ "" hlt).trans (List.getElem_idxOf hlt)

theorem nameOf_eq (hi : i < steps.length) : nameOf steps i = steps[i].name := by
  rw [nameOf, List.getD_eq_getElem _ _ (by rwa [List.length_map]), List.getElem_map]

theorem numberOf_getElem (hnames : (steps.map (·.name)).Nodup) (hi : i < steps.length) :
    numberOf steps steps[i].name = i := by
  have hget := hnames.idxOf_getElem i (by rwa [List.length_map])
  rwa [List.getElem_map] at hget

theorem numberOf_lt (h : name ∈ steps.map (·.name)) : numberOf steps name < steps.length := by
  have hlt := List.idxOf_lt_length_of_mem h
  rwa [List.length_map] at hlt

namespace Linked

variable (hl : Linked steps hops)

include hl

theorem pairs_lt : ∀ h ∈ pairsOf steps hops, h.1 < steps.length ∧ h.2 < steps.length := by
  intro h hmem
  obtain ⟨hop, hhop, rfl⟩ := List.mem_map.mp hmem
  exact ⟨numberOf_lt (hl.source hop hhop), numberOf_lt (hl.target hop hhop)⟩

theorem numberOf_nameOf (hi : i < steps.length) : numberOf steps (nameOf steps i) = i := by
  rw [nameOf_eq hi, numberOf_getElem hl.names hi]

theorem joins_of_precedes (a b : Nat) (h : Precedes (pairsOf steps hops) a b) :
    Joins hops (nameOf steps a) (nameOf steps b) := by
  obtain ⟨hop, hhop, heq⟩ := List.mem_map.mp h
  cases heq
  exact ⟨hop, hhop, (nameOf_numberOf (hl.source hop hhop)).symm,
    (nameOf_numberOf (hl.target hop hhop)).symm⟩

omit hl in
theorem precedes_of_joins (a b : String) (h : Joins hops a b) :
    Precedes (pairsOf steps hops) (numberOf steps a) (numberOf steps b) := by
  obtain ⟨hop, hhop, rfl, rfl⟩ := h
  exact List.mem_map.mpr ⟨hop, hhop, rfl⟩

/-- A step that is behind a cycle is one of the steps. -/
theorem mem_of_behindCycle (h : BehindCycle (Joins hops) name) : name ∈ steps.map (·.name) := by
  obtain ⟨c, hc, hcn⟩ := h
  have hin : ∀ {a}, TransGen (Joins hops) a name → name ∈ steps.map (·.name) := by
    intro a ha
    obtain ⟨_, -, hop, hhop, -, rfl⟩ := TransGen.tail'_iff.mp ha
    exact hl.target hop hhop
  rcases reflTransGen_iff_eq_or_transGen.mp hcn with rfl | hpath
  · exact hin hc
  · exact hin hpath

theorem behindCycle_iff (hi : i < steps.length) :
    BehindCycle (Precedes (pairsOf steps hops)) i ↔ BehindCycle (Joins hops) (nameOf steps i) := by
  constructor
  · exact BehindCycle.lift (nameOf steps) hl.joins_of_precedes
  · intro h
    have hnumber : BehindCycle (Precedes (pairsOf steps hops)) (numberOf steps (nameOf steps i)) :=
      h.lift (numberOf steps) precedes_of_joins
    rwa [hl.numberOf_nameOf hi] at hnumber

theorem acyclic_iff : (∀ i, ¬ TransGen (Precedes (pairsOf steps hops)) i i) ↔
    ∀ name, ¬ TransGen (Joins hops) name name := by
  constructor
  · exact fun h name hcycle => h _ (hcycle.lift (numberOf steps) precedes_of_joins)
  · exact fun h i hcycle => h _ (hcycle.lift (nameOf steps) hl.joins_of_precedes)

theorem noDeeper (hi : i < steps.length) (h : NoDeeper (Precedes (pairsOf steps hops)) i j) :
    NoDeeper (Joins hops) (nameOf steps i) (nameOf steps j) := by
  intro k hk
  have hnumber : PathTo (Precedes (pairsOf steps hops)) k (numberOf steps (nameOf steps i)) :=
    hk.lift (numberOf steps) precedes_of_joins
  rw [hl.numberOf_nameOf hi] at hnumber
  exact (h k hnumber).lift (nameOf steps) hl.joins_of_precedes

end Linked

theorem nameOf_of_getElem? {s : StepDefinition} (hs : steps[i]? = some s) :
    i < steps.length ∧ nameOf steps i = s.name := by
  obtain ⟨hlt, rfl⟩ := List.getElem?_eq_some_iff.mp hs
  exact ⟨hlt, nameOf_eq hlt⟩

namespace Linked

variable (hl : Linked steps hops)

include hl

theorem target_lt : ∀ h ∈ pairsOf steps hops, h.2 < steps.length := fun h hmem =>
  (hl.pairs_lt h hmem).2

/-- The steps in their order have a longest path each, and it never gets shorter. -/
theorem depth_of_ordered (h : orderedSteps steps hops = .ok ordered) :
    (∀ s ∈ steps, IsDepth (Joins hops) s.name (depthOf (Joins hops) s.name)) ∧
      ordered.Pairwise fun s t => depthOf (Joins hops) s.name ≤ depthOf (Joins hops) t.name := by
  rw [orderedSteps_eq] at h
  split at h
  · next places hplaces =>
    cases h
    obtain ⟨hperm, hforward⟩ := order_ok hl.target_lt hplaces
    have hdepth : ∀ s ∈ steps, IsDepth (Joins hops) s.name (depthOf (Joins hops) s.name) := by
      intro s hs
      have hplace : numberOf steps s.name ∈ places := by
        rw [hperm.mem_iff, List.mem_range]
        exact numberOf_lt (List.mem_map_of_mem hs)
      exact isDepth_depthOf fun k hk =>
        hforward.le_idxOf hplace (hk.lift (numberOf steps) precedes_of_joins)
    refine ⟨hdepth, List.pairwise_filterMap.mpr ((noDeeper_of_order hl.target_lt hplaces).imp ?_)⟩
    intro i j hij s hs t ht
    obtain ⟨hi, hnamei⟩ := nameOf_of_getElem? hs
    obtain ⟨-, hnamej⟩ := nameOf_of_getElem? ht
    have hnames := hl.noDeeper hi hij
    rw [hnamei, hnamej] at hnames
    exact hnames.le (hdepth s (List.mem_of_getElem? hs)) (hdepth t (List.mem_of_getElem? ht))
  · cases h

theorem byDepth_of_ordered (h : orderedSteps steps hops = .ok ordered) :
    ByDepth steps hops ordered := by
  obtain ⟨hdepth, hordered⟩ := hl.depth_of_ordered h
  obtain ⟨hperm, -⟩ := orderedSteps_ok hl h
  refine ⟨hperm, ⟨_, hdepth, hordered⟩, fun hop hhop => ?_⟩
  have hmono : (ordered.map (·.name)).Pairwise fun a b =>
      depthOf (Joins hops) a ≤ depthOf (Joins hops) b := List.pairwise_map.mpr hordered
  have hrefl : Std.Refl fun a b => depthOf (Joins hops) a ≤ depthOf (Joins hops) b :=
    ⟨fun _ => Nat.le_refl _⟩
  have hnames := fun name => (hperm.map (·.name)).mem_iff (a := name)
  have hsource := List.idxOf_lt_length_of_mem ((hnames _).mpr (hl.source hop hhop))
  have htarget := List.idxOf_lt_length_of_mem ((hnames _).mpr (hl.target hop hhop))
  by_contra hnot
  have hle := hmono.rel_get_of_le (a := ⟨_, htarget⟩) (b := ⟨_, hsource⟩) (Nat.le_of_not_lt hnot)
  rw [List.get_eq_getElem, List.get_eq_getElem, List.getElem_idxOf, List.getElem_idxOf] at hle
  obtain ⟨s, hs, hsname⟩ := List.mem_map.mp (hl.source hop hhop)
  obtain ⟨t, ht, htname⟩ := List.mem_map.mp (hl.target hop hhop)
  have hlt := (hdepth s hs).lt_of_joins (hdepth t ht) ⟨hop, hhop, hsname.symm, htname.symm⟩
  rw [hsname, htname] at hlt
  exact Nat.not_le_of_lt hlt hle

/-- The steps that are told are those behind cycles, in the order in which they are defined. -/
theorem told_of_ordered {p : Problem} (h : orderedSteps steps hops = .error p) :
    ∃ names, p = .cycle names ∧ names.Sublist (steps.map (·.name)) ∧
      ∀ name, name ∈ names ↔ BehindCycle (Joins hops) name := by
  rw [orderedSteps_eq] at h
  split at h
  · cases h
  · next stuck hstuck =>
    cases h
    obtain rfl := eq_stuck_of_order hstuck
    have hstuck_iff := fun i => Ordering.mem_stuck_run_iff (i := i) hl.pairs_lt
    refine ⟨_, rfl, ?_, fun name => ?_⟩
    · have hsub := (Ordering.stuck_run_sublist hl.target_lt).filterMap
        fun i => (steps.map (·.name))[i]?
      have hall := filterMap_getElem?_range (steps.map (·.name))
      rw [List.length_map] at hall
      rwa [hall] at hsub
    · rw [List.mem_filterMap]
      constructor
      · rintro ⟨i, hi, hname⟩
        obtain ⟨hlt, hbehind⟩ := (hstuck_iff i).mp hi
        have hbehind' := (hl.behindCycle_iff hlt).mp hbehind
        rwa [nameOf, List.getD_eq_getElem?_getD, hname] at hbehind'
      · intro hbehind
        have hmem := hl.mem_of_behindCycle hbehind
        have hlt := numberOf_lt hmem
        refine ⟨numberOf steps name, (hstuck_iff _).mpr ⟨hlt, ?_⟩, List.getElem?_idxOf hmem⟩
        rwa [hl.behindCycle_iff hlt, nameOf_numberOf hmem]

theorem ordered_iff : (∃ ordered, orderedSteps steps hops = .ok ordered) ↔
    ∀ name, ¬ TransGen (Joins hops) name name := by
  rw [← hl.acyclic_iff, ← exists_order_iff hl.pairs_lt, orderedSteps_eq]
  constructor
  · rintro ⟨ordered, h⟩
    split at h
    · next places hplaces => exact ⟨places, hplaces⟩
    · cases h
  · rintro ⟨places, h⟩
    exact ⟨_, by rw [h]⟩

end Linked

/-- Steps of different names are ordered by depth, unless there is a cycle. -/
theorem sorts_of_linked (hl : Linked steps hops) : Sorts steps hops where
  ends := Ordering.ready_run hl.target_lt
  counts := (Ordering.invariant_start _ _).turns? hl.target_lt
  sorted _ h := hl.byDepth_of_ordered h
  found := hl.ordered_iff
  told _ h := hl.told_of_ordered h

end Places

/-- Two hops join `a` and `b`, and `b` and `c` are on a cycle that `d` is behind. -/
theorem sorts_of_linked_looped :
    let step := fun name => ({ name, plugin := "p" } : StepDefinition)
    let steps := [step "d", step "a", step "b", step "c"]
    let hops : List Hop := [⟨"a", "b", .normal, true⟩, ⟨"a", "b", .error, true⟩,
      ⟨"b", "c", .normal, true⟩, ⟨"c", "b", .normal, true⟩, ⟨"c", "d", .normal, true⟩]
    Linked steps hops ∧ Sorts steps hops ∧
      orderedSteps steps hops = .error (.cycle ["d", "b", "c"]) := by
  intro step steps hops
  have hl : Linked steps hops := by decide
  exact ⟨hl, sorts_of_linked hl, by decide⟩

end Plan
end RowFlow
