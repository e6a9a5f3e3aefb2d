import Mathlib.Data.List.Forall2
import RowFlow.Proofs.Plan.WellFormed
import RowFlow.Proofs.Plan.Wiring
import RowFlow.Proofs.Run.Kept

/-
Runs as they are made: every copy is fresh and wired as the plan says, and an agreement
that fits the copies of the run holds from the start.
-/
namespace RowFlow

/-- Each element of a list comes of the one at its place in another list. -/
theorem forall₂_of_mapM {α ε : Type} {β : Type 1} {f : α → Except ε β} {xs : List α} {ys : List β}
    (h : xs.mapM f = .ok ys) : List.Forall₂ (fun x y => f x = .ok y) xs ys := by
  induction xs generalizing ys with
  | nil =>
    cases h
    exact .nil
  | cons x xs ih =>
    rw [List.mapM_cons] at h
    cases hx : f x with
    | error e =>
      rw [hx] at h
      cases h
    | ok y =>
      rw [hx] at h
      cases hxs : xs.mapM f with
      | error e =>
        simp only [bind, Except.bind, hxs] at h
        cases h
      | ok ys' =>
        simp only [bind, Except.bind, hxs] at h
        cases h
        exact .cons hx (ih hxs)

namespace Run

structure IsMade (registry : Registry) (place : Plan.Place) (c : Copy) : Prop where
  operator : registry.create place.1.definition.plugin (infoOf place.1 place.2.1) = .ok c.op
  own : c.own = Local.fresh (infoOf place.1 place.2.1) place.2.2.inputs place.2.2.outputs
    place.2.2.errorOutput
  kind : c.kind = .created

theorem isMade_of_makeCopy {registry : Registry} {s : Plan.Step} {copy : Nat}
    {w : Plan.CopyWiring} {c : Copy} (h : makeCopy registry s copy w = .ok c) :
    IsMade registry (s, copy, w) c := by
  unfold makeCopy at h
  split at h
  · cases h
  · next op hop =>
    split at h
    · cases h
    · cases h
      exact ⟨hop, rfl, rfl⟩

structure Made (d : Definition) (registry : Registry) (config : Config) (plan : Plan) (r : Run) :
    Prop where
  valid : config.problem? = none
  planned : Plan.ofDefinition d config.queueSize.toNat = .ok plan
  copies : List.Forall₂ (IsMade registry) plan.allPlaces r.net.copies
  shared : r.net.shared = { rowSets := plan.rowSets, control := controlOf config }
  phase : r.phase = .created
  stops : r.stops = []

theorem made_of_make {d : Definition} {registry : Registry} {config : Config} {r : Run}
    (h : make d registry config = .ok r) : ∃ plan, Made d registry config plan r := by
  unfold make at h
  split at h
  · cases h
  · next hconfig =>
    split at h
    · cases h
    · next plan hplan =>
      split at h
      · cases h
      · next copies hcopies =>
        cases h
        refine ⟨plan, hconfig, hplan, ?_, rfl, rfl, rfl⟩
        refine (forall₂_of_mapM hcopies).imp ?_
        rintro ⟨s, copy, w⟩ c hc
        exact isMade_of_makeCopy hc

section Create

variable {d : Definition} {registry : Registry} {config : Config} {r : Run}

theorem make_of_create (h : create d registry config = .returned (.ok r)) :
    make d registry config = .ok r := by
  unfold create at h
  split at h
  · cases h
  · exact Ending.returned.inj h

/-- Valid settings and a well-formed definition that is too large leave no run and no fault. -/
theorem create_crashes_iff : (∃ text, create d registry config = .crashed text) ↔
    config.problem? = none ∧ Plan.WellFormed d ∧ ¬ Plan.Storable d config.queueSize.toNat := by
  rw [← Plan.overflows_iff, create]
  cases config.problem? <;> cases Plan.overflows d config.queueSize.toNat <;> simp [Ending.overflow]

end Create

namespace Made

variable {d : Definition} {registry : Registry} {config : Config} {plan : Plan} {r : Run}

theorem isMade (h : Made d registry config plan r) {c : Copy} (hc : c ∈ r.net.copies) :
    ∃ place, IsMade registry place c := by
  obtain ⟨i, hi⟩ := List.mem_iff_getElem?.mp hc
  obtain ⟨hlt, hget⟩ := List.getElem?_eq_some_iff.mp hi
  have hlt' : i < plan.allPlaces.length := by
    rw [h.copies.length_eq]
    exact hlt
  have hmade := h.copies.get hlt' hlt
  simp only [List.get_eq_getElem, hget] at hmade
  exact ⟨_, hmade⟩

theorem own_fresh (h : Made d registry config plan r) {c : Copy} (hc : c ∈ r.net.copies) :
    ∃ info inputs outputs errorOutput, c.own = .fresh info inputs outputs errorOutput := by
  obtain ⟨place, hplace⟩ := h.isMade hc
  exact ⟨_, _, _, _, hplace.own⟩

theorem staged (h : Made d registry config plan r) : r.Staged :=
  .of_created h.phase h.stops fun _ hc => (h.isMade hc).choose_spec.kind

/-- An agreement that fits the copies holds from the start. -/
theorem kept (h : Made d registry config plan r) {A : Agreement} (hw : A.world r.net.shared)
    (hc : ∀ c ∈ r.net.copies, ∃ hop : A.fits c.op,
      (A.contract c.op hop).made ⟨[], c.own, r.net.shared⟩) :
    ({ run := r } : Record).Kept A where
  staged := h.staged
  world := hw
  copies place c hplace := by
    have hmem := List.mem_of_getElem? hplace
    have hkind := (h.isMade hmem).choose_spec.kind
    obtain ⟨hop, hmade⟩ := hc c hmem
    have hwork : r.phase.atWork = false := by
      rw [h.phase]
      rfl
    obtain ⟨op, own, task⟩ := c
    cases task with
    | created => exact ⟨hop, hwork, hmade⟩
    | _ => cases hkind
  absent _ _ := rfl

end Made

/-- A step that counts to two, and one that takes its numbers. -/
def counting : Definition where
  name := "counting"
  steps := [
    { name := "numbers", plugin := Registry.sequenceKey, params := .ofList [("count", "2")] },
    { name := "sink", plugin := Registry.passThroughKey }]
  hops := [{ source := "numbers", target := "sink" }]

def countingRun : Run :=
  ((make counting .builtins {}).toOption).getD
    { name := "", config := {}, net := { copies := [] } }

theorem make_counting : make counting .builtins {} = .ok countingRun := rfl

theorem copies_counting : countingRun.net.copies.map (fun c => (c.op, c.own.inputs)) =
    [(Sequence.operator ⟨"id", 1, 2⟩, []), (Operator.passThrough, [0])] := rfl

theorem forall_counting {P : Operator → List Nat → Prop}
    (hnumbers : P (Sequence.operator ⟨"id", 1, 2⟩) []) (hsink : P Operator.passThrough [0]) :
    ∀ c ∈ countingRun.net.copies, P c.op c.own.inputs := by
  intro c hc
  have hmem : (c.op, c.own.inputs) ∈ countingRun.net.copies.map fun c => (c.op, c.own.inputs) :=
    List.mem_map_of_mem hc
  rw [copies_counting] at hmem
  rcases List.mem_cons.mp hmem with heq | hmem
  · obtain ⟨hop, hinputs⟩ := Prod.mk.inj heq
    rw [hop, hinputs]
    exact hnumbers
  · obtain ⟨hop, hinputs⟩ := Prod.mk.inj (List.mem_singleton.mp hmem)
    rw [hop, hinputs]
    exact hsink

def turns (n : Nat) : List Event := (List.replicate n [.copy 0, .copy 1]).flatten

def countingCourse : List Event :=
  .prepare :: (turns 9 ++ [.chief, .start] ++ turns 80 ++ [.finish])

theorem isOver_counting : (countingRun.after countingCourse).IsOver := .inl (by decide +kernel)

end Run
end RowFlow
