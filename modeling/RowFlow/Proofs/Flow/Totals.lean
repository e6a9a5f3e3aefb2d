import Mathlib.Algebra.BigOperators.Fin
import Mathlib.Algebra.BigOperators.Group.Finset.Piecewise
import RowFlow.Proofs.Flow.Hops
import RowFlow.Proofs.Program.Effects

/-
What the counters of a run add up to.  Each row that a copy has taken came along one of
the hops that lead to its step.  So at the end of a run a step has read what was sent
along these hops.
-/
namespace RowFlow

/-- What the source of a hop counts the rows with that it sends along the hop. -/
def HopKind.counter : HopKind → Counter
  | .normal => .written
  | .error => .rejected

namespace Run

def countAt (r : Run) (place : Nat) (k : Counter) : Nat :=
  ((r.net.copies[place]?).map (·.own.counts.get k)).getD 0

theorem countAt_of_getElem? {r : Run} {place : Nat} {c : Copy} {k : Counter}
    (h : r.net.copies[place]? = some c) : r.countAt place k = c.own.counts.get k := by
  rw [countAt, h]
  rfl

/-- The totals of a step are those of its copies. -/
theorem get_stepTotals (r : Run) (step : String) (k : Counter) :
    (r.result.stepTotals step).get k = ∑ place ∈ r.placesOf step, r.countAt place k := by
  have hfilter : ∀ cs : List Copy, ((cs.filter (·.own.info.name == step)).map
      (·.own.counts.get k)).sum =
        (cs.map fun c => if c.own.info.name = step then c.own.counts.get k else 0).sum := by
    intro cs
    induction cs with
    | nil => rfl
    | cons c rest ih =>
      by_cases hname : c.own.info.name = step
      · simp [hname, ih]
      · simp [hname, ih]
  calc (r.result.stepTotals step).get k
      = ((r.net.copies.filter (·.own.info.name == step)).map (·.own.counts.get k)).sum := by
        simp only [RunResult.stepTotals, result, RunResult.ofSteps, stepResults, Counts.get_sum,
          List.filter_map, List.map_map]
        rfl
    _ = ∑ i : Fin r.net.copies.length,
          if r.net.copies[i].own.info.name = step then r.net.copies[i].own.counts.get k else 0 := by
        rw [hfilter, ← Fin.sum_univ_fun_getElem]
        rfl
    _ = ∑ place ∈ Finset.range r.net.copies.length,
          if r.net.copies[place]?.map (·.own.info.name) = some step then r.countAt place k
          else 0 := by
        rw [Finset.sum_range]
        refine Finset.sum_congr rfl fun i _ => ?_
        have hget : r.net.copies[i.1]? = some r.net.copies[i] := List.getElem?_eq_getElem i.2
        simp only [hget, countAt_of_getElem? hget, Option.map_some, Option.some.injEq]
    _ = ∑ place ∈ r.placesOf step, r.countAt place k := (Finset.sum_filter _ _).symm

end Run

namespace Flow

open Run

section Along

variable {moves : List (Nat × Row)}

theorem along_cons (rowSets : List Nat) (x : Nat × Row) (moves : List (Nat × Row)) :
    along rowSets ((x :: moves : List (Nat × Row)) : Multiset (Nat × Row)) =
      (if x.1 ∈ rowSets then {x.2} else 0) + along rowSets moves := by
  rw [along_coe, along_coe]
  by_cases hx : x.1 ∈ rowSets
  · simp [hx]
  · simp [hx]

/-- Where each move has one hop the moves along the hops are all moves. -/
theorem sum_along {hs : Finset Hop} {f : Hop → List Nat}
    (h : ∀ x ∈ moves, ∃ g ∈ hs, ∀ k ∈ hs, x.1 ∈ f k ↔ k = g) :
    ∑ k ∈ hs, along (f k) moves = (moves.map (·.2) : List Row) := by
  induction moves with
  | nil => exact Finset.sum_eq_zero fun k _ => rfl
  | cons x rest ih =>
    obtain ⟨g, hg, honly⟩ := h x List.mem_cons_self
    have hone : ∑ k ∈ hs, (if x.1 ∈ f k then ({x.2} : Multiset Row) else 0) = {x.2} := by
      rw [Finset.sum_congr rfl fun k hk => if_congr (honly k hk) rfl rfl, Finset.sum_ite_eq']
      exact if_pos hg
    rw [Finset.sum_congr rfl fun k _ => along_cons (f k) x rest, Finset.sum_add_distrib, hone,
      ih fun y hy => h y (List.mem_cons_of_mem x hy), List.map_cons, Multiset.singleton_add]
    rfl

end Along

/-- Each row that a copy has taken came along one of the hops to its step. -/
theorem sum_along_takes {steps : List StepDefinition} {hops : List Hop} {copy : Nat} {p : Position}
    (hp : OnPlan hops (Plan.linksOf (Plan.copiesOf steps) hops) copy p.own) (hw : Wired p) :
    ∑ h ∈ hops.toFinset with h.target = p.own.info.name,
      along (hopRowSets (Plan.linksOf (Plan.copiesOf steps) hops) h) p.account.takes =
        p.account.taken := by
  refine sum_along fun x hx => ?_
  obtain ⟨l, hl, htarget, -⟩ := (hp.inputs x.1).mp (hw.takes x hx)
  have hmem : l.hop ∈ hops := (Plan.of_mem_linksOf hl).1
  refine ⟨l.hop, Finset.mem_filter.mpr ⟨List.mem_toFinset.mpr hmem, htarget⟩, fun h _ => ?_⟩
  rw [mem_hopRowSets]
  constructor
  · rintro ⟨l', hl', rfl⟩
    rw [Plan.link_unique hl' hl]
  · rintro rfl
    exact ⟨l, hl, rfl⟩

namespace Drained

variable {steps : List StepDefinition} {hops : List Hop} {t : Record} (ht : Drained steps hops t)
include ht

/-- What the copies of a step have taken was sent along the hops that lead to it. -/
theorem taken (step : String) :
    t.rowsOf step (·.taken) =
      ∑ h ∈ hops.toFinset with h.target = step, t.rowsOf h.source (·.emitted h.kind) := by
  let rowSets := hopRowSets (Plan.linksOf (Plan.copiesOf steps) hops)
  calc t.rowsOf step (·.taken)
      = ∑ place ∈ t.run.placesOf step, ∑ h ∈ hops.toFinset with h.target = step,
          along (rowSets h) (Account.ofPast (t.past place)).takes := by
        refine Finset.sum_congr rfl fun place hplace => ?_
        obtain ⟨c, hc, rfl⟩ := mem_placesOf.mp hplace
        obtain ⟨⟨copy, hp⟩, hw, -⟩ := ht.copies place c hc
        exact (sum_along_takes (p := t.position place c) hp hw).symm
    _ = ∑ h ∈ hops.toFinset with h.target = step, ∑ place ∈ t.run.placesOf step,
          along (rowSets h) (Account.ofPast (t.past place)).takes := Finset.sum_comm
    _ = ∑ h ∈ hops.toFinset with h.target = step, t.rowsOf h.source (·.emitted h.kind) := by
        refine Finset.sum_congr rfl fun h hh => ?_
        obtain ⟨hmem, rfl⟩ := Finset.mem_filter.mp hh
        have hmem := List.mem_toFinset.mp hmem
        rw [← ht.rows hmem]
        refine Finset.sum_congr rfl fun place hplace => ?_
        obtain ⟨c, hc, htarget⟩ := mem_placesOf.mp hplace
        exact ht.along_takes hmem hc htarget

omit ht in
/-- A counter that tells how many rows there are on account. -/
theorem sum_countAt {step : String} {k : Counter} {f : Account → List Row}
    (h : ∀ (place : Nat) (c : Copy), t.run.net.copies[place]? = some c →
      c.own.counts.get k = (f (.ofPast (t.past place))).length) :
    ∑ place ∈ t.run.placesOf step, t.run.countAt place k = (t.rowsOf step f).card := by
  rw [Record.rowsOf, Multiset.card_sum]
  refine Finset.sum_congr rfl fun place hplace => ?_
  obtain ⟨c, hc, -⟩ := mem_placesOf.mp hplace
  rw [countAt_of_getElem? hc]
  exact h place c hc

/-- What the copies of a step have read, by their counters. -/
theorem sum_read (hcounted : ∀ (place : Nat) (c : Copy), t.run.net.copies[place]? = some c →
      Account.Counted (t.position place c).account) (step : String) :
    ∑ place ∈ t.run.placesOf step, t.run.countAt place .read =
      ∑ h ∈ hops.toFinset with h.target = step,
        ∑ place ∈ t.run.placesOf h.source, t.run.countAt place h.kind.counter := by
  have hread : ∀ (place : Nat) (c : Copy), t.run.net.copies[place]? = some c →
      c.own.counts.get .read = (Account.ofPast (t.past place)).taken.length := by
    intro place c hc
    rw [Account.taken, List.length_map]
    exact (hcounted place c hc).read
  rw [sum_countAt hread, ht.taken step, Multiset.card_sum]
  refine Finset.sum_congr rfl fun h _ => (sum_countAt fun place c hc => ?_).symm
  cases h.kind with
  | normal => exact (hcounted place c hc).written
  | error => exact (hcounted place c hc).rejected

end Drained

section AtEnd

variable {d : Definition} {registry : Registry} {config : Config} {plan : Plan} {r : Run}
  {steps : List StepDefinition} {hops : List Hop}

/-- A copy of a run is as its plan has it. -/
theorem onPlan_of_isPlaced (hc : Plan.Checked steps hops) {s : StepDefinition} {copy : Nat}
    {c : Copy} (hp : IsPlaced registry (Plan.placeOf steps hops s copy) c) :
    OnPlan hops (Plan.linksOf (Plan.copiesOf steps) hops) copy c.own := by
  have hname : c.own.info.name = s.name := by
    rw [hp.info]
    rfl
  constructor
  · intro i
    rw [hp.inputs, hname]
    exact Plan.mem_inputsOf
  · intro i
    rw [hp.outlets, hname]
    exact Plan.mem_outlets_placeOf hc
  · intro h hmem hsource hkind
    rw [hname] at hsource
    refine ⟨_, ?_, Branch.rowSets_origin _⟩
    rw [hp.origin]
    exact List.mem_map_of_mem (Plan.mem_outputs.mpr ⟨h, hmem, hsource, hkind, rfl⟩)
  · intro h hmem hsource hkind
    rw [hname] at hsource
    have herror : Plan.errorOutputOf hops (Plan.linksOf (Plan.copiesOf steps) hops) s.name copy =
        some (Plan.branchOf (Plan.linksOf (Plan.copiesOf steps) hops) copy h) := by
      rw [← hsource]
      exact Plan.errorOutputOf_of_mem hc.errorSources hmem hkind
    refine ⟨_, ?_, Branch.rowSets_origin _⟩
    rw [hp.origin]
    exact Option.mem_map_of_mem _ herror

/-- Copies keep their operators. -/
theorem op_of_after {P : Operator → Prop} (hops : ∀ c ∈ r.net.copies, P c.op) (events : List Event)
    {place : Nat} {c : Copy} (hc : (r.after events).net.copies[place]? = some c) : P c.op := by
  obtain ⟨c₀, hc₀, hbecomes⟩ := becomes_after events hc
  rw [hbecomes.op]
  exact hops c₀ (List.mem_of_getElem? hc₀)

theorem drained_of_atEnd (h : Made d registry config plan r)
    (hfair : ∀ c ∈ r.net.copies, c.op.Fair) {events : List Event} (hend : AtEnd (r.record events)) :
    ∃ steps, Drained steps (Plan.enabledHops d) (r.record events) := by
  obtain ⟨steps, -, hchecked, -, hplan⟩ := Plan.ofDefinition_ok h.planned
  subst hplan
  have hrun : (r.record events).run = r.after events := Record.run_after _ events
  refine ⟨steps, hchecked, hend.balanced, fun place c hc => ?_, fun l i hl => ?_⟩
  · obtain ⟨⟨replies, hspent, hwalk⟩, -, hwired⟩ := hend.complete place c hc
    rw [hrun] at hc
    obtain ⟨x, hx, hplaced⟩ := h.isPlaced events hc
    obtain ⟨s, -, copy, -, rfl⟩ := Plan.mem_allPlaces_wire.mp (List.mem_of_getElem? hx)
    exact ⟨⟨copy, onPlan_of_isPlaced hchecked hplaced⟩, hwired,
      Account.square_of_spent (op_of_after hfair events hc) hspent hwalk⟩
  · obtain ⟨hhop, hsource, -⟩ := Plan.of_mem_linksOf hl
    obtain ⟨s, hs, hname, hcopy⟩ := Plan.exists_place hchecked (hchecked.source _ hhop) hsource
    have hwriter : Plan.placeOf steps (Plan.enabledHops d) s l.source ∈
        Plan.allPlaces (Plan.wire steps (Plan.enabledHops d) config.queueSize.toNat) :=
      Plan.mem_allPlaces_wire.mpr ⟨s, hs, l.source, hcopy, rfl⟩
    obtain ⟨place, hplace⟩ := List.mem_iff_getElem?.mp hwriter
    obtain ⟨c, hc, hplaced⟩ := h.exists_isPlaced events hplace
    refine ⟨c, ?_, ?_, ?_⟩
    · rw [hrun]
      exact List.mem_of_getElem? hc
    · rw [hplaced.info, ← hname]
      rfl
    · rw [hplaced.outlets]
      exact (Plan.mem_outlets_placeOf hchecked).mpr ⟨l, hl, hname.symm, rfl⟩

end AtEnd

end Flow
end RowFlow
