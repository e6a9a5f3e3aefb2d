import RowFlow.Proofs.Flow.Balance
import RowFlow.Proofs.Flow.Square
import RowFlow.Proofs.Plan.Branches

/-
A run at its end for which no reason to stop was given.  All copies have come to their
end by themselves, so all inputs have ended and nothing is left in the row sets: what was
given is what was taken.
-/
namespace RowFlow
namespace Flow

open Run

variable {d : Definition} {registry : Registry} {config : Config} {plan : Plan} {r : Run}
  {steps : List StepDefinition} {hops : List Hop}

/-- The branches of a copy of a plan lead somewhere and are apart. -/
theorem apart_placeOf (hc : Plan.Checked steps hops) {s : StepDefinition} (hs : s ∈ steps)
    {copy : Nat} (hcopy : copy < s.copies.toNat) (info : StepInfo) :
    let w := (Plan.placeOf steps hops s copy).2.2
    Apart (Local.fresh info w.inputs w.outputs w.errorOutput).origin := by
  intro w
  have hcopy' : ∀ h : Hop, h.source = s.name → copy < Plan.copiesOf steps h.source := by
    intro h hsource
    rw [hsource, Plan.copiesOf_name hc.names hs]
    exact hcopy
  constructor
  · intro b hb
    have hbranch : ∃ h ∈ hops, h.source = s.name ∧
        b.rowSets = (Plan.branchOf (Plan.linksOf (Plan.copiesOf steps) hops) copy h).rowSets := by
      rcases List.mem_append.mp hb with hb | hb
      · obtain ⟨b₀, hb₀, rfl⟩ := List.mem_map.mp hb
        obtain ⟨h, hmem, hsource, -, rfl⟩ := Plan.mem_outputs.mp hb₀
        exact ⟨h, hmem, hsource, rfl⟩
      · obtain ⟨b₀, hb₀, rfl⟩ := Option.map_eq_some_iff.mp (Option.mem_toList.mp hb)
        obtain ⟨h, hmem, hsource, -, rfl⟩ := Plan.mem_errorOutput hb₀
        exact ⟨h, hmem, hsource, rfl⟩
    obtain ⟨h, hmem, hsource, hrows⟩ := hbranch
    rw [hrows]
    exact Plan.branchOf_ne_nil hc hmem (hcopy' h hsource)
  · intro j k b c hj hk i hib hic
    obtain ⟨b₀, hj₀, rfl⟩ := Option.map_eq_some_iff.mp (List.getElem?_map.symm.trans hj)
    obtain ⟨c₀, hk₀, rfl⟩ := Option.map_eq_some_iff.mp (List.getElem?_map.symm.trans hk)
    exact Plan.outputs_apart (Plan.hops_nodup hc) hj₀ hk₀ hib hic
  · intro b hb c hcb i hib
    obtain ⟨b₀, hb₀, rfl⟩ := List.mem_map.mp hb
    obtain ⟨c₀, hc₀, rfl⟩ := Option.map_eq_some_iff.mp hcb
    exact Plan.error_apart (c := c₀) hb₀ hc₀ hib

/-- The branches of a copy that was just made lead somewhere and are apart. -/
theorem apart_of_made (h : Made d registry config plan r) {place : Nat} {c : Copy}
    (hcopy : r.net.copies[place]? = some c) : Apart c.own.origin := by
  obtain ⟨steps, -, hc, -, hplan⟩ := Plan.ofDefinition_ok h.planned
  obtain ⟨x, hx, hplaced⟩ := h.isPlaced [] hcopy
  subst hplan
  obtain ⟨s, hs, copy, hlt, rfl⟩ := Plan.mem_allPlaces_wire.mp (List.mem_of_getElem? hx)
  rw [hplaced.origin]
  exact apart_placeOf hc hs hlt _

/-- Where a run starts its copies are sound. -/
theorem sound_of_made (h : Made d registry config plan r) {place : Nat} {c : Copy}
    (hcopy : r.net.copies[place]? = some c) (hdrains : c.own.inputs ≠ [] → c.op.Drains) :
    Sound c.op ⟨[], c.own, r.net.shared⟩ := by
  obtain ⟨info, inputs, outputs, errorOutput, hown⟩ := h.own_fresh (List.mem_of_getElem? hcopy)
  obtain ⟨steps, -, hc, -, hplan⟩ := Plan.ofDefinition_ok h.planned
  obtain ⟨x, hx, hplaced⟩ := h.isPlaced [] hcopy
  subst hplan
  obtain ⟨s, -, copy, -, rfl⟩ := Plan.mem_allPlaces_wire.mp (List.mem_of_getElem? hx)
  refine ⟨?_, apart_of_made h hcopy, ⟨rfl, ?_, ?_⟩, ?_⟩
  · rw [hown]
    exact Progress.tidy_fresh _ _ _ _ _ _
  · intro i hi
    rw [Local.outlets_origin, hplaced.outlets] at hi
    obtain ⟨l, hl, -⟩ := (Plan.mem_outlets_placeOf hc).mp hi
    rw [h.shared]
    simpa [Plan.wire] using Plan.exists_mem_linksOf.mp ⟨l, hl⟩
  · intro _ hended
    cases hended
  · by_cases hnone : c.own.inputs = []
    · exact .inl hnone
    · exact .inr (hdrains hnone)

/-- A copy has come to its end by itself, and its account follows what its operator was
answered. -/
structure Complete (c : Copy) (p : Position) : Prop where
  spent : ∃ replies, c.op.Spent replies ∧ Account.Walk p.own.origin replies {} p.account
  dry : Dry p
  wired : Wired p

structure AtEnd (t : Record) : Prop where
  balanced : total t (·.gives) = total t (·.takes)
  complete : ∀ (place : Nat) (c : Copy), t.run.net.copies[place]? = some c →
    Complete c (t.position place c)

theorem kept_of_made (h : Made d registry config plan r)
    (hdrains : ∀ c ∈ r.net.copies, c.own.inputs ≠ [] → c.op.Drains) :
    ({ run := r } : Record).Kept agreement := by
  have hcontrol : r.net.shared.control.stopped = false := by
    rw [h.shared]
    rfl
  refine h.kept ⟨fun hs => ?_, fun _ i rs hrs hleft => ?_⟩ fun c hmem => ⟨trivial, ?_⟩
  · rw [hcontrol] at hs
    cases hs
  · rw [h.shared] at hrs
    obtain ⟨steps, -, -, -, hplan⟩ := Plan.ofDefinition_ok h.planned
    subst hplan
    simp only [Plan.wire, List.getElem?_map] at hrs
    obtain ⟨l, -, rfl⟩ := Option.map_eq_some_iff.mp hrs
    cases hleft
  · obtain ⟨place, hplace⟩ := List.mem_iff_getElem?.mp hmem
    refine ⟨sound_of_made h hplace (hdrains c hmem), fun _ => ⟨[], rfl, ?_⟩⟩
    obtain ⟨info, inputs, outputs, errorOutput, hown⟩ := h.own_fresh hmem
    rw [hown]
    rfl

theorem wired_of_made (h : Made d registry config plan r) (events : List Event) {place : Nat}
    {c : Copy} (hc : (r.record events).run.net.copies[place]? = some c) :
    Wired ((r.record events).position place c) := by
  have hstart : ({ run := r } : Record).Kept (Progress.agreement False) :=
    Progress.kept_of_made h fun c _ => asks_any c.op
  have hempty : ∀ (place : Nat) (c : Copy), r.net.copies[place]? = some c →
      Wired ⟨[], c.own, r.net.shared⟩ := fun _ _ _ =>
    ⟨fun x hx => absurd hx List.not_mem_nil, fun x hx => absurd hx List.not_mem_nil⟩
  refine hstart.forall_positions (Progress.lawful_agreement False) wired_stable ?_ hempty events
    place c hc
  intro op _ atWork n p q _ hg hl hp
  have hguard : Progress.guard False atWork n p := hg
  exact hp.leads hguard hl

/-- Nothing is left in row sets that have ended. -/
theorem held_of_dry {s : Shared} (h : ∀ i < s.rowSets.length, s.IsDone i) : s.held = 0 := by
  refine Finset.sum_eq_zero fun i hi => ?_
  have hlt := Finset.mem_range.mp hi
  have hrs := List.getElem?_eq_getElem hlt
  have hdone := h i hlt _ hrs
  simp only [RowSet.isDone, Bool.and_eq_true, List.isEmpty_iff] at hdone
  rw [bufferAt_of_getElem? hrs, hdone.2]
  rfl

theorem balanced_of_made (h : Made d registry config plan r) : Balanced { run := r } := by
  intro _
  have htotal : ∀ f : Account → List (Nat × Row), f {} = [] → total { run := r } f = 0 := by
    intro f hf
    refine Finset.sum_eq_zero fun place _ => ?_
    show ((f {} : List (Nat × Row)) : Multiset (Nat × Row)) = 0
    rw [hf]
    rfl
  have hheld : r.net.shared.held = 0 := by
    obtain ⟨steps, -, -, -, hplan⟩ := Plan.ofDefinition_ok h.planned
    refine Finset.sum_eq_zero fun i _ => ?_
    have hempty : r.net.shared.bufferAt i = [] := by
      rw [h.shared, hplan]
      simp only [Shared.bufferAt, Plan.wire, List.getElem?_map]
      cases (Plan.linksOf (Plan.copiesOf steps) (Plan.enabledHops d))[i]? <;> rfl
    rw [hempty]
    rfl
  rw [htotal _ rfl, htotal _ rfl, hheld, add_zero]

/-- Every row set of a run is read by a copy. -/
theorem exists_reader_of_lt (h : Made d registry config plan r) (events : List Event) {i : Nat}
    (hi : i < (r.after events).net.shared.rowSets.length) :
    ∃ (place : Nat) (c : Copy), (r.after events).net.copies[place]? = some c ∧
      i ∈ c.own.inputs := by
  obtain ⟨steps, -, hc, -, hplan⟩ := Plan.ofDefinition_ok h.planned
  subst hplan
  rw [Shared.Le.length (r.shared_le_after events), h.shared] at hi
  have hlt : i < (Plan.linksOf (Plan.copiesOf steps) (Plan.enabledHops d)).length := by
    simpa [Plan.wire] using hi
  obtain ⟨⟨l, j⟩, hl⟩ :
      ∃ x, (Plan.linksOf (Plan.copiesOf steps) (Plan.enabledHops d))[i]? = some x :=
    ⟨_, List.getElem?_eq_getElem hlt⟩
  have hmem : (l, i) ∈ Plan.linksOf (Plan.copiesOf steps) (Plan.enabledHops d) := by
    have hget := hl
    simp only [Plan.linksOf, List.getElem?_zipIdx] at hget
    obtain ⟨x, hx, heq⟩ := Option.map_eq_some_iff.mp hget
    cases heq
    exact List.mk_mem_zipIdx_iff_getElem?.mpr hx
  obtain ⟨y, hy, hin⟩ := Plan.exists_reader_of_link hc hmem
  obtain ⟨place, hplace⟩ := List.mem_iff_getElem?.mp hy
  obtain ⟨c, hcopy, hplaced⟩ := h.exists_isPlaced events hplace
  exact ⟨place, c, hcopy, hplaced.inputs ▸ hin⟩

theorem atEnd_of_made (h : Made d registry config plan r)
    (hdrains : ∀ c ∈ r.net.copies, c.own.inputs ≠ [] → c.op.Drains) (events : List Event)
    (hover : (r.after events).IsOver) (hclear : (r.after events).control.reason = none) :
    AtEnd (r.record events) := by
  have hstart := kept_of_made h hdrains
  have hkept : (r.record events).Kept agreement := hstart.after lawful_agreement events
  have hrun : (r.record events).run = r.after events := Record.run_after _ events
  have hwork : (r.record events).run.phase.atWork = true := by
    rw [hrun]
    rcases hover with hp | ⟨x, hp⟩
    · rw [hp]
      rfl
    · refine absurd hclear ?_
      rw [← hrun] at hp ⊢
      exact hkept.staged.phaseReason (by rw [hp]; rfl)
  rw [← hrun] at hover hclear
  have hcomplete : ∀ (place : Nat) (c : Copy), (r.record events).run.net.copies[place]? = some c →
      Complete c ((r.record events).position place c) := by
    intro place c hc
    have hgone := hkept.staged.gone_of_isOver hover (List.mem_of_getElem? hc)
    have hwired := wired_of_made h events hc
    obtain ⟨_, hholds⟩ := hkept.copies place c hc
    obtain ⟨op, own, task⟩ := c
    cases task with
    | gone =>
      obtain ⟨hspent, hdry⟩ := hholds hwork
      exact ⟨hspent hclear, hdry hclear, hwired⟩
    | _ => cases hgone
  refine ⟨?_, hcomplete⟩
  have hbalanced := balanced_after hstart (balanced_of_made h) events hclear
  have hheld : (r.record events).run.net.shared.held = 0 := by
    refine held_of_dry fun i hi => ?_
    rw [hrun] at hi
    obtain ⟨place, c, hc, hin⟩ := exists_reader_of_lt h events hi
    rw [← hrun] at hc
    exact (hcomplete place c hc).dry i hin
  rw [show (({ run := r } : Record).after events).run.net.shared.held = 0 from hheld, add_zero]
    at hbalanced
  exact hbalanced

end Flow
end RowFlow
