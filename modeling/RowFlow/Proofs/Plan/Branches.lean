import RowFlow.Proofs.Plan.Wiring

/-
The branches of the copies of a plan.  A branch has the row sets that its copy writes to
along one hop.  There always is one, since the target has a copy at least, and since a row
set belongs to one link no two branches share a row set.
-/
namespace RowFlow
namespace Plan

variable {steps : List StepDefinition} {hops : List Hop} {copies : String → Nat} {step : String}
  {copy copy' i : Nat} {h h' : Hop}

theorem exists_mem_ofHop {n m : Nat} (hcopy : copy < n) (hm : 0 < m) :
    ∃ l ∈ Link.ofHop n m h, l.hop = h ∧ l.source = copy := by
  have hrange := List.mem_range.mpr hcopy
  by_cases heq : n = m
  · refine ⟨⟨h, copy, copy⟩, List.mem_flatMap.mpr ⟨copy, hrange, ?_⟩, rfl, rfl⟩
    simp [heq]
  · refine ⟨⟨h, copy, 0⟩, List.mem_flatMap.mpr ⟨copy, hrange, ?_⟩, rfl, rfl⟩
    simp [heq, hm]

theorem exists_link (hmem : h ∈ hops) (hcopy : copy < copies h.source)
    (htarget : 0 < copies h.target) :
    ∃ l i, (l, i) ∈ linksOf copies hops ∧ l.hop = h ∧ l.source = copy := by
  obtain ⟨l, hl, hhop, hsource⟩ := exists_mem_ofHop (h := h) hcopy htarget
  have hall : l ∈ hops.flatMap fun h => Link.ofHop (copies h.source) (copies h.target) h :=
    List.mem_flatMap.mpr ⟨h, hmem, hl⟩
  obtain ⟨i, hi⟩ := List.mem_iff_getElem?.mp hall
  exact ⟨l, i, List.mk_mem_zipIdx_iff_getElem?.mpr hi, hhop, hsource⟩

theorem hop_unique (hi : i ∈ (branchOf (linksOf copies hops) copy h).rowSets)
    (hi' : i ∈ (branchOf (linksOf copies hops) copy' h').rowSets) : h = h' := by
  obtain ⟨l, hl, rfl, -⟩ := mem_branchOf.mp hi
  obtain ⟨l', hl', rfl, -⟩ := mem_branchOf.mp hi'
  rw [link_unique hl hl']

/-- Two outputs with a row set in common are one. -/
theorem outputs_apart (hnodup : hops.Nodup) {j k : Nat} {b c : Branch}
    (hj : (outputsOf hops (linksOf copies hops) step copy)[j]? = some b)
    (hk : (outputsOf hops (linksOf copies hops) step copy)[k]? = some c)
    (hb : i ∈ b.rowSets) (hc : i ∈ c.rowSets) : j = k := by
  rw [outputsOf, List.getElem?_map] at hj hk
  obtain ⟨h, hgetj, rfl⟩ := Option.map_eq_some_iff.mp hj
  obtain ⟨h', hgetk, rfl⟩ := Option.map_eq_some_iff.mp hk
  obtain rfl := hop_unique hb hc
  have hlt := (List.getElem?_eq_some_iff.mp hgetj).1
  exact (List.getElem?_inj hlt (hnodup.filter _)).mp (hgetj.trans hgetk.symm)

/-- No output shares a row set with the error output. -/
theorem error_apart {b c : Branch} (hb : b ∈ outputsOf hops (linksOf copies hops) step copy)
    (hc : errorOutputOf hops (linksOf copies hops) step copy = some c) (hi : i ∈ b.rowSets) :
    i ∉ c.rowSets := by
  intro hi'
  obtain ⟨h, -, -, hnormal, rfl⟩ := mem_outputs.mp hb
  obtain ⟨h', -, -, herror, rfl⟩ := mem_errorOutput hc
  rw [hop_unique hi hi', herror] at hnormal
  cases hnormal

section Checked

variable (hc : Checked steps hops)
include hc

theorem hops_nodup : hops.Nodup := hc.ends.of_map _

/-- Hops that join the same steps are one. -/
theorem hop_of_ends (hmem : h ∈ hops) (hmem' : h' ∈ hops) (hsource : h.source = h'.source)
    (htarget : h.target = h'.target) : h = h' :=
  List.inj_on_of_nodup_map hc.ends hmem hmem' (Prod.ext hsource htarget)

theorem copiesOf_pos {name : String} (hname : name ∈ steps.map (·.name)) :
    0 < copiesOf steps name := by
  obtain ⟨s, hs, rfl⟩ := List.mem_map.mp hname
  rw [copiesOf_name hc.names hs]
  exact hc.copies s hs

theorem branchOf_ne_nil (hmem : h ∈ hops) (hcopy : copy < copiesOf steps h.source) :
    (branchOf (linksOf (copiesOf steps) hops) copy h).rowSets ≠ [] := by
  obtain ⟨l, i, hl, hhop, hsource⟩ := exists_link hmem hcopy (copiesOf_pos hc (hc.target h hmem))
  exact List.ne_nil_of_mem (mem_branchOf.mpr ⟨l, hl, hhop, hsource⟩)

end Checked

end Plan
end RowFlow
