import RowFlow.Proofs.Plan.Check

/-
Which row sets the copies of a plan read and write.  A row set belongs to one link: the
copy that the link leaves writes to it and the copy that the link enters reads from it,
and no others do.
-/
namespace RowFlow
namespace Plan

section Links

variable {ls : Links} {step : String} {copy i : Nat}

theorem mem_places {p : Link → Bool} :
    i ∈ places (ls.filter fun (l, _) => p l) ↔ ∃ l, (l, i) ∈ ls ∧ p l = true := by
  simp only [places, List.mem_map, List.mem_filter]
  constructor
  · rintro ⟨⟨l, j⟩, ⟨hmem, hl⟩, rfl⟩
    exact ⟨l, hmem, hl⟩
  · rintro ⟨l, hmem, hl⟩
    exact ⟨(l, i), ⟨hmem, hl⟩, rfl⟩

theorem mem_inputsOf :
    i ∈ inputsOf ls step copy ↔ ∃ l, (l, i) ∈ ls ∧ l.hop.target = step ∧ l.target = copy := by
  unfold inputsOf
  rw [mem_places (p := fun l => l.hop.target == step && l.target == copy)]
  simp only [Bool.and_eq_true, beq_iff_eq]

theorem mem_branchOf {h : Hop} :
    i ∈ (branchOf ls copy h).rowSets ↔ ∃ l, (l, i) ∈ ls ∧ l.hop = h ∧ l.source = copy := by
  show i ∈ places (ls.filter fun (l, _) => l.hop == h && l.source == copy) ↔ _
  rw [mem_places (p := fun l => l.hop == h && l.source == copy)]
  simp only [Bool.and_eq_true, beq_iff_eq]

/-- The error hop that is found for a step is its only one. -/
theorem find?_error {hops : List Hop} (hone : (errorSources hops).Nodup) {h : Hop}
    (hmem : h ∈ hops) (hkind : h.kind = .error) :
    hops.find? (fun g => g.source == h.source && g.kind == .error) = some h := by
  have hsome : (hops.find? fun g => g.source == h.source && g.kind == .error).isSome := by
    refine List.find?_isSome.mpr ⟨h, hmem, ?_⟩
    simp [hkind]
  obtain ⟨g, hg⟩ := Option.isSome_iff_exists.mp hsome
  have hgerror := List.find?_some hg
  simp only [Bool.and_eq_true, beq_iff_eq] at hgerror
  have hsame : g = h := by
    refine List.inj_on_of_nodup_map hone ?_ ?_ hgerror.1
    · exact List.mem_filter.mpr ⟨List.mem_of_find?_eq_some hg, by simp [hgerror.2]⟩
    · exact List.mem_filter.mpr ⟨hmem, by simp [hkind]⟩
  rw [hg, hsame]

/-- The error output of a copy belongs to the only error hop of its step. -/
theorem errorOutputOf_of_mem {hops : List Hop} (hone : (errorSources hops).Nodup) {h : Hop}
    (hmem : h ∈ hops) (hkind : h.kind = .error) :
    errorOutputOf hops ls h.source copy = some (branchOf ls copy h) := by
  rw [errorOutputOf, find?_error hone hmem hkind]
  rfl

theorem mem_outputs {hops : List Hop} {b : Branch} :
    b ∈ outputsOf hops ls step copy ↔
      ∃ h ∈ hops, h.source = step ∧ h.kind = .normal ∧ b = branchOf ls copy h := by
  simp only [outputsOf, List.mem_map, List.mem_filter, Bool.and_eq_true, beq_iff_eq]
  constructor
  · rintro ⟨h, ⟨hmem, hsource, hkind⟩, rfl⟩
    exact ⟨h, hmem, hsource, hkind, rfl⟩
  · rintro ⟨h, hmem, hsource, hkind, rfl⟩
    exact ⟨h, ⟨hmem, hsource, hkind⟩, rfl⟩

theorem mem_errorOutput {hops : List Hop} {b : Branch}
    (hb : errorOutputOf hops ls step copy = some b) :
    ∃ h ∈ hops, h.source = step ∧ h.kind = .error ∧ b = branchOf ls copy h := by
  obtain ⟨h, hfind, rfl⟩ := Option.map_eq_some_iff.mp hb
  have herror := List.find?_some hfind
  simp only [Bool.and_eq_true, beq_iff_eq] at herror
  exact ⟨h, List.mem_of_find?_eq_some hfind, herror.1, herror.2, rfl⟩

def CopyWiring.outlets (w : CopyWiring) : List Nat :=
  (w.outputs ++ w.errorOutput.toList).flatMap (·.rowSets)

def wiringOf (hops : List Hop) (ls : Links) (step : String) (copy : Nat) : CopyWiring where
  inputs := inputsOf ls step copy
  outputs := outputsOf hops ls step copy
  errorOutput := errorOutputOf hops ls step copy

theorem mem_outlets {hops : List Hop} (hone : (errorSources hops).Nodup)
    (hls : ∀ l i, (l, i) ∈ ls → l.hop ∈ hops) :
    i ∈ (wiringOf hops ls step copy).outlets ↔
      ∃ l, (l, i) ∈ ls ∧ l.hop.source = step ∧ l.source = copy := by
  simp only [CopyWiring.outlets, wiringOf, List.mem_flatMap, List.mem_append, Option.mem_toList]
  constructor
  · rintro ⟨b, hb, hi⟩
    have hbranch : ∃ h ∈ hops, h.source = step ∧ b = branchOf ls copy h := by
      rcases hb with hb | hb
      · obtain ⟨h, hmem, hsource, -, heq⟩ := mem_outputs.mp hb
        exact ⟨h, hmem, hsource, heq⟩
      · obtain ⟨h, hmem, hsource, -, heq⟩ := mem_errorOutput hb
        exact ⟨h, hmem, hsource, heq⟩
    obtain ⟨h, -, rfl, rfl⟩ := hbranch
    obtain ⟨l, hl, rfl, hcopy⟩ := mem_branchOf.mp hi
    exact ⟨l, hl, rfl, hcopy⟩
  · rintro ⟨l, hl, rfl, hcopy⟩
    have hhop := hls l i hl
    refine ⟨branchOf ls copy l.hop, ?_, mem_branchOf.mpr ⟨l, hl, rfl, hcopy⟩⟩
    cases hkind : l.hop.kind with
    | normal => exact .inl (mem_outputs.mpr ⟨l.hop, hhop, rfl, hkind, rfl⟩)
    | error => exact .inr (errorOutputOf_of_mem hone hhop hkind)

end Links

theorem of_mem_ofHop {n m : Nat} {h : Hop} {l : Link} (hl : l ∈ Link.ofHop n m h) :
    l.hop = h ∧ l.source < n ∧ l.target < m := by
  obtain ⟨i, hi, hl⟩ := List.mem_flatMap.mp hl
  have hi := List.mem_range.mp hi
  split at hl
  · next heq =>
    rw [List.mem_singleton.mp hl]
    exact ⟨rfl, hi, heq ▸ hi⟩
  · obtain ⟨j, hj, rfl⟩ := List.mem_map.mp hl
    exact ⟨rfl, hi, List.mem_range.mp hj⟩

/-- A link has one place. -/
theorem link_unique {copies : String → Nat} {hops : List Hop} {l l' : Link} {i : Nat}
    (h : (l, i) ∈ linksOf copies hops) (h' : (l', i) ∈ linksOf copies hops) : l = l' := by
  have hi := List.mk_mem_zipIdx_iff_getElem?.mp h
  have hi' := List.mk_mem_zipIdx_iff_getElem?.mp h'
  exact Option.some.inj (hi.symm.trans hi')

theorem of_mem_linksOf {copies : String → Nat} {hops : List Hop} {l : Link} {i : Nat}
    (h : (l, i) ∈ linksOf copies hops) :
    l.hop ∈ hops ∧ l.source < copies l.hop.source ∧ l.target < copies l.hop.target := by
  have hmem := List.mem_of_getElem? (List.mk_mem_zipIdx_iff_getElem?.mp h)
  obtain ⟨hop, hhop, hl⟩ := List.mem_flatMap.mp hmem
  obtain ⟨rfl, hsource, htarget⟩ := of_mem_ofHop hl
  exact ⟨hhop, hsource, htarget⟩

/-- The links have the places from zero on. -/
theorem exists_mem_linksOf {copies : String → Nat} {hops : List Hop} {i : Nat} :
    (∃ l, (l, i) ∈ linksOf copies hops) ↔ i < (linksOf copies hops).length := by
  simp only [linksOf, List.mk_mem_zipIdx_iff_getElem?, List.length_zipIdx]
  simp only [← Option.isSome_iff_exists, isSome_getElem?]

section Wire

variable {steps : List StepDefinition} {hops : List Hop}

theorem copiesOf_name (h : (steps.map (·.name)).Nodup) {s : StepDefinition} (hs : s ∈ steps) :
    copiesOf steps s.name = s.copies.toNat := by
  have hsome : (steps.find? (·.name == s.name)).isSome :=
    List.find?_isSome.mpr ⟨s, hs, beq_self_eq_true _⟩
  obtain ⟨t, ht⟩ := Option.isSome_iff_exists.mp hsome
  have hname : t.name = s.name := by simpa using List.find?_some ht
  have hsame := List.inj_on_of_nodup_map h (List.mem_of_find?_eq_some ht) hs hname
  rw [copiesOf, ht, hsame]
  rfl

/-- A copy that a plan asks for: the step, its number and its wiring. -/
abbrev Place := Step × Nat × CopyWiring

def allPlaces (p : Plan) : List Place :=
  p.steps.flatMap fun s => s.copies.zipIdx.map fun (w, copy) => (s, copy, w)

def placeOf (steps : List StepDefinition) (hops : List Hop) (s : StepDefinition) (copy : Nat) :
    Place :=
  let ls := linksOf (copiesOf steps) hops
  (stepOf hops ls s, copy, wiringOf hops ls s.name copy)

theorem allPlaces_wire (steps : List StepDefinition) (hops : List Hop) (queueSize : Nat) :
    allPlaces (wire steps hops queueSize) =
      steps.flatMap fun s => (List.range s.copies.toNat).map (placeOf steps hops s) := by
  simp only [allPlaces, wire, List.flatMap_map]
  refine List.flatMap_congr fun s _ => ?_
  refine List.ext_getElem? fun k => ?_
  simp only [stepOf, List.getElem?_map, List.getElem?_zipIdx]
  by_cases hk : k < s.copies.toNat <;> simp [hk, placeOf, stepOf, wiringOf]

theorem mem_allPlaces_wire {queueSize : Nat} {x : Place} :
    x ∈ allPlaces (wire steps hops queueSize) ↔
      ∃ s ∈ steps, ∃ copy < s.copies.toNat, x = placeOf steps hops s copy := by
  simp only [allPlaces_wire, List.mem_flatMap, List.mem_map, List.mem_range]
  constructor
  · rintro ⟨s, hs, copy, hcopy, rfl⟩
    exact ⟨s, hs, copy, hcopy, rfl⟩
  · rintro ⟨s, hs, copy, hcopy, rfl⟩
    exact ⟨s, hs, copy, hcopy, rfl⟩

def Place.inputs (x : Place) : List Nat := x.2.2.inputs

def Place.outlets (x : Place) : List Nat := x.2.2.outlets

/-- The place that a link leaves or enters. -/
theorem exists_place (hc : Checked steps hops) {name : String} {copy : Nat}
    (hname : name ∈ steps.map (·.name)) (hcopy : copy < copiesOf steps name) :
    ∃ s ∈ steps, s.name = name ∧ copy < s.copies.toNat := by
  obtain ⟨s, hs, rfl⟩ := List.mem_map.mp hname
  rw [copiesOf_name hc.names hs] at hcopy
  exact ⟨s, hs, rfl, hcopy⟩

section Joints

variable (hc : Checked steps hops) {queueSize : Nat} {s t : StepDefinition} {copy copy' i : Nat}
include hc

theorem mem_outlets_placeOf :
    i ∈ (placeOf steps hops s copy).outlets ↔
      ∃ l, (l, i) ∈ linksOf (copiesOf steps) hops ∧ l.hop.source = s.name ∧ l.source = copy :=
  mem_outlets hc.errorSources fun _ _ h => (of_mem_linksOf h).1

/-- Where one place writes and another reads there is a hop between them. -/
theorem exists_hop (h : i ∈ (placeOf steps hops s copy).outlets)
    (h' : i ∈ (placeOf steps hops t copy').inputs) :
    ∃ hop ∈ hops, hop.source = s.name ∧ hop.target = t.name := by
  obtain ⟨l, hl, hsource, -⟩ := (mem_outlets_placeOf hc).mp h
  obtain ⟨l', hl', htarget, -⟩ := mem_inputsOf.mp h'
  obtain rfl := link_unique hl hl'
  exact ⟨l.hop, (of_mem_linksOf hl).1, hsource, htarget⟩

/-- What is read was written at another place. -/
theorem exists_writer {x : Place} (hx : x ∈ allPlaces (wire steps hops queueSize))
    (hi : i ∈ x.inputs) : ∃ y ∈ allPlaces (wire steps hops queueSize), i ∈ y.outlets := by
  obtain ⟨t, -, copy, -, rfl⟩ := mem_allPlaces_wire.mp hx
  obtain ⟨l, hl, -, -⟩ := mem_inputsOf.mp hi
  obtain ⟨hhop, hsource, -⟩ := of_mem_linksOf hl
  obtain ⟨s, hs, hname, hcopy⟩ := exists_place hc (hc.source _ hhop) hsource
  refine ⟨placeOf steps hops s l.source, mem_allPlaces_wire.mpr ⟨s, hs, _, hcopy, rfl⟩, ?_⟩
  exact (mem_outlets_placeOf hc).mpr ⟨l, hl, hname.symm, rfl⟩

/-- Every row set is read at some place. -/
theorem exists_reader_of_link {l : Link} (hl : (l, i) ∈ linksOf (copiesOf steps) hops) :
    ∃ y ∈ allPlaces (wire steps hops queueSize), i ∈ y.inputs := by
  obtain ⟨hhop, -, htarget⟩ := of_mem_linksOf hl
  obtain ⟨t, ht, hname, hcopy⟩ := exists_place hc (hc.target _ hhop) htarget
  refine ⟨placeOf steps hops t l.target, mem_allPlaces_wire.mpr ⟨t, ht, _, hcopy, rfl⟩, ?_⟩
  exact mem_inputsOf.mpr ⟨l, hl, hname.symm, rfl⟩

/-- What is written is read at another place. -/
theorem exists_reader {x : Place} (hx : x ∈ allPlaces (wire steps hops queueSize))
    (hi : i ∈ x.outlets) : ∃ y ∈ allPlaces (wire steps hops queueSize), i ∈ y.inputs := by
  obtain ⟨s, -, copy, -, rfl⟩ := mem_allPlaces_wire.mp hx
  obtain ⟨l, hl, -, -⟩ := (mem_outlets_placeOf hc).mp hi
  exact exists_reader_of_link hc hl

theorem pairwise_allPlaces (ho : InOrder steps hops) :
    (allPlaces (wire steps hops queueSize)).Pairwise fun x y => ∀ i ∈ y.outlets, i ∉ x.inputs := by
  rw [allPlaces_wire, List.pairwise_flatMap]
  constructor
  · intro s _
    refine List.pairwise_map.mpr (List.pairwise_of_forall fun copy copy' i hi hi' => ?_)
    obtain ⟨hop, hhop, hsource, htarget⟩ := exists_hop hc hi hi'
    exact hc.apart hop hhop (hsource.trans htarget.symm)
  · refine ho.imp fun {s t} hst x hx y hy i hi hi' => ?_
    obtain ⟨copy, -, rfl⟩ := List.mem_map.mp hx
    obtain ⟨copy', -, rfl⟩ := List.mem_map.mp hy
    obtain ⟨hop, hhop, hsource, htarget⟩ := exists_hop hc hi hi'
    exact hst hop hhop hsource htarget

/-- A row set is written at an earlier place than it is read. -/
theorem lt_of_mem (ho : InOrder steps hops) {a b : Nat} {x y : Place}
    (ha : (allPlaces (wire steps hops queueSize))[a]? = some x)
    (hb : (allPlaces (wire steps hops queueSize))[b]? = some y)
    (hi : i ∈ x.outlets) (hi' : i ∈ y.inputs) : a < b := by
  have hpairs : (allPlaces (wire steps hops queueSize)).Pairwise _ := pairwise_allPlaces hc ho
  rw [List.pairwise_iff_getElem] at hpairs
  obtain ⟨hla, hxa⟩ := List.getElem?_eq_some_iff.mp ha
  obtain ⟨hlb, hyb⟩ := List.getElem?_eq_some_iff.mp hb
  rcases Nat.lt_trichotomy a b with hlt | heq | hgt
  · exact hlt
  · subst heq
    obtain rfl := hxa.symm.trans hyb
    obtain ⟨s, -, copy, -, rfl⟩ := mem_allPlaces_wire.mp (List.mem_of_getElem? ha)
    obtain ⟨hop, hhop, hsource, htarget⟩ := exists_hop hc hi hi'
    exact absurd (hsource.trans htarget.symm) (hc.apart hop hhop)
  · have hnot := hpairs b a hlb hla hgt i
    rw [hxa, hyb] at hnot
    exact absurd hi' (hnot hi)

end Joints

end Wire

end Plan
end RowFlow
