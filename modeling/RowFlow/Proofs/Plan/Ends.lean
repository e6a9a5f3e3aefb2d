import Mathlib.Algebra.GroupWithZero.Nat
import Mathlib.Data.List.Forall2
import RowFlow.Proofs.Plan.Branches
import RowFlow.Proofs.Plan.WellFormed

/-
The wiring of a plan is complete.  Every row set has one copy that writes to it and one
that reads from it, and a copy has one branch for each hop that leaves its step.  What a
copy reads and what it writes are both the places of the links with one key, the end of
the link, so that a row set occurs once among all copies is shown for any key.
-/
namespace RowFlow
namespace Plan

section Keys

variable {copies : String → Nat} {hops : List Hop}

theorem nodup_places (p : Link × Nat → Bool) :
    (places ((linksOf copies hops).filter p)).Nodup := by
  have hall : (places (linksOf copies hops)).Nodup := by
    rw [places, linksOf, List.zipIdx_map_snd]
    exact List.nodup_range'
  exact hall.sublist (List.filter_sublist.map _)

/-- When all links have a key of `keys`, the row sets found by key are all row sets. -/
theorem perm_range_of_keys (key : Link → String × Nat) {keys : List (String × Nat)}
    {rows : String × Nat → List Nat} (hkeys : keys.Nodup) (hrows : ∀ p, (rows p).Nodup)
    (hmem : ∀ p i, i ∈ rows p ↔ ∃ l, (l, i) ∈ linksOf copies hops ∧ key l = p)
    (hall : ∀ l i, (l, i) ∈ linksOf copies hops → key l ∈ keys) :
    (keys.flatMap rows).Perm (List.range (linksOf copies hops).length) := by
  have hnodup : (keys.flatMap rows).Nodup := by
    refine List.nodup_flatMap.mpr ⟨fun p _ => hrows p, hkeys.imp fun {p q} hne i hp hq => hne ?_⟩
    obtain ⟨l, hl, rfl⟩ := (hmem p i).mp hp
    obtain ⟨l', hl', rfl⟩ := (hmem q i).mp hq
    rw [link_unique hl hl']
  refine (List.perm_ext_iff_of_nodup hnodup List.nodup_range).mpr fun i => ?_
  rw [List.mem_flatMap, List.mem_range, ← exists_mem_linksOf]
  constructor
  · rintro ⟨p, -, hi⟩
    obtain ⟨l, hl, -⟩ := (hmem p i).mp hi
    exact ⟨l, hl⟩
  · rintro ⟨l, hl⟩
    exact ⟨key l, hall l i hl, (hmem _ i).mpr ⟨l, hl, rfl⟩⟩

end Keys

section Branches

def leaving (hops : List Hop) (step : String) : List Hop :=
  (hops.filter fun h => h.source == step && h.kind == .normal) ++
    (hops.find? fun h => h.source == step && h.kind == .error).toList

def CopyWiring.branches (w : CopyWiring) : List Branch := w.outputs ++ w.errorOutput.toList

theorem branches_wiringOf (hops : List Hop) (ls : Links) (step : String) (copy : Nat) :
    (wiringOf hops ls step copy).branches = (leaving hops step).map (branchOf ls copy) := by
  simp only [CopyWiring.branches, wiringOf, outputsOf, errorOutputOf, leaving, List.map_append]
  cases hops.find? fun h => h.source == step && h.kind == .error <;> rfl

variable {steps : List StepDefinition} {hops : List Hop} {step : String}

theorem mem_leaving (hone : (errorSources hops).Nodup) {h : Hop} :
    h ∈ leaving hops step ↔ h ∈ hops ∧ h.source = step := by
  rw [leaving, List.mem_append, List.mem_filter, Option.mem_toList]
  constructor
  · rintro (⟨hmem, hnormal⟩ | hfind)
    · simp only [Bool.and_eq_true, beq_iff_eq] at hnormal
      exact ⟨hmem, hnormal.1⟩
    · have herror := List.find?_some hfind
      simp only [Bool.and_eq_true, beq_iff_eq] at herror
      exact ⟨List.mem_of_find?_eq_some hfind, herror.1⟩
  · rintro ⟨hmem, rfl⟩
    cases hkind : h.kind with
    | normal => exact .inl ⟨hmem, by simp⟩
    | error => exact .inr (find?_error hone hmem hkind)

theorem nodup_leaving (hnodup : hops.Nodup) (step : String) : (leaving hops step).Nodup := by
  refine List.nodup_append.mpr ⟨hnodup.filter _, ?_, ?_⟩
  · cases hops.find? fun h => h.source == step && h.kind == .error <;> simp
  · rintro g hg h hh rfl
    have hnormal := (List.mem_filter.mp hg).2
    have herror := List.find?_some (Option.mem_toList.mp hh)
    simp only [Bool.and_eq_true, beq_iff_eq] at hnormal herror
    rw [hnormal.2] at herror
    cases herror.2

/-- A hop is the only one from its source to its target. -/
theorem filter_leaving (hc : Checked steps hops) {h : Hop} (hmem : h ∈ hops) :
    (leaving hops h.source).filter (·.target == h.target) = [h] := by
  have hnodup := (nodup_leaving (hops_nodup hc) h.source).filter (·.target == h.target)
  refine List.perm_singleton.mp ?_
  refine (List.perm_ext_iff_of_nodup hnodup (List.nodup_singleton h)).mpr fun g => ?_
  rw [List.mem_filter, mem_leaving hc.errorSources, beq_iff_eq, List.mem_singleton]
  constructor
  · rintro ⟨⟨hg, hsource⟩, htarget⟩
    exact hop_of_ends hc hg hmem hsource htarget
  · rintro rfl
    exact ⟨⟨hmem, rfl⟩, rfl⟩

theorem nodup_outlets (hnodup : hops.Nodup) (copies : String → Nat) (step : String) (copy : Nat) :
    (wiringOf hops (linksOf copies hops) step copy).outlets.Nodup := by
  have hout : (wiringOf hops (linksOf copies hops) step copy).outlets =
      (leaving hops step).flatMap fun h => (branchOf (linksOf copies hops) copy h).rowSets := by
    show (wiringOf hops (linksOf copies hops) step copy).branches.flatMap (·.rowSets) = _
    rw [branches_wiringOf, List.flatMap_map]
  rw [hout]
  refine List.nodup_flatMap.mpr ⟨fun h _ => nodup_places _, ?_⟩
  exact (nodup_leaving hnodup step).imp fun hne i hi hi' => hne (hop_unique hi hi')

end Branches

section Links

variable {α β : Type}

/-- Only one element of a list has anything to it. -/
theorem flatMap_of_unique {xs : List α} {x : α} {f : α → List β} (hnodup : xs.Nodup) (hx : x ∈ xs)
    (h : ∀ y ∈ xs, y ≠ x → f y = []) : xs.flatMap f = f x := by
  induction xs with
  | nil => cases hx
  | cons y xs ih =>
    obtain ⟨hy, hnodup⟩ := List.nodup_cons.mp hnodup
    rw [List.flatMap_cons]
    by_cases heq : y = x
    · subst heq
      have hrest : xs.flatMap f = [] := by
        refine List.flatMap_eq_nil_iff.mpr fun z hz => h z (List.mem_cons_of_mem _ hz) ?_
        rintro rfl
        exact hy hz
      rw [hrest, List.append_nil]
    · rw [h y List.mem_cons_self heq, List.nil_append]
      exact ih hnodup ((List.mem_cons.mp hx).resolve_left (Ne.symm heq)) fun z hz =>
        h z (List.mem_cons_of_mem _ hz)

def targetsOf (n m copy : Nat) : List Nat := if n = m then [copy] else List.range m

theorem filter_ofHop {n m copy : Nat} (h : Hop) (hcopy : copy < n) :
    (Link.ofHop n m h).filter (fun l => l.hop == h && l.source == copy) =
      (targetsOf n m copy).map (⟨h, copy, ·⟩) := by
  have hlinks : ∀ i, (if n = m then [(⟨h, i, i⟩ : Link)] else (List.range m).map (⟨h, i, ·⟩)) =
      (targetsOf n m i).map (⟨h, i, ·⟩) := by
    intro i
    by_cases heq : n = m <;> simp [targetsOf, heq]
  simp only [Link.ofHop, hlinks, List.filter_flatMap]
  rw [flatMap_of_unique List.nodup_range (List.mem_range.mpr hcopy)]
  · simp [List.filter_map, Function.comp_def]
  · intro i _ hne
    simp [List.filter_map, Function.comp_def, hne]

theorem filter_links {copies : String → Nat} {hops : List Hop} (hnodup : hops.Nodup) {h : Hop}
    (hmem : h ∈ hops) {copy : Nat} (hcopy : copy < copies h.source) :
    ((linksOf copies hops).filter fun (l, _) => l.hop == h && l.source == copy).map (·.1) =
      (targetsOf (copies h.source) (copies h.target) copy).map (⟨h, copy, ·⟩) := by
  have hfst : ((linksOf copies hops).filter
      fun (l, _) => l.hop == h && l.source == copy).map (·.1) =
      ((linksOf copies hops).map (·.1)).filter fun l => l.hop == h && l.source == copy := by
    rw [List.filter_map]
    rfl
  rw [hfst, linksOf, List.zipIdx_map_fst, List.filter_flatMap, flatMap_of_unique hnodup hmem]
  · exact filter_ofHop h hcopy
  · intro g _ hne
    refine List.filter_eq_nil_iff.mpr fun l hl => ?_
    simp [(of_mem_ofHop hl).1, hne]

/-- The row sets of a branch lead to the copies of the target in their order. -/
theorem forall₂_branchOf {copies : String → Nat} {hops : List Hop} (hnodup : hops.Nodup) {h : Hop}
    (hmem : h ∈ hops) {copy : Nat} (hcopy : copy < copies h.source) :
    List.Forall₂
      (fun i j => j < copies h.target ∧ i ∈ inputsOf (linksOf copies hops) h.target j)
      (branchOf (linksOf copies hops) copy h).rowSets
      (targetsOf (copies h.source) (copies h.target) copy) := by
  have htargets := congrArg (List.map Link.target) (filter_links hnodup hmem hcopy)
  rw [List.map_map, List.map_map] at htargets
  have hid : Link.target ∘ (⟨h, copy, ·⟩) = (id : Nat → Nat) := rfl
  rw [hid, List.map_id] at htargets
  rw [← htargets]
  refine List.forall₂_map_left_iff.mpr (List.forall₂_map_right_iff.mpr (List.forall₂_same.mpr ?_))
  rintro ⟨l, i⟩ hl
  obtain ⟨hl, hlink⟩ := List.mem_filter.mp hl
  simp only [Bool.and_eq_true, beq_iff_eq] at hlink
  have htarget := congrArg Hop.target hlink.1
  exact ⟨htarget ▸ (of_mem_linksOf hl).2.2, mem_inputsOf.mpr ⟨l, hl, htarget, rfl⟩⟩

theorem length_ofHop (n m : Nat) (h : Hop) :
    (Link.ofHop n m h).length = if n = m then n else n * m := by
  by_cases heq : n = m
  · simp [Link.ofHop, heq]
  · simp [Link.ofHop, heq]

end Links

def wirings (p : Plan) : List CopyWiring := p.steps.flatMap (·.copies)

def copyCount (p : Plan) (name : String) : Nat :=
  ((p.steps.find? (·.definition.name == name)).map (·.copies.length)).getD 0

/-- A hop joins one step to another: each copy of the one has a branch for it, and no
second one, and the row sets of the branch lead to the copies of the other. -/
structure Spans (h : Hop) (s t : Step) : Prop where
  source : s.definition.name = h.source
  target : t.definition.name = h.target
  branch : ∀ (copy : Nat) (w : CopyWiring), s.copies[copy]? = some w →
    ∃ b, w.branches.filter (·.target == h.target) = [b] ∧
      (match h.kind with
        | .normal => b ∈ w.outputs
        | .error => w.errorOutput = some b) ∧
      List.Forall₂ (fun i j => ∃ v, t.copies[j]? = some v ∧ i ∈ v.inputs) b.rowSets
        (if s.copies.length = t.copies.length then [copy] else List.range t.copies.length)

/-- Every row set of the plan has one end at either side, and the branches are those of
the enabled hops. -/
structure Complete (d : Definition) (queueSize : Nat) (p : Plan) : Prop where
  names : (p.steps.map (·.definition.name)).Nodup
  copies : ∀ s ∈ p.steps, s.copies.length = s.definition.copies.toNat
  inputs : ((wirings p).flatMap (·.inputs)).Perm (List.range p.rowSets.length)
  outlets : ((wirings p).flatMap (·.outlets)).Perm (List.range p.rowSets.length)
  spans : ∀ h ∈ enabledHops d, ∃ s ∈ p.steps, ∃ t ∈ p.steps, Spans h s t
  only : ∀ s ∈ p.steps, ∀ w ∈ s.copies, ∀ b ∈ w.branches,
    ∃ h ∈ enabledHops d, h.source = s.definition.name ∧ h.target = b.target
  length : p.rowSets.length = ((enabledHops d).map fun h =>
    if copyCount p h.source = copyCount p h.target then copyCount p h.source
    else copyCount p h.source * copyCount p h.target).sum
  capacity : ∀ rs ∈ p.rowSets, rs.capacity = max queueSize 1
  hasErrorHop : ∀ s ∈ p.steps, s.hasErrorHop = true ↔
    ∃ h ∈ enabledHops d, h.source = s.definition.name ∧ h.kind = .error

section Wire

variable {steps : List StepDefinition} {hops : List Hop} {queueSize : Nat}

def copyKeys (steps : List StepDefinition) : List (String × Nat) :=
  steps.flatMap fun s => (List.range s.copies.toNat).map (s.name, ·)

theorem wirings_wire (steps : List StepDefinition) (hops : List Hop) (queueSize : Nat) :
    wirings (wire steps hops queueSize) =
      (copyKeys steps).map fun k => wiringOf hops (linksOf (copiesOf steps) hops) k.1 k.2 := by
  simp only [wirings, wire, copyKeys, List.flatMap_map, List.map_flatMap, List.map_map]
  rfl

theorem nodup_copyKeys (hnames : (steps.map (·.name)).Nodup) : (copyKeys steps).Nodup := by
  refine List.nodup_flatMap.mpr ⟨fun s _ => ?_, (List.pairwise_map.mp hnames).imp ?_⟩
  · exact List.nodup_range.map fun a b hab => (Prod.mk.inj hab).2
  · intro s t hne k hs ht
    obtain ⟨a, -, rfl⟩ := List.mem_map.mp hs
    obtain ⟨b, -, heq⟩ := List.mem_map.mp ht
    exact hne (Prod.mk.inj heq).1.symm

theorem mem_copyKeys (hnames : (steps.map (·.name)).Nodup) {name : String} {copy : Nat}
    (hname : name ∈ steps.map (·.name)) (hcopy : copy < copiesOf steps name) :
    (name, copy) ∈ copyKeys steps := by
  obtain ⟨s, hs, rfl⟩ := List.mem_map.mp hname
  rw [copiesOf_name hnames hs] at hcopy
  exact List.mem_flatMap.mpr ⟨s, hs, List.mem_map_of_mem (List.mem_range.mpr hcopy)⟩

theorem getElem?_copies_stepOf {ls : Links} {s : StepDefinition} {copy : Nat} :
    (stepOf hops ls s).copies[copy]? =
      if copy < s.copies.toNat then some (wiringOf hops ls s.name copy) else none := by
  show ((List.range s.copies.toNat).map (wiringOf hops ls s.name))[copy]? = _
  rw [List.getElem?_map]
  split
  · next hlt => rw [List.getElem?_range hlt, Option.map_some]
  · next hge => rw [List.getElem?_eq_none (by simpa using hge), Option.map_none]

theorem length_copies_stepOf (ls : Links) (s : StepDefinition) :
    (stepOf hops ls s).copies.length = s.copies.toNat := by
  simp [stepOf]

/-- Every copy has a place of its own. -/
theorem place_unique (hc : Checked steps hops) {a b : Nat} {x y : Place}
    (ha : (allPlaces (wire steps hops queueSize))[a]? = some x)
    (hb : (allPlaces (wire steps hops queueSize))[b]? = some y)
    (hname : x.1.definition.name = y.1.definition.name) (hcopy : x.2.1 = y.2.1) : a = b := by
  have hkeys : (allPlaces (wire steps hops queueSize)).map (fun x => (x.1.definition.name, x.2.1)) =
      copyKeys steps := by
    simp only [allPlaces_wire, copyKeys, List.map_flatMap, List.map_map]
    rfl
  have hnodup := nodup_copyKeys hc.names
  rw [← hkeys] at hnodup
  have hlt := (List.getElem?_eq_some_iff.mp ha).1
  refine (List.getElem?_inj (by simpa using hlt) hnodup).mp ?_
  rw [List.getElem?_map, List.getElem?_map, ha, hb, Option.map_some, Option.map_some, hname, hcopy]

/-- A row set is written to at one place. -/
theorem writer_unique (hc : Checked steps hops) {a b i : Nat} {x y : Place}
    (ha : (allPlaces (wire steps hops queueSize))[a]? = some x)
    (hb : (allPlaces (wire steps hops queueSize))[b]? = some y)
    (hi : i ∈ x.outlets) (hi' : i ∈ y.outlets) : a = b := by
  obtain ⟨s, -, copy, -, rfl⟩ := mem_allPlaces_wire.mp (List.mem_of_getElem? ha)
  obtain ⟨t, -, copy', -, rfl⟩ := mem_allPlaces_wire.mp (List.mem_of_getElem? hb)
  obtain ⟨l, hl, hname, hcopy⟩ := (mem_outlets_placeOf hc).mp hi
  obtain ⟨l', hl', hname', hcopy'⟩ := (mem_outlets_placeOf hc).mp hi'
  obtain rfl := link_unique hl hl'
  exact place_unique hc ha hb (hname.symm.trans hname') (hcopy.symm.trans hcopy')

/-- A row set is read from at one place. -/
theorem reader_unique (hc : Checked steps hops) {a b i : Nat} {x y : Place}
    (ha : (allPlaces (wire steps hops queueSize))[a]? = some x)
    (hb : (allPlaces (wire steps hops queueSize))[b]? = some y)
    (hi : i ∈ x.inputs) (hi' : i ∈ y.inputs) : a = b := by
  obtain ⟨s, -, copy, -, rfl⟩ := mem_allPlaces_wire.mp (List.mem_of_getElem? ha)
  obtain ⟨t, -, copy', -, rfl⟩ := mem_allPlaces_wire.mp (List.mem_of_getElem? hb)
  obtain ⟨l, hl, hname, hcopy⟩ := mem_inputsOf.mp hi
  obtain ⟨l', hl', hname', hcopy'⟩ := mem_inputsOf.mp hi'
  obtain rfl := link_unique hl hl'
  exact place_unique hc ha hb (hname.symm.trans hname') (hcopy.symm.trans hcopy')

theorem copyCount_wire (steps : List StepDefinition) (hops : List Hop) (queueSize : Nat)
    (name : String) : copyCount (wire steps hops queueSize) name = copiesOf steps name := by
  simp only [copyCount, wire, copiesOf, List.find?_map, Option.map_map, Function.comp_def,
    length_copies_stepOf]
  rfl

/-- A hop of a plan spans from the one step to the other. -/
theorem spans_stepOf (hc : Checked steps hops) {h : Hop} (hmem : h ∈ hops)
    {s t : StepDefinition} (hs : s ∈ steps) (ht : t ∈ steps) (hsource : s.name = h.source)
    (htarget : t.name = h.target) :
    Spans h (stepOf hops (linksOf (copiesOf steps) hops) s)
      (stepOf hops (linksOf (copiesOf steps) hops) t) := by
  have hn : copiesOf steps h.source = s.copies.toNat := hsource ▸ copiesOf_name hc.names hs
  have hm : copiesOf steps h.target = t.copies.toNat := htarget ▸ copiesOf_name hc.names ht
  refine ⟨hsource, htarget, fun copy w hw => ?_⟩
  rw [getElem?_copies_stepOf] at hw
  split at hw
  · next hlt =>
    cases hw
    rw [← hn] at hlt
    refine ⟨branchOf (linksOf (copiesOf steps) hops) copy h, ?_, ?_, ?_⟩
    · rw [branches_wiringOf, List.filter_map, hsource]
      exact congrArg (List.map _) (filter_leaving hc hmem)
    · rw [hsource]
      cases hkind : h.kind with
      | normal => exact mem_outputs.mpr ⟨h, hmem, rfl, hkind, rfl⟩
      | error => exact errorOutputOf_of_mem hc.errorSources hmem hkind
    · rw [length_copies_stepOf, length_copies_stepOf, ← hn, ← hm]
      refine (forall₂_branchOf (hops_nodup hc) hmem hlt).imp fun i j hij => ?_
      rw [hm, ← htarget] at hij
      exact ⟨_, getElem?_copies_stepOf.trans (if_pos hij.1), hij.2⟩
  · cases hw

/-- A plan that is wired of checked steps and hops is complete. -/
theorem complete_ofDefinition {d : Definition} {queueSize : Nat} {plan : Plan}
    (h : ofDefinition d queueSize = .ok plan) : Complete d queueSize plan := by
  obtain ⟨steps, -, hc, -, rfl⟩ := ofDefinition_ok h
  have hlength : (wire steps (enabledHops d) queueSize).rowSets.length =
      (linksOf (copiesOf steps) (enabledHops d)).length := by simp [wire]
  have hkeys := nodup_copyKeys hc.names
  constructor
  case names =>
    have hnames := hc.names
    rw [← definitions_wire steps (enabledHops d) queueSize, List.map_map] at hnames
    exact hnames
  case copies =>
    intro s hs
    obtain ⟨s, -, rfl⟩ := List.mem_map.mp hs
    exact length_copies_stepOf _ s
  case inputs =>
    rw [hlength, wirings_wire, List.flatMap_map]
    refine perm_range_of_keys (fun l => (l.hop.target, l.target)) hkeys
      (fun k => nodup_places _) (fun k i => ?_) fun l i hl => ?_
    · show i ∈ inputsOf _ k.1 k.2 ↔ _
      rw [mem_inputsOf]
      simp only [Prod.ext_iff]
    · obtain ⟨hmem, -, hcopy⟩ := of_mem_linksOf hl
      exact mem_copyKeys hc.names (hc.target _ hmem) hcopy
  case outlets =>
    rw [hlength, wirings_wire, List.flatMap_map]
    refine perm_range_of_keys (fun l => (l.hop.source, l.source)) hkeys
      (fun k => nodup_outlets (hops_nodup hc) _ k.1 k.2) (fun k i => ?_) fun l i hl => ?_
    · rw [mem_outlets hc.errorSources fun l i hl => (of_mem_linksOf hl).1]
      simp only [Prod.ext_iff]
    · obtain ⟨hmem, hcopy, -⟩ := of_mem_linksOf hl
      exact mem_copyKeys hc.names (hc.source _ hmem) hcopy
  case spans =>
    intro h hmem
    obtain ⟨s, hs, hsource⟩ := List.mem_map.mp (hc.source h hmem)
    obtain ⟨t, ht, htarget⟩ := List.mem_map.mp (hc.target h hmem)
    exact ⟨_, List.mem_map_of_mem hs, _, List.mem_map_of_mem ht,
      spans_stepOf hc hmem hs ht hsource htarget⟩
  case only =>
    intro s hs w hw b hb
    obtain ⟨s, -, rfl⟩ := List.mem_map.mp hs
    obtain ⟨copy, -, rfl⟩ := List.mem_map.mp hw
    have hbranches : b ∈ (wiringOf (enabledHops d) (linksOf (copiesOf steps) (enabledHops d))
      s.name copy).branches := hb
    rw [branches_wiringOf] at hbranches
    obtain ⟨hop, hhop, rfl⟩ := List.mem_map.mp hbranches
    obtain ⟨hmem, hsource⟩ := (mem_leaving hc.errorSources).mp hhop
    exact ⟨hop, hmem, hsource, rfl⟩
  case length =>
    rw [hlength, linksOf, List.length_zipIdx, List.length_flatMap]
    simp only [length_ofHop, copyCount_wire]
  case capacity =>
    intro rs hrs
    obtain ⟨l, -, rfl⟩ := List.mem_map.mp hrs
    rfl
  case hasErrorHop =>
    intro s hs
    obtain ⟨s, -, rfl⟩ := List.mem_map.mp hs
    simp only [stepOf, List.any_eq_true, Bool.and_eq_true, beq_iff_eq]

end Wire

/-- Two copies that deal to three others, and reject to two, one each. -/
def forked : Definition where
  name := "forked"
  steps := [{ name := "source", plugin := "RowGenerator", copies := 2 },
    { name := "sink", plugin := "Dummy", copies := 3 },
    { name := "rejects", plugin := "Dummy", copies := 2 }]
  hops := [{ source := "source", target := "sink" },
    { source := "source", target := "rejects", kind := .error }]

theorem complete_ofDefinition_forked :
    ∃ plan, ofDefinition forked 5 = .ok plan ∧ plan.rowSets.length = 8 ∧
      Complete forked 5 plan :=
  ⟨_, rfl, rfl, complete_ofDefinition rfl⟩

end Plan
end RowFlow
