import RowFlow.Proofs.Determinacy.Ledger
import RowFlow.Proofs.Plan.Ends

/-
Runs as they are made: a row set has one writer and one reader, and before anything has
happened the trades of the copies agree with the row sets.  How much space there is in
the row sets has no part in what the copies are.
-/
namespace RowFlow

/-- Plans for other queue sizes differ in the space of the row sets alone. -/
theorem Plan.ofDefinition_resize (d : Definition) (queueSize queueSize' : Nat) :
    ofDefinition d queueSize' = (ofDefinition d queueSize).map fun p =>
      { p with rowSets := p.rowSets.map fun rs => .new rs.name queueSize' } := by
  unfold ofDefinition
  split
  · rfl
  · split
    · rfl
    · simp [wire, Except.map, RowSet.new]

namespace Run

def inputsAt (r : Run) (place : Nat) : List Nat :=
  (r.net.copies[place]?.map (·.own.inputs)).getD []

def outletsAt (r : Run) (place : Nat) : List Nat :=
  (r.net.copies[place]?.map (·.own.outlets)).getD []

def nameOf (r : Run) (i : Nat) : String := (r.rowSets[i]?.map (·.name)).getD ""

section At

variable {r : Run} {place i : Nat} {c : Copy}

theorem inputsAt_of_getElem? (h : r.net.copies[place]? = some c) :
    r.inputsAt place = c.own.inputs := by
  simp [inputsAt, h]

theorem outletsAt_of_getElem? (h : r.net.copies[place]? = some c) :
    r.outletsAt place = c.own.outlets := by
  simp [outletsAt, h]

theorem exists_of_mem_inputsAt (h : i ∈ r.inputsAt place) :
    ∃ c, r.net.copies[place]? = some c ∧ i ∈ c.own.inputs := by
  unfold inputsAt at h
  cases hc : r.net.copies[place]? with
  | none => simp [hc] at h
  | some c => exact ⟨c, rfl, by simpa [hc] using h⟩

theorem exists_of_mem_outletsAt (h : i ∈ r.outletsAt place) :
    ∃ c, r.net.copies[place]? = some c ∧ i ∈ c.own.outlets := by
  unfold outletsAt at h
  cases hc : r.net.copies[place]? with
  | none => simp [hc] at h
  | some c => exact ⟨c, rfl, by simpa [hc] using h⟩

end At

namespace Made

variable {d : Definition} {registry : Registry} {config : Config} {plan : Plan} {r : Run}

theorem reader_unique (h : Made d registry config plan r) {i b b' : Nat}
    (hb : i ∈ r.inputsAt b) (hb' : i ∈ r.inputsAt b') : b = b' := by
  obtain ⟨steps, -, hc, -, hplan⟩ := Plan.ofDefinition_ok h.planned
  subst hplan
  obtain ⟨c, hcopy, hi⟩ := exists_of_mem_inputsAt hb
  obtain ⟨c', hcopy', hi'⟩ := exists_of_mem_inputsAt hb'
  obtain ⟨x, hx, hplaced⟩ := h.isPlaced [] hcopy
  obtain ⟨y, hy, hplaced'⟩ := h.isPlaced [] hcopy'
  exact Plan.reader_unique hc hx hy (hplaced.inputs ▸ hi) (hplaced'.inputs ▸ hi')

theorem writer_unique (h : Made d registry config plan r) {i a a' : Nat}
    (ha : i ∈ r.outletsAt a) (ha' : i ∈ r.outletsAt a') : a = a' := by
  obtain ⟨steps, -, hc, -, hplan⟩ := Plan.ofDefinition_ok h.planned
  subst hplan
  obtain ⟨c, hcopy, hi⟩ := exists_of_mem_outletsAt ha
  obtain ⟨c', hcopy', hi'⟩ := exists_of_mem_outletsAt ha'
  obtain ⟨x, hx, hplaced⟩ := h.isPlaced [] hcopy
  obtain ⟨y, hy, hplaced'⟩ := h.isPlaced [] hcopy'
  exact Plan.writer_unique hc hx hy (hplaced.outlets ▸ hi) (hplaced'.outlets ▸ hi')

theorem exists_writer (h : Made d registry config plan r) {i b : Nat} (hb : i ∈ r.inputsAt b) :
    ∃ a < b, i ∈ r.outletsAt a := by
  obtain ⟨c, hcopy, hi⟩ := exists_of_mem_inputsAt hb
  obtain ⟨a, hlt, c', hcopy', hi'⟩ := (h.joined []).writer b c hcopy i hi
  exact ⟨a, hlt, (outletsAt_of_getElem? hcopy').symm ▸ hi'⟩

def wires (h : Made d registry config plan r)
    (hlone : ∀ c ∈ r.net.copies, c.own.inputs.length ≤ 1) : Wires where
  inputs := r.inputsAt
  outlets := r.outletsAt
  names := r.nameOf
  lone b := by
    unfold inputsAt
    cases hc : r.net.copies[b]? with
    | none => exact Nat.zero_le 1
    | some c => exact hlone c (List.mem_of_getElem? hc)
  reader := h.reader_unique
  writer := h.writer_unique
  source := h.exists_writer

theorem rowSet_fresh (h : Made d registry config plan r) {i : Nat} {rs : RowSet}
    (hrs : r.net.shared.rowSets[i]? = some rs) :
    rs.buffer = [] ∧ rs.closed = false ∧ rs.detached = false := by
  obtain ⟨steps, -, -, -, hplan⟩ := Plan.ofDefinition_ok h.planned
  rw [h.shared, hplan] at hrs
  obtain ⟨l, -, rfl⟩ := List.mem_map.mp (List.mem_of_getElem? hrs)
  exact ⟨rfl, rfl, rfl⟩

theorem exists_rowSet (h : Made d registry config plan r) {a i : Nat} (ha : i ∈ r.outletsAt a) :
    ∃ rs, r.net.shared.rowSets[i]? = some rs := by
  obtain ⟨steps, -, hc, -, hplan⟩ := Plan.ofDefinition_ok h.planned
  subst hplan
  obtain ⟨c, hcopy, hi⟩ := exists_of_mem_outletsAt ha
  obtain ⟨x, hx, hplaced⟩ := h.isPlaced [] hcopy
  obtain ⟨s, -, copy, -, rfl⟩ := Plan.mem_allPlaces_wire.mp (List.mem_of_getElem? hx)
  obtain ⟨l, hl, -⟩ := (Plan.mem_outlets_placeOf hc).mp (hplaced.outlets ▸ hi)
  have hlt : i < r.net.shared.rowSets.length := by
    rw [h.shared]
    simpa [Plan.wire] using Plan.exists_mem_linksOf.mp ⟨l, hl⟩
  exact ⟨_, List.getElem?_eq_getElem hlt⟩

/-- A copy writes to each of its row sets once. -/
theorem nodup_outlets (h : Made d registry config plan r) {a : Nat} {c : Copy}
    (hc : r.net.copies[a]? = some c) : c.own.outlets.Nodup := by
  obtain ⟨steps, -, hchecked, -, hplan⟩ := Plan.ofDefinition_ok h.planned
  subst hplan
  obtain ⟨x, hx, hplaced⟩ := h.isPlaced [] hc
  obtain ⟨s, -, copy, -, rfl⟩ := Plan.mem_allPlaces_wire.mp (List.mem_of_getElem? hx)
  rw [hplaced.outlets]
  exact Plan.nodup_outlets (Plan.hops_nodup hchecked) _ _ _

theorem books (h : Made d registry config plan r)
    (hlone : ∀ c ∈ r.net.copies, c.own.inputs.length ≤ 1) :
    (h.wires hlone).Books (fun _ => []) r.net.shared.rowSets where
  found := by
    intro a i ha
    obtain ⟨rs, hrs⟩ := h.exists_rowSet ha
    refine ⟨rs, hrs, ?_, by simp [(h.rowSet_fresh hrs).2.1]⟩
    show rs.name = r.nameOf i
    simp [nameOf, rowSets, hrs]
  queue := by
    intro a b i rs _ _ hrs
    exact ⟨[], by rw [(h.rowSet_fresh hrs).1]; rfl, fun _ => rfl⟩
  elsewhere := fun _ => rfl
  sources := fun _ => rfl

theorem fits (h : Made d registry config plan r)
    (hlone : ∀ c ∈ r.net.copies, c.own.inputs.length ≤ 1) {place : Nat} {c : Copy}
    (hc : r.net.copies[place]? = some c) (hop : c.op.Secluded) :
    (h.wires hlone).Fits (fun _ => []) r.net.shared.rowSets place c c := by
  have hmem := List.mem_of_getElem? hc
  obtain ⟨info, inputs, outputs, errorOutput, hown⟩ := h.own_fresh hmem
  obtain ⟨x, hmade⟩ := h.isMade hmem
  have htask : c.task.Secluded c.own.origin ∧ c.task.Late ∧ c.task.Strict := by
    have hkind := hmade.kind
    obtain ⟨op, own, task⟩ := c
    cases task with
    | created => exact ⟨trivial, trivial, trivial⟩
    | _ => cases hkind
  constructor
  case made => rfl
  case op => exact hop
  case inputs => exact (inputsAt_of_getElem? hc).symm
  case outlets => exact (outletsAt_of_getElem? hc).symm
  case pending =>
    rw [hown]
    exact List.Sublist.refl _
  case secluded => exact htask.1
  case parted =>
    intro i _ rs hrs hleft
    rw [(h.rowSet_fresh hrs).2.2] at hleft
    cases hleft
  case ended =>
    intro hdone
    rw [hown] at hdone
    cases hdone
  case late => exact .inl htask.2.1
  case strict => exact fun _ => htask.2.2
  case fate =>
    refine .inr ⟨0, fun rows rest n _ hrows => ?_⟩
    rw [hrows]
    rfl

/-- Before anything has happened everything agrees. -/
theorem agrees (h : Made d registry config plan r)
    (hlone : ∀ c ∈ r.net.copies, c.own.inputs.length ≤ 1)
    (hops : ∀ c ∈ r.net.copies, c.op.Secluded) :
    ({ run := r } : Ledger).Agrees (h.wires hlone) r where
  calm := ⟨by simp [h.phase], by simp [h.stops]⟩
  books := h.books hlone
  copies _ c hc := ⟨c, hc, h.fits hlone hc (hops c (List.mem_of_getElem? hc))⟩

end Made

/-- Two runs of a definition have the same copies and the same names of row sets, however
they are configured. -/
theorem make_config {d : Definition} {registry : Registry} {config config' : Config} {r r' : Run}
    (h : make d registry config = .ok r) (h' : make d registry config' = .ok r') :
    r'.net.copies = r.net.copies ∧ r'.nameOf = r.nameOf := by
  unfold make at h h'
  split at h
  · cases h
  split at h'
  · cases h'
  rw [Plan.ofDefinition_resize d config.queueSize.toNat] at h'
  split at h
  · cases h
  next plan hplan =>
  rw [hplan] at h'
  simp only [Except.map, makeCopies] at h h'
  split at h
  · cases h
  next copies hcopies =>
  rw [hcopies] at h'
  cases h
  cases h'
  refine ⟨rfl, funext fun i => ?_⟩
  simp only [nameOf, rowSets, List.getElem?_map, Option.map_map]
  rfl

end Run
end RowFlow
