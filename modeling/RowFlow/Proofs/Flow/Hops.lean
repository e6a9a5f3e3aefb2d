import RowFlow.Proofs.Flow.AtEnd

/-
Rows on hops.  The row sets of a hop are written to by the copies of its source and read
from by the copies of its target, and by no others.  So at the end of a run what the
copies of the source have sent along the hop is what the copies of the target have taken
from it.
-/
namespace RowFlow

namespace Account

def takenFrom (a : Account) (rowSets : List Nat) : List Row :=
  (a.takes.filter fun x => x.1 ∈ rowSets).map (·.2)

def taken (a : Account) : List Row := a.takes.map (·.2)

/-- The rows that were sent along the hops of a kind. -/
def emitted (a : Account) : HopKind → List Row
  | .normal => a.sent
  | .error => a.rejected

end Account

def Run.placesOf (r : Run) (step : String) : Finset Nat :=
  (Finset.range r.net.copies.length).filter fun place =>
    (r.net.copies[place]?.map (·.own.info.name)) = some step

def Run.outletsOf (r : Run) (step : String) : List Nat :=
  (r.net.copies.filter (·.own.info.name == step)).flatMap (·.own.outlets)

/-- Rows that the copies of a step have on account. -/
def Record.rowsOf (t : Record) (step : String) (f : Account → List Row) : Multiset Row :=
  ∑ place ∈ t.run.placesOf step, (f (.ofPast (t.past place)) : Multiset Row)

namespace Flow

open Run

def along (rowSets : List Nat) : Multiset (Nat × Row) →+ Multiset Row where
  toFun m := (m.filter fun x => x.1 ∈ rowSets).map (·.2)
  map_zero' := rfl
  map_add' m m' := by rw [Multiset.filter_add, Multiset.map_add]

section Along

variable {rowSets rowSets' : List Nat} {moves : List (Nat × Row)}

theorem along_coe (rowSets : List Nat) (moves : List (Nat × Row)) :
    along rowSets moves = ((moves.filter fun x => x.1 ∈ rowSets).map (·.2) : List Row) := rfl

theorem along_congr (h : ∀ x ∈ moves, x.1 ∈ rowSets ↔ x.1 ∈ rowSets') :
    along rowSets moves = along rowSets' moves := by
  rw [along_coe, along_coe, List.filter_congr fun x hx => decide_eq_decide.mpr (h x hx)]

theorem along_eq_zero (h : ∀ x ∈ moves, x.1 ∉ rowSets) : along rowSets moves = 0 := by
  rw [along_coe, List.filter_eq_nil_iff.mpr fun x hx => by simpa using h x hx]
  rfl

end Along

/-- A copy as the plan has it: which links it reads and writes, and its branch for each hop
that leaves its step. -/
structure OnPlan (hops : List Hop) (ls : Plan.Links) (copy : Nat) (l : Local) : Prop where
  inputs : ∀ i, i ∈ l.inputs ↔
    ∃ k, (k, i) ∈ ls ∧ k.hop.target = l.info.name ∧ k.target = copy
  outlets : ∀ i, i ∈ l.outlets ↔
    ∃ k, (k, i) ∈ ls ∧ k.hop.source = l.info.name ∧ k.source = copy
  output : ∀ h ∈ hops, h.source = l.info.name → h.kind = .normal →
    ∃ b ∈ l.origin.outputs, b.rowSets = (Plan.branchOf ls copy h).rowSets
  errorOutput : ∀ h ∈ hops, h.source = l.info.name → h.kind = .error →
    ∃ b ∈ l.origin.errorOutput, b.rowSets = (Plan.branchOf ls copy h).rowSets

def hopRowSets (ls : Plan.Links) (h : Hop) : List Nat :=
  Plan.places (ls.filter fun (l, _) => l.hop == h)

theorem mem_hopRowSets {ls : Plan.Links} {h : Hop} {i : Nat} :
    i ∈ hopRowSets ls h ↔ ∃ l, (l, i) ∈ ls ∧ l.hop = h := by
  unfold hopRowSets
  rw [Plan.mem_places (p := fun l => l.hop == h)]
  simp only [beq_iff_eq]

section Copies

variable {steps : List StepDefinition} {hops : List Hop} {copy : Nat} {p : Position} {h : Hop}

/-- What a copy of the source has sent along the hop. -/
theorem along_gives (hp : OnPlan hops (Plan.linksOf (Plan.copiesOf steps) hops) copy p.own)
    (hw : Wired p) (hsquare : Account.Square p.own.origin p.account) (hmem : h ∈ hops)
    (hsource : h.source = p.own.info.name) :
    along (hopRowSets (Plan.linksOf (Plan.copiesOf steps) hops) h) p.account.gives =
      p.account.emitted h.kind := by
  have hbranch : along (hopRowSets (Plan.linksOf (Plan.copiesOf steps) hops) h) p.account.gives =
      along (Plan.branchOf (Plan.linksOf (Plan.copiesOf steps) hops) copy h).rowSets
        p.account.gives := by
    refine along_congr fun x hx => ?_
    rw [mem_hopRowSets, Plan.mem_branchOf]
    constructor
    · rintro ⟨l, hl, rfl⟩
      obtain ⟨k, hk, -, hcopy⟩ := (hp.outlets x.1).mp (hw.gives x hx)
      rw [Plan.link_unique hk hl] at hcopy
      exact ⟨l, hl, rfl, hcopy⟩
    · rintro ⟨l, hl, rfl, -⟩
      exact ⟨l, hl, rfl⟩
  rw [hbranch]
  cases hkind : h.kind with
  | normal =>
    obtain ⟨b, hb, hrows⟩ := hp.output h hmem hsource hkind
    rw [← hrows]
    exact congrArg _ (hsquare.outputs b hb)
  | error =>
    obtain ⟨b, hb, hrows⟩ := hp.errorOutput h hmem hsource hkind
    rw [← hrows]
    exact congrArg _ (hsquare.errorOutput b hb)

/-- Copies of other steps have no part in it. -/
theorem along_gives_of_ne (hp : OnPlan hops (Plan.linksOf (Plan.copiesOf steps) hops) copy p.own)
    (hw : Wired p) (hsource : p.own.info.name ≠ h.source) :
    along (hopRowSets (Plan.linksOf (Plan.copiesOf steps) hops) h) p.account.gives = 0 := by
  refine along_eq_zero fun x hx hin => hsource ?_
  obtain ⟨k, hk, hname, -⟩ := (hp.outlets x.1).mp (hw.gives x hx)
  obtain ⟨l, hl, rfl⟩ := mem_hopRowSets.mp hin
  rw [← hname, Plan.link_unique hk hl]

theorem along_takes_of_ne (hp : OnPlan hops (Plan.linksOf (Plan.copiesOf steps) hops) copy p.own)
    (hw : Wired p) (htarget : p.own.info.name ≠ h.target) :
    along (hopRowSets (Plan.linksOf (Plan.copiesOf steps) hops) h) p.account.takes = 0 := by
  refine along_eq_zero fun x hx hin => htarget ?_
  obtain ⟨k, hk, hname, -⟩ := (hp.inputs x.1).mp (hw.takes x hx)
  obtain ⟨l, hl, rfl⟩ := mem_hopRowSets.mp hin
  rw [← hname, Plan.link_unique hk hl]

end Copies

/-- A run at its end in which every copy is wired as the plan says and nothing is left to
take. -/
structure Drained (steps : List StepDefinition) (hops : List Hop) (t : Record) : Prop where
  checked : Plan.Checked steps hops
  balanced : total t (·.gives) = total t (·.takes)
  copies : ∀ (place : Nat) (c : Copy), t.run.net.copies[place]? = some c →
    (∃ copy, OnPlan hops (Plan.linksOf (Plan.copiesOf steps) hops) copy c.own) ∧
      Wired (t.position place c) ∧ Account.Square c.own.origin (t.position place c).account
  writers : ∀ l i, (l, i) ∈ Plan.linksOf (Plan.copiesOf steps) hops →
    ∃ c ∈ t.run.net.copies, c.own.info.name = l.hop.source ∧ i ∈ c.own.outlets

section Sums

variable {t : Record} {step : String}

theorem mem_placesOf {r : Run} {place : Nat} :
    place ∈ r.placesOf step ↔ ∃ c, r.net.copies[place]? = some c ∧ c.own.info.name = step := by
  simp only [Run.placesOf, Finset.mem_filter, Finset.mem_range, Option.map_eq_some_iff]
  constructor
  · exact fun h => h.2
  · rintro ⟨c, hc, hname⟩
    exact ⟨(List.getElem?_eq_some_iff.mp hc).1, c, hc, hname⟩

/-- A sum to which only the copies of one step contribute. -/
theorem sum_placesOf {r : Run} {f g : Nat → Multiset Row}
    (hin : ∀ (place : Nat) (c : Copy), r.net.copies[place]? = some c → c.own.info.name = step →
      f place = g place)
    (hout : ∀ (place : Nat) (c : Copy), r.net.copies[place]? = some c → c.own.info.name ≠ step →
      f place = 0) :
    ∑ place ∈ Finset.range r.net.copies.length, f place = ∑ place ∈ r.placesOf step, g place := by
  have hsub : r.placesOf step ⊆ Finset.range r.net.copies.length := Finset.filter_subset _ _
  rw [← Finset.sum_subset hsub]
  · refine Finset.sum_congr rfl fun place hplace => ?_
    obtain ⟨c, hc, hname⟩ := mem_placesOf.mp hplace
    exact hin place c hc hname
  · intro place hrange hnot
    have hc := List.getElem?_eq_getElem (Finset.mem_range.mp hrange)
    exact hout place _ hc fun hname => hnot (mem_placesOf.mpr ⟨_, hc, hname⟩)

theorem mem_outletsOf {r : Run} {i : Nat} :
    i ∈ r.outletsOf step ↔ ∃ c ∈ r.net.copies, c.own.info.name = step ∧ i ∈ c.own.outlets := by
  simp only [Run.outletsOf, List.mem_flatMap, List.mem_filter, beq_iff_eq]
  constructor
  · rintro ⟨c, ⟨hmem, hname⟩, hi⟩
    exact ⟨c, hmem, hname, hi⟩
  · rintro ⟨c, hmem, hname, hi⟩
    exact ⟨c, ⟨hmem, hname⟩, hi⟩

theorem along_total (rowSets : List Nat) (f : Account → List (Nat × Row)) :
    along rowSets (total t f) = ∑ place ∈ Finset.range t.run.net.copies.length,
      along rowSets (f (.ofPast (t.past place))) :=
  map_sum (along rowSets) _ _

end Sums

namespace Drained

variable {steps : List StepDefinition} {hops : List Hop} {t : Record} {h : Hop}
  (ht : Drained steps hops t) (hmem : h ∈ hops)
include ht hmem

/-- What a copy of the target has taken from the hop. -/
theorem along_takes {place : Nat} {c : Copy} (hc : t.run.net.copies[place]? = some c)
    (htarget : c.own.info.name = h.target) :
    along (hopRowSets (Plan.linksOf (Plan.copiesOf steps) hops) h)
        (Account.ofPast (t.past place)).takes =
      (Account.ofPast (t.past place)).takenFrom (t.run.outletsOf h.source) := by
  obtain ⟨⟨copy, hp⟩, hw, -⟩ := ht.copies place c hc
  rw [Account.takenFrom, ← along_coe]
  refine along_congr fun x hx => ?_
  rw [mem_hopRowSets, mem_outletsOf]
  constructor
  · rintro ⟨l, hl, rfl⟩
    exact ht.writers l x.1 hl
  · rintro ⟨c', hc', hsource, hi⟩
    obtain ⟨place', hplace'⟩ := List.mem_iff_getElem?.mp hc'
    obtain ⟨⟨copy', hp'⟩, -, -⟩ := ht.copies place' c' hplace'
    obtain ⟨l, hl, hsource', -⟩ := (hp'.outlets x.1).mp hi
    obtain ⟨l', hl', htarget', -⟩ := (hp.inputs x.1).mp (hw.takes x hx)
    obtain rfl := Plan.link_unique hl hl'
    exact ⟨l, hl, Plan.hop_of_ends ht.checked (Plan.of_mem_linksOf hl).1 hmem
      (hsource'.trans hsource) (htarget'.trans htarget)⟩

/-- The rows that the copies of the target have taken from a hop are those that the copies
of the source have sent along it. -/
theorem rows : t.rowsOf h.target (·.takenFrom (t.run.outletsOf h.source)) =
    t.rowsOf h.source (·.emitted h.kind) := by
  let rowSets := hopRowSets (Plan.linksOf (Plan.copiesOf steps) hops) h
  calc t.rowsOf h.target (·.takenFrom (t.run.outletsOf h.source))
      = ∑ place ∈ Finset.range t.run.net.copies.length,
          along rowSets (Account.ofPast (t.past place)).takes := by
        refine (sum_placesOf (fun place c hc hname => ht.along_takes hmem hc hname) ?_).symm
        intro place c hc hname
        obtain ⟨⟨copy, hp⟩, hw, -⟩ := ht.copies place c hc
        exact along_takes_of_ne (p := t.position place c) hp hw hname
    _ = along rowSets (total t (·.takes)) := (along_total rowSets _).symm
    _ = along rowSets (total t (·.gives)) := by rw [ht.balanced]
    _ = ∑ place ∈ Finset.range t.run.net.copies.length,
          along rowSets (Account.ofPast (t.past place)).gives := along_total rowSets _
    _ = t.rowsOf h.source (·.emitted h.kind) := by
        refine sum_placesOf ?_ ?_
        · intro place c hc hname
          obtain ⟨⟨copy, hp⟩, hw, hsquare⟩ := ht.copies place c hc
          exact along_gives (p := t.position place c) hp hw hsquare hmem hname.symm
        · intro place c hc hname
          obtain ⟨⟨copy, hp⟩, hw, -⟩ := ht.copies place c hc
          exact along_gives_of_ne (p := t.position place c) hp hw hname

end Drained

end Flow
end RowFlow
