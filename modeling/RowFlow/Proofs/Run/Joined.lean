import RowFlow.Proofs.Run.Made

/-
How the copies of a run are joined.  Whatever happens to a run, each of its copies keeps
its operator and stays wired as the plan says, and its row sets keep their capacity.  So
what a copy reads is written by a copy before it in the plan, and what it writes is read
by a copy after it.
-/
namespace RowFlow

structure Copy.Becomes (c c' : Copy) : Prop where
  op : c'.op = c.op
  origin : c'.own.origin = c.own.origin

namespace Copy

theorem Becomes.refl (c : Copy) : c.Becomes c := ⟨rfl, rfl⟩

theorem Becomes.trans {c c' c'' : Copy} (h : c.Becomes c') (h' : c'.Becomes c'') :
    c.Becomes c'' :=
  ⟨h'.op.trans h.op, h'.origin.trans h.origin⟩

theorem op_step (c : Copy) (s : Shared) : (c.step s).1.op = c.op := by
  obtain ⟨op, own, task⟩ := c
  cases task with
  | beginning p =>
    cases p with
    | done a =>
      obtain ⟨m, r⟩ := a
      cases r <;> rfl
    | _ => rfl
  | working p =>
    cases p with
    | done a =>
      obtain ⟨m, t⟩ := a
      cases t <;> rfl
    | _ => rfl
  | leaving p => cases p <;> rfl
  | _ => rfl

theorem becomes_step (c : Copy) (s : Shared) : c.Becomes (c.step s).1 := by
  refine ⟨c.op_step s, ?_⟩
  rcases c.step_leads [] s with hsame | ⟨n, -, hl⟩
  · rw [show (c.step s).1.own = c.own from congrArg Position.own hsame]
  · exact hl.origin

theorem becomes_toBegin (c : Copy) : c.Becomes c.toBegin := by
  obtain ⟨op, own, task⟩ := c
  cases task <;> exact ⟨rfl, rfl⟩

theorem becomes_toWork (c : Copy) : c.Becomes c.toWork := by
  obtain ⟨op, own, task⟩ := c
  cases task <;> exact ⟨rfl, rfl⟩

theorem becomes_toAbandon (c : Copy) : c.Becomes c.toAbandon := by
  obtain ⟨op, own, task⟩ := c
  cases task <;> exact ⟨rfl, rfl⟩

end Copy

namespace Run

variable {r : Run} {place : Nat} {c' : Copy}

/-- An event leaves every copy what it is. -/
theorem becomes_happen {e : Event} (h : (r.happen e).net.copies[place]? = some c') :
    ∃ c, r.net.copies[place]? = some c ∧ c.Becomes c' := by
  have he := r.effect_happen e
  revert he h
  generalize r.happen e = r'
  intro h he
  cases he with
  | copy moved =>
    obtain ⟨c, hc, ⟨-, rfl⟩ | ⟨-, rfl⟩⟩ := Staged.getElem?_copies_step h
    · exact ⟨_, hc, .refl _⟩
    · exact ⟨c, hc, c.becomes_step _⟩
  | prepare _ =>
    obtain ⟨c, hc, rfl⟩ := Staged.getElem?_modifyAll h
    exact ⟨c, hc, c.becomes_toBegin⟩
  | start _ =>
    obtain ⟨c, hc, rfl⟩ := Staged.getElem?_modifyAll h
    exact ⟨c, hc, c.becomes_toWork⟩
  | abandon _ _ _ =>
    obtain ⟨c, hc, rfl | ⟨-, rfl⟩⟩ := Staged.getElem?_modify h
    · exact ⟨_, hc, .refl _⟩
    · exact ⟨c, hc, c.becomes_toAbandon⟩
  | stopCancel _ =>
    obtain ⟨c, hc, rfl | ⟨-, rfl⟩⟩ := Staged.getElem?_modify h
    · exact ⟨_, hc, .refl _⟩
    · exact ⟨c, hc, rfl, rfl⟩
  | _ => exact ⟨c', h, .refl c'⟩

theorem becomes_after (events : List Event) (h : (r.after events).net.copies[place]? = some c') :
    ∃ c, r.net.copies[place]? = some c ∧ c.Becomes c' := by
  induction events generalizing r with
  | nil => exact ⟨c', h, .refl c'⟩
  | cons e rest ih =>
    obtain ⟨c₁, hc₁, h₁⟩ := ih h
    obtain ⟨c, hc, h₀⟩ := becomes_happen hc₁
    exact ⟨c, hc, h₀.trans h₁⟩

theorem shared_le_after (r : Run) (events : List Event) :
    r.net.shared ≤ (r.after events).net.shared := by
  induction events generalizing r with
  | nil => exact le_refl _
  | cons e rest ih => exact le_trans (r.shared_le_happen e) (ih (r.happen e))

@[simp] theorem length_copies_after (r : Run) (events : List Event) :
    (r.after events).net.copies.length = r.net.copies.length := by
  induction events generalizing r with
  | nil => rfl
  | cons e rest ih => exact (ih (r.happen e)).trans (r.length_copies_happen e)

structure IsPlaced (registry : Registry) (x : Plan.Place) (c : Copy) : Prop where
  operator : registry.create x.1.definition.plugin (infoOf x.1 x.2.1) = .ok c.op
  origin : c.own.origin =
    (Local.fresh (infoOf x.1 x.2.1) x.2.2.inputs x.2.2.outputs x.2.2.errorOutput).origin

namespace IsPlaced

variable {registry : Registry} {x : Plan.Place} {c : Copy} (h : IsPlaced registry x c)
include h

theorem inputs : c.own.inputs = x.inputs := Local.inputs_of_origin h.origin

theorem outlets : c.own.outlets = x.outlets := Local.outlets_of_origin h.origin

theorem info : c.own.info = infoOf x.1 x.2.1 := Local.info_of_origin h.origin

end IsPlaced

namespace Made

variable {d : Definition} {registry : Registry} {config : Config} {plan : Plan}

/-- The copies stay where the plan has placed them. -/
theorem isPlaced (h : Made d registry config plan r) (events : List Event)
    (hc : (r.after events).net.copies[place]? = some c') :
    ∃ x, plan.allPlaces[place]? = some x ∧ IsPlaced registry x c' := by
  obtain ⟨c, hc₀, hbecomes⟩ := becomes_after events hc
  obtain ⟨hlt, hget⟩ := List.getElem?_eq_some_iff.mp hc₀
  have hlt' : place < plan.allPlaces.length := by
    rw [h.copies.length_eq]
    exact hlt
  have hmade := h.copies.get hlt' hlt
  simp only [List.get_eq_getElem, hget] at hmade
  refine ⟨_, List.getElem?_eq_getElem hlt', ?_, ?_⟩
  · rw [hbecomes.op]
    exact hmade.operator
  · rw [hbecomes.origin, hmade.own]

theorem exists_isPlaced (h : Made d registry config plan r) (events : List Event)
    {x : Plan.Place} (hx : plan.allPlaces[place]? = some x) :
    ∃ c, (r.after events).net.copies[place]? = some c ∧ IsPlaced registry x c := by
  have hlt : place < (r.after events).net.copies.length := by
    rw [length_copies_after, ← h.copies.length_eq]
    exact (List.getElem?_eq_some_iff.mp hx).1
  have hc := List.getElem?_eq_getElem hlt
  obtain ⟨x', hx', hplaced⟩ := h.isPlaced events hc
  obtain rfl : x = x' := Option.some.inj (hx.symm.trans hx')
  exact ⟨_, hc, hplaced⟩

end Made

/-- What a copy reads is written before it, what it writes is read after it, and there is
space for a row at least. -/
structure Joined (r : Run) : Prop where
  writer : ∀ (b : Nat) (c : Copy), r.net.copies[b]? = some c → ∀ i ∈ c.own.inputs,
    ∃ a < b, ∃ c' : Copy, r.net.copies[a]? = some c' ∧ i ∈ c'.own.outlets
  reader : ∀ (a : Nat) (c : Copy), r.net.copies[a]? = some c → ∀ i ∈ c.own.outlets,
    ∃ b, a < b ∧ ∃ c' : Copy, r.net.copies[b]? = some c' ∧ i ∈ c'.own.inputs
  space : ∀ (i : Nat) (rs : RowSet), r.net.shared.rowSets[i]? = some rs → 0 < rs.capacity

theorem Made.joined {d : Definition} {registry : Registry} {config : Config} {plan : Plan}
    (h : Made d registry config plan r) (events : List Event) : (r.after events).Joined := by
  obtain ⟨steps, -, hc, ho, hplan⟩ := Plan.ofDefinition_ok h.planned
  subst hplan
  constructor
  · intro b c hb i hi
    obtain ⟨y, hy, hplaced⟩ := h.isPlaced events hb
    rw [hplaced.inputs] at hi
    obtain ⟨x, hx, hix⟩ := Plan.exists_writer hc (List.mem_of_getElem? hy) hi
    obtain ⟨a, ha⟩ := List.mem_iff_getElem?.mp hx
    obtain ⟨c', hc', hplaced'⟩ := h.exists_isPlaced events ha
    exact ⟨a, Plan.lt_of_mem hc ho ha hy hix hi, c', hc', hplaced'.outlets ▸ hix⟩
  · intro a c ha i hi
    obtain ⟨x, hx, hplaced⟩ := h.isPlaced events ha
    rw [hplaced.outlets] at hi
    obtain ⟨y, hy, hiy⟩ := Plan.exists_reader hc (List.mem_of_getElem? hx) hi
    obtain ⟨b, hb⟩ := List.mem_iff_getElem?.mp hy
    obtain ⟨c', hc', hplaced'⟩ := h.exists_isPlaced events hb
    exact ⟨b, Plan.lt_of_mem hc ho hx hb hi hiy, c', hc', hplaced'.inputs ▸ hiy⟩
  · intro i rs hrs
    obtain ⟨rs₀, hrs₀, hle⟩ := Shared.Le.rowSet_before (r.shared_le_after events) hrs
    rw [h.shared] at hrs₀
    obtain ⟨l, -, rfl⟩ := List.mem_map.mp (List.mem_of_getElem? hrs₀)
    rw [RowSet.Le.capacity hle]
    exact Nat.lt_of_lt_of_le Nat.zero_lt_one (Nat.le_max_right _ _)

end Run
end RowFlow
