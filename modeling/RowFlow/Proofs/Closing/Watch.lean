import RowFlow.Proofs.Copy.Steady

/-
The end of the outputs under watch.  A copy closes no row set before it ends its outputs.
When it does it closes each of them, one after the other, and after that none.  It knows
by a flag of its own whether it has ended them, so it does not end them twice, however
often it is asked to and by whom: by the code of its operator, as it leaves, or as it is
given up.

The watch loses track of a copy that is told of a flag that does not fit to what it has
done.  This does not come to pass, but that is nothing a program could tell by itself: it
takes what the copy has done together with where it stands (`Tells`).
-/
namespace RowFlow
namespace Closing

inductive Stand where
  /-- These are to be closed at the end. -/
  | pending (outlets : List Nat)
  /-- The end has begun, and these are still open. -/
  | closing (rest : List Nat)
  | lost

/-- What neither ends the outputs nor asks about that. -/
def Aside : Node → Prop
  | .act .own => False
  | .act .endOutput => False
  | .act (.close _) => False
  | _ => True

def Stand.Knows (l : Local) : Stand → Prop
  | pending _ => l.outputDone = false
  | closing _ => l.outputDone = true
  | lost => True

inductive Stand.Next : Stand → Doing → Stand → Prop
  | aside {x : Stand} {d : Doing} (h : Aside d.node) : Next x d x
  | own {x : Stand} {l : Local} (h : x.Knows l) : Next x (.act .own l) x
  | lose {x : Stand} {l : Local} (h : ¬ x.Knows l) : Next x (.act .own l) lost
  | ends {outlets : List Nat} {v : Unit} :
      Next (pending outlets) (.act .endOutput v) (closing outlets)
  | closes {i : Nat} {rest : List Nat} {v : Bool} :
      Next (closing (i :: rest)) (.act (.close i) v) (closing rest)
  | lost {d : Doing} : Next lost d lost

namespace Stand

def Rests (outlets : List Nat) : Stand → Prop
  | pending os => os = outlets
  | closing rest => rest = []
  | lost => True

def Ended : Stand → Prop
  | pending _ => False
  | closing rest => rest = []
  | lost => True

theorem Ended.rests {x : Stand} (h : x.Ended) (outlets : List Nat) : x.Rests outlets := by
  cases x with
  | pending os => exact absurd h id
  | _ => exact h

end Stand

def watch : Watch := .plain Stand Stand.Next fun _ => False

theorem lawful_watch : watch.Lawful := Watch.lawful_plain fun _ _ _ hd => hd.elim

section Programs

open Program

variable {α : Type} {o : Local} {x : Stand} {H : Stand → Prop}

/-- Of a copy that it has lost the watch expects anything. -/
theorem heeds_lost (p : Program α) : p.Heeds watch o (fun _ y => y = Stand.lost) Stand.lost := by
  refine stays_within (w := watch) (Watch.lasts_plain _) (fun d y _ hy => ?_) (within_all p) _ rfl
  subst hy
  exact ⟨.lost, .lost, rfl⟩

theorem heeds_closeAll (rest : List Nat) :
    (closeAll rest).Heeds watch o (fun _ y => y = .closing []) (.closing rest) := by
  induction rest with
  | nil => exact heeds_pure rfl
  | cons i rest ih => exact heeds_act fun _ _ => ⟨.closing rest, .closes, ih⟩

/-- Wherever the outputs are all open or all closed, they are all closed afterwards. -/
theorem heeds_endOutput (hx : x.Rests o.outlets) :
    endOutput.Heeds watch o (fun _ => Stand.Ended) x := by
  have hlose : ∀ {p : Program Unit}, p.Heeds watch o (fun _ => Stand.Ended) .lost :=
    (heeds_lost _).mono fun _ y hy => by rw [hy]; trivial
  refine heeds_act (a := .own) fun l hl => ?_
  by_cases hknows : x.Knows l
  · refine ⟨x, .own hknows, ?_⟩
    cases x with
    | pending os =>
      obtain rfl : os = o.outlets := hx
      have houtlets : l.outlets = o.outlets := by
        rw [← Local.outlets_origin l, show l.origin = o from hl]
      rw [if_neg (by rw [show l.outputDone = false from hknows]; simp), houtlets]
      refine heeds_act fun _ _ => ⟨.closing o.outlets, .ends, ?_⟩
      exact (heeds_closeAll _).mono fun _ y hy => by rw [hy]; rfl
    | closing rest =>
      rw [if_pos (show l.outputDone = true from hknows)]
      exact heeds_pure hx
    | lost => exact hlose
  · exact ⟨.lost, .lose hknows, hlose⟩

/-- Besides the end of its outputs a copy moves on only if it is lost. -/
theorem exists_next {d : Doing} (hd : d.node = .act .own ∨ Aside d.node) (hlost : H .lost)
    (hx : H x) : ∃ y, x.Next d y ∧ H y := by
  rcases hd with hd | hd
  · cases d with
    | act a l =>
      obtain rfl : a = .own := by simpa [Doing.node] using hd
      by_cases hknows : x.Knows l
      · exact ⟨x, .own hknows, hx⟩
      · exact ⟨.lost, .lose hknows, hlost⟩
    | _ => cases hd
  · exact ⟨x, .aside hd, hx⟩

theorem aside_fails {n : Node} (h : n.Fails) : Aside n := by
  cases h with
  | limit h => cases h <;> trivial
  | _ => trivial

theorem aside_outer {n : Node} (h : n.Outer) : n = .act .own ∨ Aside n := by
  cases h with
  | own => exact .inl rfl
  | error h => exact .inr (aside_fails h)
  | fails step h => exact .inr (by cases h <;> trivial)
  | _ => exact .inr trivial

theorem aside_parts {q : Request} {n : Node} (hq : q ≠ .endOutput) (h : q.Parts n) :
    n = .act .own ∨ Aside n := by
  cases h with
  | endOwn | ends | closes i => exact absurd rfl hq
  | putOwn row | rejectOwn row d | look => exact .inl rfl
  | error h | rejectFails row d h => exact .inr (aside_fails h)
  | putLimit row h | stop h | errorLimit k h | rowLimit k h =>
    exact .inr (by cases h <;> trivial)
  | _ => exact .inr trivial

theorem preserves_watch (hlost : H .lost) (hends : endOutput.Stays watch o H) :
    watch.Preserves o (fun _ => True) H :=
  .of_parts (· = .endOutput) lawful_watch (Watch.lasts_plain _)
    (fun _ _ hd hx => exists_next hd hlost hx) (fun _ => aside_outer)
    (fun _ _ _ hq => aside_parts hq) (fun _ hq => hq ▸ hends) (fun _ _ => trivial) trivial

end Programs

/-- Until it leaves a copy may end its outputs, and when it is gone it has. -/
def regime : Regime watch :=
  .parting _ (fun _ => True) (fun o => Stand.Rests o.outlets) fun _ => Stand.Ended

theorem lawful_regime : regime.Lawful :=
  Regime.lawful_parting lawful_watch
    (fun _ => preserves_watch trivial fun _ hx =>
      (heeds_endOutput hx).mono fun _ _ hy => hy.rests _)
    (fun o => preserves_watch trivial fun _ hx => heeds_endOutput (hx.rests o.outlets))
    fun _ _ hx => heeds_endOutput hx

end Closing
end RowFlow
