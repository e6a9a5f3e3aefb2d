import RowFlow.Proofs.Closing.Watch
import RowFlow.Proofs.Determinacy.Start
import RowFlow.Proofs.Run.Diary

/-
The calls to close row sets in a course of a run.  How far a copy has come with the end of
its outputs says which it has closed: at first none, then one after the other, and all of
them at the end (`Tells`).  So a copy closes none of its outlets twice, and since no other
copy writes to them, no row set is closed twice at all (`nodup_closings`).
-/
namespace RowFlow

structure CloseCall where
  rowSet : Nat
  succeeded : Bool
deriving DecidableEq, Repr

def Doing.closing? : Doing → Option CloseCall
  | act (.close i) b => some ⟨i, b⟩
  | _ => none

namespace Run

def closing? (r : Run) : Event → Option CloseCall
  | .copy place => (doing? place r (.copy place)).bind Doing.closing?
  | _ => none

def closings (r : Run) (events : List Event) : List CloseCall := r.along closing? events

def closingsAt (r : Run) (events : List Event) (place : Nat) : List CloseCall :=
  (r.did events place).filterMap Doing.closing?

variable {r : Run} {e : Event} {events : List Event} {place : Nat} {x : CloseCall}

theorem closing?_eq_some (h : r.closing? e = some x) :
    ∃ place d, doing? place r e = some d ∧ d.closing? = some x := by
  cases e with
  | copy place =>
    obtain ⟨d, hd, hx⟩ := Option.bind_eq_some_iff.mp h
    exact ⟨place, d, hd, hx⟩
  | _ => cases h

/-- A call to close a row set is one of the copy that moves. -/
theorem closing?_of_doing? {d : Doing} (hd : doing? place r e = some d) :
    r.closing? e = d.closing? := by
  obtain ⟨c, -, hdoes⟩ := exists_does hd
  obtain rfl := hdoes.event
  rw [closing?, hd, Option.bind_some]

theorem closings_concat (r : Run) (events : List Event) (e : Event) :
    r.closings (events ++ [e]) = r.closings events ++ ((r.after events).closing? e).toList :=
  along_concat _ _ _ _

/-- Only copies of the run close anything. -/
theorem exists_copy_of_mem_closingsAt (h : x ∈ r.closingsAt events place) :
    ∃ c, (r.after events).net.copies[place]? = some c := by
  obtain ⟨d, hd, -⟩ := List.mem_filterMap.mp h
  obtain ⟨past, e, hdoing⟩ := exists_of_mem_along hd
  obtain ⟨c, hc, -⟩ := exists_does hdoing
  have hlt := (List.getElem?_eq_some_iff.mp hc).1
  rw [length_copies_after, ← length_copies_after r events] at hlt
  exact ⟨_, List.getElem?_eq_getElem hlt⟩

theorem mem_closings :
    x ∈ r.closings events ↔ ∃ place, x ∈ r.closingsAt events place := by
  induction events generalizing r with
  | nil => simp [closings, closingsAt, did, along]
  | cons e rest ih =>
    have hcons : ∀ place, r.closingsAt (e :: rest) place =
        (doing? place r e).toList.filterMap Doing.closing? ++ (r.happen e).closingsAt rest place :=
      fun _ => List.filterMap_append
    have hhead : r.closing? e = some x ↔
        ∃ place, x ∈ (doing? place r e).toList.filterMap Doing.closing? := by
      constructor
      · intro hx
        obtain ⟨place, d, hd, hdx⟩ := closing?_eq_some hx
        exact ⟨place, by simp [hd, hdx]⟩
      · rintro ⟨place, hx⟩
        obtain ⟨d, hd, hdx⟩ := List.mem_filterMap.mp hx
        rw [closing?_of_doing? (Option.mem_toList.mp hd), hdx]
    simp only [closings, along, List.mem_append, Option.mem_toList, hcons] at ih ⊢
    rw [hhead, ih, exists_or]

end Run

namespace Closing

open Run

variable {x z : Stand} {d : Doing} {p q : Position} {l l' : Local} {ds : List Doing}

/-- What a copy is told of itself, and which row sets it has closed so far. -/
def Tells (x : Stand) (l : Local) (closed : List Nat) : Prop :=
  match x with
  | .pending os => l.outputDone = false ∧ os = l.outlets ∧ closed = []
  | .closing rest => l.outputDone = true ∧ closed ++ rest = l.outlets
  | .lost => False

def closed (ds : List Doing) : List Nat := (ds.filterMap Doing.closing?).map (·.rowSet)

theorem closed_append (ds es : List Doing) : closed (ds ++ es) = closed ds ++ closed es := by
  rw [closed, List.filterMap_append, List.map_append, ← closed, ← closed]

theorem Tells.knows {closed : List Nat} (h : Tells x l closed) : x.Knows l := by
  cases x with
  | lost => trivial
  | _ => exact h.1

theorem Tells.same {closed : List Nat} (h : Tells x l closed) (hdone : l'.outputDone = l.outputDone)
    (houtlets : l'.outlets = l.outlets) : Tells x l' closed := by
  unfold Tells at h ⊢
  rw [hdone, houtlets]
  exact h

/-- Of its outputs a copy remembers what it does itself. -/
theorem outputDone_of_leads (h : d.Leads p q) (hd : d.node ≠ .act .endOutput) :
    q.own.outputDone = p.own.outputDone := by
  cases h with
  | @act a p v l s h =>
    cases a with
    | endOutput => exact absurd rfl hd
    | choose outlet =>
      cases h
      cases outlet <;> rfl
    | hold =>
      simp only [Action.perform, Prod.mk.injEq] at h
      obtain ⟨-, rfl, -⟩ := h
      rfl
    | _ =>
      cases h
      rfl
  | _ => rfl

theorem closing?_of_aside (h : Aside d.node) : d.closing? = none := by
  cases d with
  | act a v =>
    cases a with
    | close i => exact absurd h id
    | _ => rfl
  | _ => rfl

theorem Tells.next (h : Tells x p.own (closed ds)) (hn : x.Next d z) (hl : d.Leads p q) :
    Tells z q.own (closed (ds ++ [d])) := by
  have houtlets : q.own.outlets = p.own.outlets := Local.outlets_of_origin hl.origin
  rw [closed_append]
  cases hn with
  | aside ha =>
    have hdone := outputDone_of_leads hl fun he => by rw [he] at ha; exact ha
    rw [show closed [d] = [] by simp [closed, closing?_of_aside ha], List.append_nil]
    exact h.same hdone houtlets
  | @own _ l hk =>
    rw [show closed [.act .own l] = [] from rfl, List.append_nil]
    exact h.same (outputDone_of_leads hl (by simp [Doing.node])) houtlets
  | @lose _ l hk =>
    obtain rfl : p.own = l := Option.some.inj (congrArg Prod.fst hl.perform.1)
    exact absurd h.knows hk
  | ends =>
    obtain ⟨-, hos, hnone⟩ := h
    have hown : q.own = { p.own with outputDone := true } :=
      (congrArg (·.2.1) hl.perform.1).symm
    rw [hown, hnone, hos]
    exact ⟨rfl, rfl⟩
  | @closes i rest v =>
    obtain ⟨hdone, hrest⟩ := h
    refine ⟨(outputDone_of_leads hl (by simp [Doing.node])).trans hdone, ?_⟩
    rw [houtlets, ← hrest, show closed [.act (.close i) v] = [i] from rfl, List.append_assoc]
    rfl
  | lost => exact absurd h id

/-- A copy closes its outlets in their order. -/
theorem Tells.isPrefix {closed : List Nat} (h : Tells x l closed) : closed <+: l.outlets := by
  cases x with
  | pending os => exact h.2.2 ▸ List.nil_prefix
  | closing rest => exact ⟨rest, h.2⟩
  | lost => exact absurd h id

theorem Tells.rests {closed : List Nat} (h : Tells x l closed) (hrests : l.Rests l') :
    Tells x l' closed := by
  obtain ⟨_, _, _, rfl⟩ := hrests
  exact h.same rfl rfl

variable {d : Definition} {registry : Registry} {config : Config} {plan : Plan} {r : Run}
  {events : List Event} {place : Nat} {c : Copy}

/-- At any time a copy stands somehow with the end of its outputs, and has closed them as far
as that. -/
theorem exists_tells (h : Made d registry config plan r) (events : List Event)
    (hc : (r.after events).net.copies[place]? = some c) :
    ∃ x, regime.Obeys c x ∧ Tells x c.own ((r.closingsAt events place).map (·.rowSet)) := by
  obtain ⟨c₀, hc₀, -⟩ := becomes_after events hc
  have hmem := List.mem_of_getElem? hc₀
  obtain ⟨info, inputs, outputs, errorOutput, hfresh⟩ := h.own_fresh hmem
  have hseam : regime.seam c₀.op c₀.own.origin .created (.pending c₀.own.outlets) :=
    (Local.outlets_origin c₀.own).symm
  have hstart : Tells (.pending c₀.own.outlets) c₀.own (closed []) := by
    rw [hfresh]
    exact ⟨rfl, rfl, rfl⟩
  obtain ⟨x, hminds, htells⟩ := minded_did lawful_regime (F := fun x l ds => Tells x l (closed ds))
    (fun _ _ _ _ => Tells.rests) (fun _ _ _ _ _ _ => Tells.next) hc₀
    (h.minds hmem c₀.op.asks_all hseam id) hstart events c hc
  exact ⟨x, hminds.obeys, htells⟩

/-- A copy closes only what it writes to, and each row set once. -/
theorem closingsAt_outlets (h : Made d registry config plan r) (events : List Event)
    (place : Nat) : ((r.closingsAt events place).map (·.rowSet)).Nodup ∧
      ∀ y ∈ r.closingsAt events place, y.rowSet ∈ r.outletsAt place := by
  cases hnone : r.closingsAt events place with
  | nil => simp
  | cons y rest =>
    obtain ⟨c, hc⟩ := exists_copy_of_mem_closingsAt (hnone ▸ List.mem_cons_self)
    obtain ⟨c₀, hc₀, hbecomes⟩ := becomes_after events hc
    obtain ⟨x, -, htells⟩ := exists_tells h events hc
    have houtlets : c.own.outlets = r.outletsAt place := by
      rw [outletsAt_of_getElem? hc₀, Local.outlets_of_origin hbecomes.origin]
    have hpast := htells.isPrefix
    rw [houtlets, hnone] at hpast
    refine ⟨hpast.sublist.nodup ?_, fun y hy => hpast.subset (List.mem_map_of_mem hy)⟩
    rw [outletsAt_of_getElem? hc₀]
    exact h.nodup_outlets hc₀

/-- No row set is closed twice, not even in vain: its writer does not, and nobody else
closes it. -/
theorem nodup_closings (h : Made d registry config plan r) (events : List Event) :
    ((r.closings events).map (·.rowSet)).Nodup := by
  induction events using List.reverseRecOn with
  | nil => exact List.nodup_nil
  | append_singleton events e ih =>
    rw [closings_concat]
    cases hx : (r.after events).closing? e with
    | none => simpa using ih
    | some x =>
      obtain ⟨place, d, hd, hdx⟩ := closing?_eq_some hx
      have hlast : r.closingsAt (events ++ [e]) place = r.closingsAt events place ++ [x] := by
        rw [closingsAt, did, along_concat, hd, List.filterMap_append]
        simp [closingsAt, did, hdx]
      obtain ⟨hnodup, hwrites⟩ := closingsAt_outlets h (events ++ [e]) place
      rw [hlast] at hnodup hwrites
      rw [Option.toList_some, List.map_append]
      refine List.nodup_append.mpr ⟨ih, List.nodup_singleton _, ?_⟩
      rintro i hi j hj rfl
      obtain ⟨y, hy, rfl⟩ := List.mem_map.mp hi
      have hsame : x.rowSet = y.rowSet := (List.mem_singleton.mp hj).symm
      -- The one who has closed it before is the same copy.
      obtain ⟨place', hy'⟩ := mem_closings.mp hy
      have hx' := hwrites x (List.mem_append_right _ List.mem_cons_self)
      obtain rfl := h.writer_unique (hsame ▸ hx') ((closingsAt_outlets h events place').2 y hy')
      rw [List.map_append] at hnodup
      exact (List.nodup_append.mp hnodup).2.2 _ (List.mem_map_of_mem hy') x.rowSet
        List.mem_cons_self hsame.symm

end Closing
end RowFlow
