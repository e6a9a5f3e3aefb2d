import RowFlow.Proofs.Refusal.Attempts
import RowFlow.Proofs.Refusal.Tallies

/-
Runs that cannot start.  Each copy whose hook for the start keeps to itself has one way to
begin only, so it is known of a run that was just made which copies will fail, which of them
comes first (`Run.refusalAhead?`) and for which reason the run will be stopped
(`Run.reasonAhead`).  In whatever order the copies then begin, this is how it comes
(`foreseen_after`), unless the run is stopped from outside meanwhile.
-/
namespace RowFlow

open Doing

theorem Control.reaches_mono {limit : Option Nat} {m n : Nat} (h : m ≤ n)
    (hm : reaches limit m = true) : reaches limit n = true := by
  cases limit with
  | none => cases hm
  | some l => exact decide_eq_true (Nat.le_trans (of_decide_eq_true hm) h)

namespace Doing.OneError

variable {ds : List Doing} {y : StopReason} {n : Nat} {t : Tally} {v : Unit}

theorem reason (h : OneError ds) (hy : .act (.giveReason y) v ∈ ds) :
    y = .errorLimit ∧ ∃ t, .act (.countErrors 1) t ∈ ds ∧ t.reached = true := by
  cases h with
  | below hbelow =>
    cases List.mem_singleton.mp hy
  | @limit t first hreached =>
    refine ⟨?_, t, List.mem_cons_self, hreached⟩
    simp only [List.mem_cons, List.not_mem_nil, or_false] at hy
    rcases hy with hy | hy | hy
    · cases hy
    · cases hy
      rfl
    · cases hy

theorem limit_of_reached (h : OneError ds) (ht : .act (.countErrors n) t ∈ ds)
    (hreached : t.reached = true) : .act (.giveReason .errorLimit) () ∈ ds := by
  cases h with
  | below hbelow =>
    cases List.mem_singleton.mp ht
    rw [hreached] at hbelow
    cases hbelow
  | limit _ => exact List.mem_cons_of_mem _ List.mem_cons_self

end Doing.OneError

namespace Copy

/-- How the copy is going to be refused, if it cannot start. -/
def refusalAhead? (c : Copy) : Option Refusal :=
  c.failure?.map fun f => ⟨c.own.info.name, .initFailed c.own.info.name f.message⟩

def Heard (c : Copy) (ds : List Doing) : Prop :=
  match c.failure? with
  | none => ds.filter controls = []
  | some _ => OneError (ds.filter controls)

variable {c : Copy} {ds : List Doing}

theorem Heard.errorsTold (h : c.Heard ds) : errorsTold ds = c.failure?.isSome.toNat := by
  rw [← errorsTold_filter]
  cases hf : c.failure? with
  | none =>
    rw [Heard, hf] at h
    rw [h]
    rfl
  | some f =>
    rw [Heard, hf] at h
    exact h.errorsTold

/-- It gives a reason only when a tally has reached the limit. -/
theorem Heard.reason (h : c.Heard ds) {y : StopReason} (hy : .act (.giveReason y) () ∈ ds) :
    y = .errorLimit ∧ ∃ t, .act (.countErrors 1) t ∈ ds ∧ t.reached = true := by
  have hy' := List.mem_filter (p := controls) |>.mpr ⟨hy, rfl⟩
  cases hf : c.failure? with
  | none =>
    rw [Heard, hf] at h
    rw [h] at hy'
    cases hy'
  | some f =>
    rw [Heard, hf] at h
    obtain ⟨hreason, t, ht, hreached⟩ := h.reason hy'
    exact ⟨hreason, t, List.mem_of_mem_filter ht, hreached⟩

theorem Heard.limit_of_reached (h : c.Heard ds) {n : Nat} {t : Tally}
    (ht : .act (.countErrors n) t ∈ ds) (hreached : t.reached = true) :
    .act (.giveReason .errorLimit) () ∈ ds := by
  have ht' := List.mem_filter (p := controls) |>.mpr ⟨ht, rfl⟩
  cases hf : c.failure? with
  | none =>
    rw [Heard, hf] at h
    rw [h] at ht'
    cases ht'
  | some f =>
    rw [Heard, hf] at h
    exact List.mem_of_mem_filter (h.limit_of_reached ht' hreached)

namespace Begun

variable {result : Except Fault Unit} {status : Status} (h : c.Begun ds result status)
include h

theorem heard : c.Heard ds := by
  cases h with
  | ready hnone hds =>
    rw [Heard, hnone]
    exact hds
  | refused hsome hds =>
    rw [Heard, hsome]
    exact hds

theorem refusal : ((faultOf? result).map fun f => (⟨c.own.info.name, f⟩ : Refusal)) =
    c.refusalAhead? := by
  cases h with
  | ready hnone _ =>
    rw [refusalAhead?, hnone]
    rfl
  | refused hsome _ =>
    rw [refusalAhead?, hsome]
    rfl

/-- A copy that has begun and is given up is stopped. -/
theorem outcome : (if status.state = .initialized then some .stopped else status.outcome) =
    some (if c.failure?.isSome then Outcome.failed else .stopped) := by
  cases h with
  | ready hnone _ =>
    rw [hnone]
    rfl
  | refused hsome _ =>
    rw [hsome]
    rfl

end Begun

structure HasBegun (c₀ : Copy) (ds : List Doing) (c : Copy) : Prop where
  refusal : (c.refusal?.map fun fault => (⟨c.own.info.name, fault⟩ : Refusal)) = c₀.refusalAhead?
  heard : c₀.Heard ds

theorem hasBegun_of_attempts {c₀ c : Copy} (hbecomes : c₀.Becomes c) (hfresh : c₀.own.status = {})
    (hending : c₀.ending?.isSome = true) (hbegun : c.hasBegun = true)
    (h : c.task.Attempts c₀.own ds c.own) : c₀.HasBegun ds c := by
  have hname : c.own.info.name = c₀.own.info.name :=
    congrArg StepInfo.name (Local.info_of_origin hbecomes.origin)
  obtain ⟨op₀, own₀, t₀⟩ := c₀
  obtain ⟨op, own, task⟩ := c
  obtain rfl : op = op₀ := hbecomes.op
  cases task with
  | ready s =>
    obtain ⟨hb, -⟩ := Program.begun_of_runs (c := ⟨op, own₀, t₀⟩) hfresh hending h
    exact ⟨hb.refusal, hb.heard⟩
  | refused s f =>
    obtain ⟨hb, -⟩ := Program.begun_of_runs (c := ⟨op, own₀, t₀⟩) hfresh hending h
    refine ⟨?_, hb.heard⟩
    rw [← hb.refusal]
    show some _ = some _
    rw [hname]
  | _ => cases hbegun

end Copy

namespace Run

def refusalAhead? (r : Run) : Option Refusal := r.net.copies.findSome? Copy.refusalAhead?

def failures (r : Run) : Nat := r.net.copies.countP (·.failure?.isSome)

/-- The reason for which a run that cannot start will be stopped. -/
def reasonAhead (r : Run) (x : Refusal) : StopReason :=
  if Control.reaches r.control.maxErrors r.failures then .errorLimit else .stepFailed x.step

variable {d : Definition} {registry : Registry} {config : Config} {plan : Plan} {r : Run}
  {events : List Event}

section Begun

variable (hmade : Made d registry config plan r)
  (hstarts : ∀ c ∈ r.net.copies, c.ending?.isSome = true)
  (hbegun : (r.after events).net.haveAllBegun = true)
  (hwork : (r.after events).phase.atWork = false)
include hmade hstarts hbegun hwork

theorem hasBegun_after {place : Nat} {c₀ : Copy} (hc₀ : r.net.copies[place]? = some c₀) :
    ∃ c, (r.after events).net.copies[place]? = some c ∧ c₀.HasBegun (r.did events place) c := by
  have hlt : place < (r.after events).net.copies.length := by
    rw [length_copies_after]
    exact (List.getElem?_eq_some_iff.mp hc₀).1
  have hc := List.getElem?_eq_getElem hlt
  have hmem := List.mem_of_getElem? hc₀
  obtain ⟨c₁, hc₁, hbecomes⟩ := becomes_after events hc
  obtain rfl := Option.some.inj (hc₀.symm.trans hc₁)
  obtain ⟨_, _, _, _, hown⟩ := hmade.own_fresh hmem
  refine ⟨_, hc, Copy.hasBegun_of_attempts hbecomes (by rw [hown]; rfl) (hstarts _ hmem)
    (List.all_eq_true.mp hbegun _ (List.mem_of_getElem? hc)) ?_⟩
  exact attempts_after hmade.staged hc₀ (hmade.isMade hmem).choose_spec.kind events hwork _ hc

/-- It is always the same copy that comes first. -/
theorem refusal?_of_begun : (r.after events).refusal? = r.refusalAhead? := by
  have hmap : (r.after events).net.copies.map
      (fun c => c.refusal?.map fun fault => (⟨c.own.info.name, fault⟩ : Refusal)) =
      r.net.copies.map Copy.refusalAhead? := by
    refine List.ext_getElem? fun place => ?_
    rw [List.getElem?_map, List.getElem?_map]
    cases hc₀ : r.net.copies[place]? with
    | none =>
      rw [List.getElem?_eq_none_iff, ← r.length_copies_after events,
        ← List.getElem?_eq_none_iff] at hc₀
      rw [hc₀]
      rfl
    | some c₀ =>
      obtain ⟨c, hc, h⟩ := hasBegun_after hmade hstarts hbegun hwork hc₀
      rw [hc]
      exact congrArg some h.refusal
  have hsome := congrArg (List.findSome? id) hmap
  rw [List.findSome?_map, List.findSome?_map] at hsome
  exact hsome

theorem heard_of_begun {place : Nat} {y : Doing} (hy : y ∈ r.did events place) :
    ∃ c₀ : Copy, c₀.Heard (r.did events place) := by
  cases hc₀ : r.net.copies[place]? with
  | none =>
    rw [did_of_absent hc₀] at hy
    cases hy
  | some c₀ =>
    obtain ⟨c, -, h⟩ := hasBegun_after hmade hstarts hbegun hwork hc₀
    exact ⟨c₀, h.heard⟩

/-- Each copy that cannot start counts once. -/
theorem errors_of_begun : (r.after events).control.errors = r.failures := by
  have hnone : r.control.errors = 0 := by
    rw [control, hmade.shared]
    rfl
  rw [(tallied_after hnone events).errors, failures, ← sum_toNat]
  refine sum_range_length fun place c₀ hc₀ => ?_
  obtain ⟨c, -, h⟩ := hasBegun_after hmade hstarts hbegun hwork hc₀
  exact h.heard.errorsTold

/-- Whether the limit was reached is told by the number of those that cannot start, though each
copy that counted was told of some number only. -/
theorem reason_of_begun (hsome : r.failures ≠ 0)
    (hgiven : ∀ y ∈ r.given events, ∃ place, .act (.giveReason y) () ∈ r.did events place) :
    (r.after events).control.reason =
      if Control.reaches r.control.maxErrors r.failures then some .errorLimit else none := by
  have hcontrol : r.control.reason = none ∧ r.control.errors = 0 := by
    rw [control, hmade.shared]
    exact ⟨rfl, rfl⟩
  have htallied := tallied_after hcontrol.2 events
  have herrors := errors_of_begun hmade hstarts hbegun hwork
  have hlimit : ∀ y ∈ r.given events, y = .errorLimit ∧
      Control.reaches r.control.maxErrors r.failures = true := by
    intro y hy
    obtain ⟨place, hdid⟩ := hgiven y hy
    obtain ⟨c₀, hheard⟩ := heard_of_begun hmade hstarts hbegun hwork hdid
    obtain ⟨rfl, t, ht, hreached⟩ := hheard.reason hdid
    obtain ⟨hle, htally⟩ := htallied.tally place 1 t ht
    rw [herrors] at hle
    exact ⟨rfl, Control.reaches_mono hle (htally ▸ hreached)⟩
  rw [reason_after, hcontrol.1, Option.none_or]
  split
  · next hreaches =>
    obtain ⟨place, n, t, ht, htotal⟩ := htallied.last (herrors ▸ hsome)
    have hreached : t.reached = true := by
      rw [(htallied.tally place n t ht).2, htotal, herrors]
      exact hreaches
    obtain ⟨c₀, hheard⟩ := heard_of_begun hmade hstarts hbegun hwork ht
    have hmem := given_of_did (hheard.limit_of_reached ht hreached)
    obtain ⟨y, rest, hcons⟩ := List.exists_cons_of_ne_nil (List.ne_nil_of_mem hmem)
    have hhead : y ∈ r.given events := hcons ▸ List.mem_cons_self
    rw [hcons, (hlimit y hhead).1]
    rfl
  · next hbelow =>
    cases hcons : r.given events with
    | nil => rfl
    | cons y rest => exact absurd (hlimit y (hcons ▸ List.mem_cons_self)).2 hbelow

end Begun

section Foreseen

/-- Nobody asks from outside for the run to be stopped. -/
theorem stops_happen {q : Run} {e : Event} (h : q.stops = []) (hcalm : e ≠ .requestStop) :
    (q.happen e).stops = [] := by
  have he := q.effect_happen e
  generalize q.happen e = q' at he
  cases he with
  | requestStop => exact absurd rfl hcalm
  | stopReason hs | stopFlag hs | stopOn hs _ | stopCancel hs =>
    rw [h] at hs
    cases hs
  | _ => exact h

theorem stops_after (h : r.stops = []) (hcalm : .requestStop ∉ events) :
    (r.after events).stops = [] := by
  induction events using List.reverseRecOn with
  | nil => exact h
  | append_singleton events e ih =>
    rw [after_concat]
    refine stops_happen (ih fun hmem => hcalm (List.mem_append_left _ hmem)) fun he => ?_
    exact hcalm (List.mem_append_right _ (List.mem_singleton.mpr he.symm))

def GivenByCopies (r : Run) (events : List Event) : Prop :=
  ∀ y ∈ r.given events, ∃ place, .act (.giveReason y) () ∈ r.did events place

/-- What is known of a run that cannot start, in whatever order its copies begin. -/
def Foreseen (r : Run) (x : Refusal) (events : List Event) : Phase → Prop
  | .created => r.GivenByCopies events
  | .preparing => r.GivenByCopies events
  | .refusing y => y = x ∧ (r.after events).control.reason =
      if Control.reaches r.control.maxErrors r.failures then some .errorLimit else none
  | .halting y => y = x ∧ (r.after events).control.reason = some (r.reasonAhead x)
  | .abandoning y _ => y = x ∧ (r.after events).control.reason = some (r.reasonAhead x)
  | .refused y => y = x ∧ (r.after events).control.reason = some (r.reasonAhead x)
  | _ => False

variable {e : Event} {x : Refusal}

/-- Before the chief has found a copy that could not start, only copies give reasons. -/
theorem givenByCopies_concat (h : r.GivenByCopies events) (hstops : (r.after events).stops = [])
    (hphase : ∀ y, (r.after events).phase ≠ .refusing y) : r.GivenByCopies (events ++ [e]) := by
  intro y hy
  rw [given, along_concat] at hy
  rcases List.mem_append.mp hy with hy | hy
  · obtain ⟨place, hdid⟩ := h y hy
    exact ⟨place, mem_did_concat hdid e⟩
  have hreason := Option.mem_toList.mp hy
  cases e with
  | copy place =>
    obtain ⟨d, hd, hy⟩ := Option.bind_eq_some_iff.mp hreason
    obtain ⟨c, hc, hdoes⟩ := exists_does hd
    refine ⟨place, ?_⟩
    rw [did_of_does hc hdoes]
    refine List.mem_append_right _ (List.mem_singleton.mpr ?_)
    cases d with
    | act a v =>
      cases a with
      | giveReason y' =>
        cases hy
        rfl
      | _ => cases hy
    | _ => cases hy
  | chief =>
    rw [reason?] at hreason
    split at hreason
    · next z hz => exact absurd hz (hphase z)
    · cases hreason
  | stop place =>
    rw [reason?, hstops] at hreason
    cases hreason
  | _ => cases hreason

/-- The reason stays. -/
theorem reason_kept {y : Refusal}
    (h : y = x ∧ (r.after events).control.reason = some (r.reasonAhead x)) :
    y = x ∧ (r.after (events ++ [e])).control.reason = some (r.reasonAhead x) := by
  rw [after_concat]
  exact ⟨h.1, ((r.after events).shared_le_happen e).control.reason _ h.2⟩

/-- Copies that have begun do nothing. -/
theorem reason_copy_of_refusing {q : Run} (hstaged : q.Staged) {y : Refusal}
    (hp : q.phase = .refusing y) (place : Nat) :
    (q.happen (.copy place)).control.reason = q.control.reason := by
  have hnone : doing? place q (.copy place) = none := by
    rw [doing?, if_pos rfl]
    cases hc : q.net.copies[place]? with
    | none => rfl
    | some c =>
      have hkind := hstaged.kinds c (List.mem_of_getElem? hc)
      rw [hp] at hkind
      obtain ⟨op, own, task⟩ := c
      cases task with
      | ready s => rfl
      | refused s f => rfl
      | _ => rcases hkind with hkind | hkind <;> cases hkind
  rw [reason_happen, reason?, hnone, Option.bind_none, Option.or_none]

/-- An event that leaves the phase as it is. -/
theorem Foreseen.still (hstops : (r.after events).stops = [])
    (h : r.Foreseen x events (r.after events).phase)
    (hreason : ∀ y, (r.after events).phase = .refusing y →
      (r.after (events ++ [e])).control.reason = (r.after events).control.reason) :
    r.Foreseen x (events ++ [e]) (r.after events).phase := by
  have hgiven := @givenByCopies_concat r events e
  revert h hgiven hreason
  cases (r.after events).phase with
  | created => exact fun h _ hgiven => hgiven h hstops fun _ hp => by cases hp
  | preparing => exact fun h _ hgiven => hgiven h hstops fun _ hp => by cases hp
  | refusing y => exact fun h hreason _ => ⟨h.1, (hreason y rfl).trans h.2⟩
  | halting y => exact fun h _ _ => reason_kept h
  | abandoning y gone => exact fun h _ _ => reason_kept h
  | refused y => exact fun h _ _ => reason_kept h
  | _ => exact fun h _ _ => h

theorem failures_ne_zero (hx : r.refusalAhead? = some x) : r.failures ≠ 0 := by
  obtain ⟨c, hc, hrefusal⟩ := List.exists_of_findSome?_eq_some hx
  obtain ⟨f, hf, -⟩ := Option.map_eq_some_iff.mp hrefusal
  exact (List.countP_pos_iff.mpr ⟨c, hc, by rw [hf]; rfl⟩).ne'

section Made

variable (hmade : Made d registry config plan r)
  (hstarts : ∀ c ∈ r.net.copies, c.ending?.isSome = true) (hx : r.refusalAhead? = some x)
include hmade hstarts hx

theorem Foreseen.happen (hstops : (r.after events).stops = [])
    (h : r.Foreseen x events (r.after events).phase) (e : Event) :
    r.Foreseen x (events ++ [e]) (r.after (events ++ [e])).phase := by
  have hstill := h.still (e := e) hstops
  have hstaged := hmade.staged.after events
  have he := (r.after events).effect_happen e
  rw [← after_concat] at he
  generalize hr' : r.after (events ++ [e]) = r' at he
  rw [hr'] at hstill
  cases he with
  | nothing _ | requestStop => exact hstill fun _ _ => rfl
  | abandon hp _ _ => exact hstill fun _ _ => rfl
  | copy place => exact hstill fun _ hp => reason_copy_of_refusing hstaged hp place
  | prepare hp =>
    rw [hp] at h
    exact givenByCopies_concat h hstops fun y hy => by rw [hp] at hy; cases hy
  | start hp | finish hp _ =>
    rw [hp] at h
    exact h.elim
  | refuse hp hb hy =>
    have hwork : (r.after events).phase.atWork = false := by rw [hp]; rfl
    rw [hp] at h
    rw [refusal?_of_begun hmade hstarts hb hwork, hx, Option.some.injEq] at hy
    refine ⟨hy.symm, ?_⟩
    rw [hr']
    exact reason_of_begun hmade hstarts hb hwork (failures_ne_zero hx) h
  | accept hp hb hy =>
    have hwork : (r.after events).phase.atWork = false := by rw [hp]; rfl
    rw [refusal?_of_begun hmade hstarts hb hwork, hx] at hy
    cases hy
  | giveReason hp =>
    rw [hp] at h
    obtain ⟨rfl, hreason⟩ := h
    refine ⟨rfl, ?_⟩
    rw [hr']
    show (r.after events).control.reason.or _ = _
    rw [hreason, reasonAhead]
    split <;> rfl
  | raiseFlag hp | pass hp _ _ | close hp _ =>
    rw [hp] at h
    exact reason_kept h
  | stopReason hs | stopFlag hs | stopOn hs _ | stopCancel hs =>
    rw [hstops] at hs
    cases hs

/-- A run that cannot start is refused as it was to be expected. -/
theorem foreseen_after (hcalm : .requestStop ∉ events) :
    r.Foreseen x events (r.after events).phase := by
  induction events using List.reverseRecOn with
  | nil =>
    rw [after_nil, hmade.phase]
    exact fun y hy => by cases hy
  | append_singleton events e ih =>
    have hbefore : .requestStop ∉ events := fun hmem => hcalm (List.mem_append_left _ hmem)
    exact (ih hbefore).happen hmade hstarts hx (stops_after hmade.stops hbefore) e

end Made

end Foreseen

end Run
end RowFlow
