import RowFlow.Proofs.Refusal.Foreseen
import RowFlow.Proofs.Refusal.Settles

/-
The preparation of a run comes to an end.  Each move of a copy brings it nearer to where it
has begun or is gone (`Copy.Settles`), and the chief has a bounded number of moves between
those of the copies.  So if the hooks for the start keep to themselves, and those for the end
do not wait for their work to be cancelled, then whatever moves are made, the run is prepared
or refused after finitely many of them (`comes_of_made`).
-/
namespace RowFlow

inductive OneOf {α : Type*} (below : α → α → Prop) : List α → List α → Prop
  | mk {l : List α} {i : Nat} {a a' : α} (ha : l[i]? = some a) (h : below a' a) :
      OneOf below (l.set i a') l

/-- Elements that go down one at a time, and each of them only so far, go down only so far. -/
theorem acc_oneOf {α : Type*} {below : α → α → Prop} {l : List α}
    (h : ∀ a ∈ l, Acc below a) : Acc (OneOf below) l := by
  induction l with
  | nil =>
    refine ⟨_, fun l' hl => ?_⟩
    cases hl with
    | mk ha _ => cases ha
  | cons a rest ih =>
    obtain ⟨ha, hrest⟩ := List.forall_mem_cons.mp h
    replace ih := ih hrest
    clear h hrest
    induction ha generalizing rest with
    | intro a _ iha =>
      induction ih with
      | intro rest hacc ihr =>
        refine ⟨_, fun l' hl => ?_⟩
        cases hl with
        | @mk _ i b b' hb hbelow =>
          cases i with
          | zero =>
            cases hb
            exact iha b' hbelow rest ⟨rest, hacc⟩
          | succ i => exact ihr _ (.mk hb hbelow)

namespace Run

/-- Whatever moves are made, such a run is reached after finitely many of them. -/
inductive Comes (P : Run → Prop) : Run → Prop
  | here {r : Run} (h : P r) : Comes P r
  | on {r : Run} (possible : ∃ m r', r.move? m = some r')
      (next : ∀ m r', r.move? m = some r' → Comes P r') : Comes P r

namespace Move

def event : Move → Event
  | copy place => .copy place
  | chief => .chief
  | stop place => .stop place

theorem event_ne_requestStop (m : Move) : m.event ≠ .requestStop := by
  cases m <;> exact Event.noConfusion

end Move

variable {r r' : Run} {m : Move}

theorem happen_of_move (h : r.move? m = some r') : r.happen m.event = r' := by
  cases m with
  | copy place =>
    simp only [move?, Option.ite_none_right_eq_some, Option.some.injEq] at h
    exact h.2
  | chief => exact Option.getD_eq_iff.mpr (.inl h)
  | stop place => exact Option.getD_eq_iff.mpr (.inl h)

/-- The moves that are made until then are a course in which nobody asks for a stop. -/
theorem Comes.after {P : Run → Prop} {q : Run} {events : List Event} (h : (q.after events).Comes P)
    (hcalm : .requestStop ∉ events) : (q.after events).Comes fun r =>
      P r ∧ ∃ events, .requestStop ∉ events ∧ r = q.after events := by
  generalize hr : q.after events = r at h
  induction h generalizing events with
  | here h => exact .here ⟨h, events, hcalm, hr.symm⟩
  | on possible _ ih =>
    subst hr
    refine .on possible fun m r' hm => ?_
    have hcalm' : .requestStop ∉ events ++ [m.event] := fun hmem =>
      (List.mem_append.mp hmem).elim hcalm fun hmem =>
        m.event_ne_requestStop (List.mem_singleton.mp hmem).symm
    refine ih m r' hm hcalm' ?_
    rw [after_concat]
    exact happen_of_move hm

theorem Comes.mono {P Q : Run → Prop} (h : r.Comes P) (hPQ : ∀ r, P r → Q r) : r.Comes Q := by
  induction h with
  | here h => exact .here (hPQ _ h)
  | on possible _ ih => exact .on possible ih

/-- The run was asked to prepare itself, and nobody has asked for a stop. -/
structure Pending (r : Run) : Prop where
  staged : r.Staged
  calm : r.stops = []
  asked : r.phase ≠ .created ∧ r.phase.atWork = false
  flag : ∀ x gone, r.phase = .abandoning x gone → r.control.stopped = true
  settles : ∀ c ∈ r.net.copies, c.Settles

def IsPrepared (r : Run) : Prop := r.phase = .prepared ∨ ∃ x, r.phase = .refused x

/-- How many moves of the chief there may still be between those of the copies. -/
def ahead (r : Run) : Nat :=
  match r.phase with
  | .preparing => r.net.copies.length + 4
  | .refusing _ => r.net.copies.length + 3
  | .halting _ => r.net.copies.length + 2
  | .abandoning _ gone => r.net.copies.length - gone + 1
  | _ => 0

def Nearer (r' r : Run) : Prop :=
  OneOf Copy.Moves r'.net.copies r.net.copies ∨
    r'.net.copies = r.net.copies ∧ r'.ahead < r.ahead

theorem chief_possible (h : r.chief?.isSome = true) : ∃ m r', r.move? m = some r' :=
  ⟨.chief, Option.isSome_iff_exists.mp h⟩

theorem copy_possible {place : Nat} {c : Copy} (hc : r.net.copies[place]? = some c)
    (hcan : c.canMove r.net.shared = true) : ∃ m r', r.move? m = some r' := by
  refine ⟨.copy place, _, if_pos ?_⟩
  rw [Net.canMove, hc]
  exact hcan

namespace Pending

/-- A copy that can move begins, or is given up in a stopped run. -/
theorem turn_of_canMove (h : r.Pending) {place : Nat} {c : Copy}
    (hc : r.net.copies[place]? = some c) (hcan : c.canMove r.net.shared = true) :
    c.HasTurn r.net.shared := by
  have hmem := List.mem_of_getElem? hc
  have hallows := h.staged.kinds c hmem
  have hwork := kind_ne_working h.staged h.asked.2 hmem
  have hflag := h.flag
  obtain ⟨op, own, task⟩ := c
  cases task with
  | beginning p => exact .begins rfl
  | working p => exact absurd rfl hwork
  | leaving p =>
    refine .leaves rfl ?_
    cases hp : r.phase with
    | abandoning x gone => exact hflag x gone hp
    | running | finished => exact absurd h.asked.2 (by simp [hp, Phase.atWork])
    | _ =>
      rw [hp] at hallows
      simp [Phase.Allows, Copy.kind] at hallows
  | _ => cases hcan

theorem nearer_copy (h : r.Pending) {place : Nat} (hm : r.move? (.copy place) = some r') :
    r'.Nearer r := by
  simp only [move?, Option.ite_none_right_eq_some, Option.some.injEq] at hm
  obtain ⟨hcan, rfl⟩ := hm
  rw [Net.canMove] at hcan
  cases hc : r.net.copies[place]? with
  | none =>
    rw [hc] at hcan
    cases hcan
  | some c =>
    rw [hc] at hcan
    refine .inl ?_
    show OneOf Copy.Moves (r.net.step place).copies r.net.copies
    rw [Net.step, hc]
    exact .mk hc (.step _ (h.turn_of_canMove hc hcan))

theorem nearer_chief (hm : r.move? .chief = some r') : r'.Nearer r := by
  have hchief : r.chief? = some r' := hm
  have hless : ∀ {q : Run}, q.net.copies = r.net.copies → q.ahead < r.ahead → q.Nearer r :=
    fun hsame hlt => .inr ⟨hsame, hlt⟩
  rw [chief?] at hchief
  split at hchief
  · next hp =>
    split at hchief
    · split at hchief <;> cases hchief
      · exact hless rfl (by simp [ahead, hp])
      · exact hless rfl (by simp [ahead, hp])
    · cases hchief
  · next x hp =>
    cases hchief
    exact hless rfl (by simp [ahead, hp, setControl])
  · next x hp =>
    cases hchief
    exact hless rfl (by simp [ahead, hp, setControl])
  · next x gone hp =>
    split at hchief
    · cases hchief
      exact hless rfl (by simp [ahead, hp])
    · next c hc =>
      have hlt := (List.getElem?_eq_some_iff.mp hc).1
      split at hchief
      · cases hchief
        refine hless rfl ?_
        simp only [ahead, hp]
        omega
      · split at hchief
        · next hbegun =>
          cases hchief
          refine .inl ?_
          show OneOf Copy.Moves (r.net.copies.modify gone Copy.toAbandon) r.net.copies
          rw [List.modify_eq_set_getElem?, hc]
          exact .mk hc (.givenUp hbegun)
        · cases hchief
  · cases hchief

theorem nearer (h : r.Pending) (hm : r.move? m = some r') : r'.Nearer r := by
  cases m with
  | copy place => exact h.nearer_copy hm
  | chief => exact nearer_chief hm
  | stop place =>
    rw [move?, h.calm] at hm
    cases hm

theorem settles_of_nearer (h : r.Pending) (hnear : r'.Nearer r) :
    ∀ c ∈ r'.net.copies, c.Settles := by
  rcases hnear with hone | ⟨hsame, -⟩
  · generalize r'.net.copies = copies at hone
    cases hone with
    | mk ha hmoves =>
      intro c hc
      rcases List.mem_or_eq_of_mem_set hc with hmem | rfl
      · exact h.settles c hmem
      · cases h.settles _ (List.mem_of_getElem? ha) with
        | mk _ next => exact next _ hmoves
  · rw [hsame]
    exact h.settles

theorem move (h : r.Pending) (hm : r.move? m = some r') : r'.Pending := by
  have hevent := happen_of_move hm
  have he := r.effect_happen m.event
  have hstaged := h.staged.happen m.event
  have hcalm := stops_happen h.calm m.event_ne_requestStop
  have hstopped := (r.shared_le_happen m.event).control.stopped
  rw [hevent] at he hstaged hcalm hstopped
  have hrest : (r'.phase ≠ .created ∧ r'.phase.atWork = false) ∧
      ∀ x gone, r'.phase = .abandoning x gone → r'.control.stopped = true := by
    have hasked := h.asked
    have hflag := fun x gone hp => hstopped (h.flag x gone hp)
    cases m with
    | copy place =>
      cases he with
      | _ => exact ⟨hasked, hflag⟩
    | chief =>
      cases he with
      | nothing _ | abandon _ _ _ => exact ⟨hasked, hflag⟩
      | refuse _ _ _ | accept _ _ _ | giveReason _ | close _ _ =>
        exact ⟨⟨by simp, rfl⟩, by simp⟩
      | raiseFlag _ => exact ⟨⟨by simp, rfl⟩, fun _ _ _ => rfl⟩
      | pass hp _ _ => exact ⟨⟨by simp, rfl⟩, fun _ _ _ => hflag _ _ hp⟩
    | stop place =>
      rw [move?, h.calm] at hm
      cases hm
  exact ⟨hstaged, hcalm, hrest.1, hrest.2, h.settles_of_nearer (h.nearer hm)⟩

/-- As long as the preparation has not come to its end, something can move. -/
theorem exists_move (h : r.Pending) (hnot : ¬ r.IsPrepared) : ∃ m r', r.move? m = some r' := by
  have hkinds := h.staged.kinds
  cases hp : r.phase with
  | created => exact absurd hp h.asked.1
  | running | finished => exact absurd h.asked.2 (by simp [hp, Phase.atWork])
  | prepared => exact absurd (.inl hp) hnot
  | refused x => exact absurd (.inr ⟨x, hp⟩) hnot
  | refusing x | halting x => exact chief_possible (by rw [chief?, hp]; rfl)
  | preparing =>
    by_cases hbegun : r.net.haveAllBegun = true
    · cases hx : r.refusal? with
      | none => exact chief_possible (by simp [chief?, hp, hbegun, hx])
      | some x => exact chief_possible (by simp [chief?, hp, hbegun, hx])
    · obtain ⟨c, hc, hnot⟩ : ∃ c ∈ r.net.copies, ¬ c.hasBegun = true := by
        simpa [Net.haveAllBegun] using hbegun
      have hallows := hkinds c hc
      rw [hp] at hallows
      have hkind := hallows.resolve_right fun hk => hnot (Copy.hasBegun_iff.mpr hk)
      obtain ⟨place, hplace⟩ := List.mem_iff_getElem?.mp hc
      cases h.settles c hc with
      | mk free _ => exact copy_possible hplace (free _ (.begins hkind))
  | abandoning x gone =>
    cases hc : r.net.copies[gone]? with
    | none => exact chief_possible (by simp [chief?, hp, hc])
    | some c =>
      by_cases hgone : c.isGone = true
      · exact chief_possible (by simp [chief?, hp, hc, hgone])
      · by_cases hbegun : c.hasBegun = true
        · exact chief_possible (by simp [chief?, hp, hc, hgone, hbegun])
        · have hallows := hkinds c (List.mem_of_getElem? hc)
          rw [hp] at hallows
          have hkind : c.kind = .leaving := by
            rcases hallows with hk | hk | hk | hk
            · exact absurd (Copy.hasBegun_iff.mpr (.inl hk)) hbegun
            · exact absurd (Copy.hasBegun_iff.mpr (.inr hk)) hbegun
            · exact hk
            · exact absurd (Copy.isGone_iff.mpr hk) hgone
          cases h.settles c (List.mem_of_getElem? hc) with
          | mk free _ => exact copy_possible hc (free _ (.leaves hkind (h.flag x gone hp)))

theorem comes (h : r.Pending) : r.Comes IsPrepared := by
  have hacc := acc_oneOf fun c hc => (h.settles c hc).acc
  generalize hcopies : r.net.copies = copies at hacc
  induction hacc generalizing r with
  | intro copies _ ih =>
    generalize hn : r.ahead = n
    induction n using Nat.strong_induction_on generalizing r with
    | h n ihn =>
      by_cases hp : r.IsPrepared
      · exact .here hp
      · refine .on (h.exists_move hp) fun m r' hm => ?_
        subst hcopies hn
        rcases h.nearer hm with hone | ⟨hsame, hlt⟩
        · exact ih _ hone (h.move hm) rfl
        · exact ihn r'.ahead hlt (h.move hm) hsame rfl

end Pending

variable {d : Definition} {registry : Registry} {config : Config} {plan : Plan}

/-- The preparation of a run comes to an end, if its hooks for the start keep to themselves and
those for the end do not wait for their work to be cancelled. -/
theorem comes_of_made (hmade : Made d registry config plan r)
    (hstarts : ∀ c ∈ r.net.copies, c.ending?.isSome = true)
    (hends : ∀ c ∈ r.net.copies, ∀ m, (c.op.dispose m).Asks (· ≠ .hold)) :
    (r.happen .prepare).Comes fun q =>
      q.IsPrepared ∧ ∃ events, .requestStop ∉ events ∧ q = r.after events := by
  have hrun : r.happen .prepare =
      { r with phase := .preparing, net := r.net.modifyAll Copy.toBegin } := by
    simp [happen, beginPreparation, hmade.phase]
  have hpending : (r.happen .prepare).Pending := by
    have hstaged := hmade.staged.happen .prepare
    have hcalm := stops_happen (e := .prepare) hmade.stops (by simp)
    rw [hrun] at hstaged hcalm ⊢
    refine ⟨hstaged, hcalm, ⟨by simp, rfl⟩, by simp, fun c hc => ?_⟩
    obtain ⟨c₀, hc₀, rfl⟩ := List.mem_map.mp hc
    exact .toBegin (hmade.isMade hc₀).choose_spec.kind (hstarts c₀ hc₀) (hends c₀ hc₀)
  exact (show (r.after [.prepare]).Comes IsPrepared from hpending.comes).after (by simp)

end Run
end RowFlow
