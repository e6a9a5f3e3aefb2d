import RowFlow.Proofs.Refusal.Hooks
import RowFlow.Proofs.Run.Diary
import RowFlow.Proofs.Run.Joined

/-
The errors of a run, told by what its copies have done.  Their number is the sum over the
copies (`Tallied.errors`), and the tallies that the copies were given tell how it grew: none
is greater than the number, and the last one is the number (`Tallied.last`).  What has been
given as a reason by a copy is the reason, or came too late (`given_of_did`).
-/
namespace RowFlow

open Doing

/-- Two sums that differ in one term. -/
theorem sum_range_update {f g : Nat → Nat} {n i a : Nat} (hi : i < n) (hg : g i = f i + a)
    (hne : ∀ j, j ≠ i → g j = f j) :
    ((List.range n).map g).sum = ((List.range n).map f).sum + a := by
  have hset := sum_map_set (fun m : Nat => m) (l := (List.range n).map f) (i := i) (a := f i)
    (by rw [List.getElem?_map, List.getElem?_range hi, Option.map_some]) (g i)
  have hmap : (List.range n).map g = ((List.range n).map f).set i (g i) := by
    refine List.ext_getElem? fun j => ?_
    rw [List.getElem?_set, List.getElem?_map, List.getElem?_map, List.length_map,
      List.length_range]
    by_cases hj : i = j
    · subst hj
      rw [if_pos rfl, if_pos hi, List.getElem?_range hi, Option.map_some]
    · rw [if_neg hj]
      cases hr : (List.range n)[j]? with
      | none => rfl
      | some k =>
        obtain ⟨hlt, rfl⟩ := List.getElem?_eq_some_iff.mp hr
        rw [List.getElem_range, Option.map_some, Option.map_some, hne j (Ne.symm hj)]
  simp only [List.map_id'] at hset
  rw [hmap]
  omega

theorem sum_range_length {α : Type*} {l : List α} {f : Nat → Nat} {g : α → Nat}
    (h : ∀ i a, l[i]? = some a → f i = g a) :
    ((List.range l.length).map f).sum = (l.map g).sum := by
  refine congrArg List.sum (List.ext_getElem (by simp) fun i hlt hlt' => ?_)
  rw [List.getElem_map, List.getElem_map, List.getElem_range]
  exact h i _ (List.getElem?_eq_getElem (by simpa using hlt))

namespace Run

variable {r : Run} {events : List Event} {e : Event} {place : Nat}

theorem did_concat (r : Run) (events : List Event) (e : Event) (place : Nat) :
    r.did (events ++ [e]) place =
      r.did events place ++ (doing? place (r.after events) e).toList :=
  along_concat _ r events e

/-- What a copy has done stays done. -/
theorem mem_did_concat {d : Doing} (h : d ∈ r.did events place) (e : Event) :
    d ∈ r.did (events ++ [e]) place := by
  rw [did_concat]
  exact List.mem_append_left _ h

/-- Where there is no copy nothing is done. -/
theorem did_of_absent (h : r.net.copies[place]? = none) (events : List Event) :
    r.did events place = [] := by
  induction events using List.reverseRecOn with
  | nil => rfl
  | append_singleton events e ih =>
    have hnone : (r.after events).net.copies[place]? = none := by
      rw [List.getElem?_eq_none_iff] at h ⊢
      rwa [length_copies_after]
    rw [did_concat, ih, doing?, hnone]
    simp

theorem did_of_pauses (h : (r.after events).Pauses e) (place : Nat) :
    r.did (events ++ [e]) place = r.did events place := by
  rw [did_concat, doing?_of_pauses h, Option.toList_none, List.append_nil]

section Does

variable {c c' : Copy} {d : Doing} (hc : (r.after events).net.copies[place]? = some c)
  (hd : (r.after events).Does e place c d c')
include hc hd

theorem did_of_does : r.did (events ++ [e]) place = r.did events place ++ [d] := by
  rw [did_concat, doing?_of_does hd hc]
  rfl

omit hc in
theorem did_of_ne {other : Nat} (hne : other ≠ place) :
    r.did (events ++ [e]) other = r.did events other := by
  rw [did_concat, doing?_of_ne hd hne, Option.toList_none, List.append_nil]

/-- What a copy has done by an event it had done before, or does it now. -/
theorem mem_did_of_does {other : Nat} {d' : Doing} (h : d' ∈ r.did (events ++ [e]) other) :
    d' ∈ r.did events other ∨ other = place ∧ d' = d := by
  by_cases hne : other = place
  · subst hne
    rw [did_of_does hc hd] at h
    exact (List.mem_append.mp h).imp_right fun h => ⟨rfl, List.mem_singleton.mp h⟩
  · rw [did_of_ne hd hne] at h
    exact .inl h

end Does

structure Tallied (r : Run) (events : List Event) : Prop where
  errors : (r.after events).control.errors =
    ((List.range r.net.copies.length).map fun place => errorsTold (r.did events place)).sum
  tally : ∀ place n (t : Tally), .act (.countErrors n) t ∈ r.did events place →
    t.total ≤ (r.after events).control.errors ∧
      t.reached = Control.reaches r.control.maxErrors t.total
  last : (r.after events).control.errors ≠ 0 → ∃ place n, ∃ t : Tally,
    .act (.countErrors n) t ∈ r.did events place ∧ t.total = (r.after events).control.errors

namespace Tallied

theorem pause (h : Tallied r events) (hp : (r.after events).Pauses e) :
    Tallied r (events ++ [e]) := by
  have herrors : (r.after (events ++ [e])).control.errors = (r.after events).control.errors := by
    rw [after_concat]
    exact hp.total .errors
  constructor
  · simp only [herrors, did_of_pauses hp]
    exact h.errors
  · simp only [herrors, did_of_pauses hp]
    exact h.tally
  · simp only [herrors, did_of_pauses hp]
    exact h.last

section Does

variable {c c' : Copy} {d : Doing} (h : Tallied r events)
  (hc : (r.after events).net.copies[place]? = some c)
  (hd : (r.after events).Does e place c d c')
include hd

/-- By how much the number of errors has grown. -/
theorem errors_of_does : (r.after (events ++ [e])).control.errors =
    (r.after events).control.errors + d.amount .errors := by
  rw [after_concat]
  exact (hd.goes.leads []).total .errors

/-- The tally of an error is the number of errors. -/
theorem tally_of_does {n : Nat} {t : Tally} (ht : d = .act (.countErrors n) t) :
    t.total = (r.after (events ++ [e])).control.errors ∧
      t.reached = Control.reaches r.control.maxErrors t.total := by
  subst ht
  have htally := (hd.goes.leads []).tally (k := .errors) rfl
  rw [← after_concat] at htally
  have hmax : (r.after (events ++ [e])).net.shared.control.maxErrors = r.control.maxErrors :=
    (r.shared_le_after _).control.maxErrors
  subst htally
  exact ⟨rfl, by rw [← hmax]; rfl⟩

include h hc

theorem does : Tallied r (events ++ [e]) := by
  have hgrown := errors_of_does hd
  constructor
  · have hlt : place < r.net.copies.length := by
      rw [← r.length_copies_after events]
      exact (List.getElem?_eq_some_iff.mp hc).1
    rw [hgrown, h.errors]
    refine (sum_range_update hlt ?_ fun other hne => ?_).symm
    · show errorsTold (r.did (events ++ [e]) place) = _
      rw [did_of_does hc hd, errorsTold_append, errorsTold_cons, errorsTold_nil, Nat.add_zero]
    · show errorsTold (r.did (events ++ [e]) other) = _
      rw [did_of_ne hd hne]
  · intro other n t ht
    rcases mem_did_of_does hc hd ht with ht | ⟨-, ht⟩
    · obtain ⟨hle, hreached⟩ := h.tally other n t ht
      exact ⟨by omega, hreached⟩
    · obtain ⟨htotal, hreached⟩ := tally_of_does hd ht.symm
      exact ⟨htotal.le, hreached⟩
  · intro hne
    by_cases hcount : ∃ n t, d = .act (.countErrors n) t
    · obtain ⟨n, t, ht⟩ := hcount
      refine ⟨place, n, t, ?_, (tally_of_does hd ht).1⟩
      rw [did_of_does hc hd, ht]
      exact List.mem_append_right _ (List.mem_singleton_self _)
    · have hnone : d.amount .errors = 0 := by
        cases d with
        | act a v =>
          cases a with
          | countErrors n => exact absurd ⟨n, v, rfl⟩ hcount
          | _ => rfl
        | _ => rfl
      rw [hnone, Nat.add_zero] at hgrown
      rw [hgrown] at hne ⊢
      obtain ⟨other, n, t, ht, htotal⟩ := h.last hne
      exact ⟨other, n, t, mem_did_concat ht e, htotal⟩

end Does

end Tallied

/-- The errors of a run that had none are told by what its copies have done. -/
theorem tallied_after (hnone : r.control.errors = 0) (events : List Event) :
    Tallied r events := by
  induction events using List.reverseRecOn with
  | nil =>
    refine ⟨?_, fun _ _ _ h => absurd h List.not_mem_nil, fun h => absurd hnone h⟩
    rw [show (r.after []).control.errors = 0 from hnone]
    exact (List.sum_eq_zero fun n hn => by
      obtain ⟨_, _, rfl⟩ := List.mem_map.mp hn
      rfl).symm
  | append_singleton events e ih =>
    rcases (r.after events).does_or_pauses e with ⟨place, c, d, c', hc, hd, -⟩ | hp
    · exact ih.does hc hd
    · exact ih.pause hp

/-- A reason that a copy has given was given. -/
theorem given_of_did {y : StopReason} (h : .act (.giveReason y) () ∈ r.did events place) :
    y ∈ r.given events := by
  induction events using List.reverseRecOn with
  | nil => exact absurd h List.not_mem_nil
  | append_singleton events e ih =>
    rw [given, along_concat]
    rw [did_concat] at h
    refine List.mem_append.mpr ((List.mem_append.mp h).imp ih fun h => ?_)
    have hdoing := Option.mem_toList.mp h
    obtain ⟨c, hc, hdoes⟩ := exists_does hdoing
    rw [hdoes.event] at hdoing ⊢
    rw [reason?, hdoing]
    exact List.mem_singleton_self _

end Run
end RowFlow
