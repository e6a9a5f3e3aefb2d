import RowFlow.Proofs.Closing.Calls
import RowFlow.Proofs.Flow.AtEnd

/-
Every row set of a run is closed once.  A row set has ended just when a call to close it
has succeeded (`hasEnded_after`), and as none is closed twice, each call succeeds
(`succeeded_of_mem`).  At the end of a run every copy has closed all that it writes to: it
is gone, or it is disposed after its work.  A row set whose reader has left is empty and
stays so, whatever its writer still puts there (`RowSet.Vacant`).
-/
namespace RowFlow
namespace RowSet

/-- A row set that its reader has left has nothing in it. -/
def Vacant (s : RowSet) : Prop := s.detached = true → s.buffer = []

variable {s : RowSet}

theorem Vacant.offer (h : s.Vacant) (row : Row) : (s.offer row).1.Vacant := by
  unfold RowSet.offer
  split
  · exact h
  · split
    · exact h
    · next hdetached =>
      split
      · exact h
      · split
        · exact h
        · exact fun hleft => absurd hleft hdetached

theorem Vacant.poll (h : s.Vacant) : s.poll.1.Vacant := by
  unfold RowSet.poll
  split
  · next row rest hbuffer =>
    intro hleft
    rw [h hleft] at hbuffer
    cases hbuffer
  · exact h

theorem Vacant.close (h : s.Vacant) : s.close.1.Vacant := by
  unfold RowSet.close
  split
  · exact h
  · exact h

theorem vacant_detach (s : RowSet) : s.detach.Vacant := fun _ => s.buffer_detach

theorem closed_offer (s : RowSet) (row : Row) : (s.offer row).1.closed = s.closed := by
  unfold RowSet.offer
  repeat' split
  all_goals rfl

theorem closed_poll (s : RowSet) : s.poll.1.closed = s.closed := by
  unfold RowSet.poll
  split <;> rfl

end RowSet

namespace Shared

def HasEnded (s : Shared) (i : Nat) : Prop := ∃ rs, s.rowSets[i]? = some rs ∧ rs.closed = true

variable {s : Shared} {i j : Nat} {rs rs' : RowSet}

theorem hasEnded_set (hi : s.rowSets[i]? = some rs) (hclosed : rs'.closed = rs.closed) :
    ({ s with rowSets := s.rowSets.set i rs' } : Shared).HasEnded j ↔ s.HasEnded j := by
  by_cases hj : i = j
  · subst hj
    have hlt := (List.getElem?_eq_some_iff.mp hi).1
    simp [HasEnded, List.getElem?_set_self hlt, hi, hclosed]
  · simp only [HasEnded, List.getElem?_set_ne hj]

theorem hasEnded_poll (s : Shared) (i : Nat) : (s.poll i).1.HasEnded j ↔ s.HasEnded j := by
  unfold Shared.poll
  split
  · exact Iff.rfl
  · next rs hi => exact hasEnded_set hi rs.closed_poll

theorem hasEnded_offer (s : Shared) (i : Nat) (row : Row) :
    (s.offer i row).1.HasEnded j ↔ s.HasEnded j := by
  unfold Shared.offer
  split
  · exact Iff.rfl
  · next rs hi => exact hasEnded_set hi (rs.closed_offer row)

theorem hasEnded_detach (s : Shared) (i : Nat) : (s.detach i).HasEnded j ↔ s.HasEnded j := by
  simp only [HasEnded, Shared.detach, List.getElem?_modify]
  cases hj : s.rowSets[j]? with
  | none => simp
  | some rs => by_cases hij : i = j <;> simp [hij, RowSet.detach]

/-- A call succeeds where the stream of a row set has not ended. -/
theorem close_eq_true_iff :
    (s.close i).2 = true ↔ ∃ rs, s.rowSets[i]? = some rs ∧ rs.closed = false := by
  unfold Shared.close RowSet.close
  cases hi : s.rowSets[i]? with
  | none => simp
  | some rs => cases hclosed : rs.closed <;> simp [hclosed, Except.isOk, Except.toBool]

theorem hasEnded_close (s : Shared) (i : Nat) :
    (s.close i).1.HasEnded j ↔ s.HasEnded j ∨ i = j ∧ (s.close i).2 = true := by
  rw [close_eq_true_iff]
  cases hi : s.rowSets[i]? with
  | none => simp [Shared.close, hi]
  | some rs =>
    have hlt := (List.getElem?_eq_some_iff.mp hi).1
    have hset : (s.close i).1 = { s with rowSets := s.rowSets.set i rs.close.1 } := by
      simp [Shared.close, hi]
    by_cases hj : i = j
    · subst hj
      have hget : (s.close i).1.rowSets[i]? = some rs.close.1 := by
        rw [hset]
        exact List.getElem?_set_self hlt
      refine iff_of_true ⟨_, hget, Progress.isClosed_close s i _ hget⟩ ?_
      cases hclosed : rs.closed with
      | true => exact .inl ⟨rs, hi, hclosed⟩
      | false => exact .inr ⟨rfl, rs, rfl, hclosed⟩
    · rw [hset]
      simp [HasEnded, List.getElem?_set_ne hj, hj]

def Vacant (s : Shared) : Prop := ∀ rs ∈ s.rowSets, rs.Vacant

theorem Vacant.set (h : s.Vacant) (hrs : rs.Vacant) (i : Nat) :
    ({ s with rowSets := s.rowSets.set i rs } : Shared).Vacant := by
  intro rs' hmem
  rcases List.mem_or_eq_of_mem_set hmem with hmem | rfl
  · exact h rs' hmem
  · exact hrs

theorem Vacant.poll (h : s.Vacant) (i : Nat) : (s.poll i).1.Vacant := by
  unfold Shared.poll
  split
  · exact h
  · next rs hi => exact h.set (h rs (List.mem_of_getElem? hi)).poll i

theorem Vacant.offer (h : s.Vacant) (i : Nat) (row : Row) : (s.offer i row).1.Vacant := by
  unfold Shared.offer
  split
  · exact h
  · next rs hi => exact h.set ((h rs (List.mem_of_getElem? hi)).offer row) i

theorem Vacant.close (h : s.Vacant) (i : Nat) : (s.close i).1.Vacant := by
  unfold Shared.close
  split
  · exact h
  · next rs hi => exact h.set (h rs (List.mem_of_getElem? hi)).close i

theorem Vacant.detach (h : s.Vacant) (i : Nat) : (s.detach i).Vacant := by
  intro rs' hmem
  obtain ⟨j, hj⟩ := List.mem_iff_getElem?.mp hmem
  simp only [Shared.detach, List.getElem?_modify] at hj
  obtain ⟨rs, hrs, rfl⟩ := Option.map_eq_some_iff.mp hj
  split
  · exact rs.vacant_detach
  · exact h rs (List.mem_of_getElem? hrs)

end Shared

namespace Closing

open Run

variable {d : Doing} {n : Node} {p q : Position} {j : Nat}

theorem hasEnded_of_leads (h : d.Leads p q) :
    q.shared.HasEnded j ↔ p.shared.HasEnded j ∨ d.closing? = some ⟨j, true⟩ := by
  cases h with
  | @act a p v l s h =>
    cases a with
    | close i =>
      cases h
      show (p.shared.close i).1.HasEnded j ↔ _
      rw [p.shared.hasEnded_close]
      simp [Doing.closing?]
    | detach i =>
      cases h
      show (p.shared.detach i).HasEnded j ↔ _
      rw [p.shared.hasEnded_detach]
      simp [Doing.closing?]
    | hold =>
      simp only [Action.perform, Prod.mk.injEq] at h
      obtain ⟨-, -, rfl⟩ := h
      simp [Doing.closing?]
    | _ =>
      cases h
      simp [Doing.closing?, Shared.HasEnded]
  | took hi hrow =>
    rw [Shared.hasEnded_poll]
    simp [Doing.closing?]
  | gave h =>
    rw [Shared.hasEnded_offer]
    simp [Doing.closing?]
  | _ => simp [Doing.closing?]

theorem vacant_of_leads (h : n.Leads p q) (hp : p.shared.Vacant) : q.shared.Vacant := by
  cases h with
  | @act a p v l s h =>
    cases a with
    | close i =>
      cases h
      exact hp.close i
    | detach i =>
      cases h
      exact hp.detach i
    | hold =>
      simp only [Action.perform, Prod.mk.injEq] at h
      obtain ⟨-, -, rfl⟩ := h
      exact hp
    | _ =>
      cases h
      exact hp
  | take hi hrow => exact hp.poll _
  | give h => exact hp.offer _ _
  | _ => exact hp

section Events

variable {r : Run} {e : Event} {x : CloseCall}

/-- A stream ends by an event just if this closes the row set. -/
theorem hasEnded_happen (r : Run) (e : Event) : (r.happen e).net.shared.HasEnded j ↔
    r.net.shared.HasEnded j ∨ r.closing? e = some ⟨j, true⟩ := by
  have hstill : (r.happen e).net.shared.rowSets = r.net.shared.rowSets → r.closing? e = none →
      ((r.happen e).net.shared.HasEnded j ↔
        r.net.shared.HasEnded j ∨ r.closing? e = some ⟨j, true⟩) := by
    intro hsame hnone
    simp [Shared.HasEnded, hsame, hnone]
  cases e with
  | copy place =>
    cases hc : r.net.copies[place]? with
    | none => exact hstill (by simp [happen, Net.step, hc]) (by simp [closing?, doing?, hc])
    | some c =>
      rcases does_or_skips hc with ⟨d, hd⟩ | ⟨hskips, hshared⟩
      · rw [closing?_of_doing? (doing?_of_does hd hc)]
        exact hasEnded_of_leads (hd.goes.leads [])
      · exact hstill (by rw [hshared]) (by rw [closing?, doing?_of_skips hskips hc]; rfl)
  | _ => exact hstill (Flow.rowSets_happen r fun _ => by simp) rfl

/-- A call succeeds if the stream has not ended before. -/
theorem succeeded_iff (h : r.closing? e = some x) : x.succeeded = true ↔
    ∃ rs, r.net.shared.rowSets[x.rowSet]? = some rs ∧ rs.closed = false := by
  obtain ⟨place, d, hd, hdx⟩ := closing?_eq_some h
  obtain ⟨c, -, hdoes⟩ := exists_does hd
  have hleads := hdoes.goes.leads []
  cases d with
  | act a v =>
    cases a with
    | close i =>
      cases hdx
      have hanswer : (r.net.shared.close i).2 = v :=
        Option.some.inj (congrArg Prod.fst hleads.perform.1)
      rw [← Shared.close_eq_true_iff, hanswer]
    | _ => cases hdx
  | _ => cases hdx

end Events

variable {definition : Definition} {registry : Registry} {config : Config} {plan : Plan} {r : Run}

/-- A stream has ended just if a call to close the row set has succeeded. -/
theorem hasEnded_after (h : Made definition registry config plan r) (events : List Event) :
    (r.after events).net.shared.HasEnded j ↔ ⟨j, true⟩ ∈ r.closings events := by
  induction events using List.reverseRecOn with
  | nil =>
    refine iff_of_false ?_ List.not_mem_nil
    rintro ⟨rs, hrs, hclosed⟩
    rw [(h.rowSet_fresh hrs).2.1] at hclosed
    cases hclosed
  | append_singleton events e ih =>
    rw [after_concat, hasEnded_happen, ih, closings_concat, List.mem_append, Option.mem_toList]

/-- Only row sets that are there are closed. -/
theorem lt_of_mem_closings (h : Made definition registry config plan r) {events : List Event}
    {x : CloseCall} (hx : x ∈ r.closings events) (later : List Event) :
    x.rowSet < (r.after later).net.shared.rowSets.length := by
  obtain ⟨place, hplace⟩ := mem_closings.mp hx
  obtain ⟨rs, hrs⟩ := h.exists_rowSet ((closingsAt_outlets h events place).2 x hplace)
  rw [Shared.Le.length (r.shared_le_after later)]
  exact (List.getElem?_eq_some_iff.mp hrs).1

/-- No call to close a row set fails. -/
theorem succeeded_of_mem (h : Made definition registry config plan r) (events : List Event) :
    ∀ x ∈ r.closings events, x.succeeded = true := by
  induction events using List.reverseRecOn with
  | nil => exact fun x hx => absurd hx List.not_mem_nil
  | append_singleton events e ih =>
    intro x hx
    have hlt := lt_of_mem_closings h hx events
    have hnodup := nodup_closings h (events ++ [e])
    rw [closings_concat] at hx hnodup
    rcases List.mem_append.mp hx with hx | hx
    · exact ih x hx
    rw [Option.mem_toList] at hx
    refine (succeeded_iff hx).mpr ⟨_, List.getElem?_eq_getElem hlt, ?_⟩
    -- Were the stream at its end already, then by an earlier call.
    by_contra hclosed
    have hbefore := (hasEnded_after h events).mp
      ⟨_, List.getElem?_eq_getElem hlt, Bool.of_not_eq_false hclosed⟩
    rw [List.map_append, hx] at hnodup
    exact (List.nodup_append.mp hnodup).2.2 _ (List.mem_map_of_mem hbefore) x.rowSet
      List.mem_cons_self rfl

/-- The copies of a run as far as others wait for them, and row sets that are empty when
they are left. -/
def agreement : Agreement where
  world := Shared.Vacant
  fits _ := True
  contract op _ := Progress.contract False op

theorem lawful_agreement : agreement.Lawful where
  contract op _ := Progress.lawful_contract (Flow.asks_any op)
  leads _ _ _ _ _ _ hw _ hl := vacant_of_leads hl hw
  external _ hw := hw
  raise _ hw _ := hw
  refusal _ _ _ _ _ hw _ := hw

theorem kept_of_made (h : Made definition registry config plan r) :
    ({ run := r } : Record).Kept agreement := by
  refine h.kept (fun rs hmem _ => ?_) fun c hc => ?_
  · obtain ⟨i, hi⟩ := List.mem_iff_getElem?.mp hmem
    exact (h.rowSet_fresh hi).1
  · obtain ⟨info, inputs, outputs, errorOutput, hown⟩ := h.own_fresh hc
    refine ⟨trivial, ?_⟩
    rw [hown]
    exact Progress.tidy_fresh _ _ _ _ _ _

section AtEnd

variable (h : Made definition registry config plan r) {events : List Event}
include h

/-- A copy of a run that is finished after work has closed what it writes to and has left
what it reads. -/
theorem released_of_isFinished (hwork : (r.after events).phase.atWork = true)
    (hfinished : (r.after events).isFinished = true) {place : Nat} {c : Copy}
    (hc : (r.after events).net.copies[place]? = some c) :
    (∀ i ∈ c.own.outlets, (r.after events).net.shared.IsClosed i) ∧
      ∀ i ∈ c.own.inputs, (r.after events).net.shared.IsDetached i := by
  have hkept : (r.record events).Kept agreement := (kept_of_made h).after lawful_agreement events
  rw [← show (r.record events).run = r.after events from Record.run_after _ events]
    at hwork hfinished hc ⊢
  obtain ⟨_, hholds⟩ := hkept.copies place c hc
  rw [hwork] at hholds
  have hkind := hkept.staged.kinds c (List.mem_of_getElem? hc)
  have hnow : Progress.Settles ((r.record events).position place c) :=
    hholds.now (Progress.implies_settles False c.op) hkept.world rfl
  have hdisposed : c.own.status.state = .disposed := by
    cases hphase : (r.record events).run.phase with
    | running =>
      simp only [isFinished, hphase] at hfinished
      simpa [Status.isDisposed] using List.all_eq_true.mp hfinished c (List.mem_of_getElem? hc)
    | finished =>
      rw [hphase] at hkind
      obtain ⟨op, own, task⟩ := c
      cases task with
      | gone => exact (hholds rfl).1
      | _ => cases hkind
    | _ =>
      rw [hphase] at hwork
      cases hwork
  cases hnow with
  | active hactive => exact absurd hdisposed hactive.state
  | released _ hclosed hleft => exact ⟨hclosed, hleft⟩

/-- A copy that is gone has closed all that it writes to. -/
theorem closed_of_gone {place : Nat} {c : Copy} (hc : (r.after events).net.copies[place]? = some c)
    (hgone : c.kind = .gone) (hj : j ∈ c.own.outlets) :
    (r.after events).net.shared.HasEnded j := by
  obtain ⟨x, hobeys, htells⟩ := exists_tells h events hc
  have hended : x.Ended := by
    obtain ⟨op, own, task⟩ := c
    cases task with
    | gone => exact hobeys.leads
    | _ => cases hgone
  cases x with
  | closing rest =>
    obtain rfl : rest = [] := hended
    obtain ⟨-, hall⟩ := htells
    rw [List.append_nil] at hall
    obtain ⟨y, hy, rfl⟩ := List.mem_map.mp (hall ▸ hj)
    have hmem := mem_closings.mpr ⟨place, hy⟩
    rw [hasEnded_after h, ← succeeded_of_mem h events y hmem]
    exact hmem
  | pending os => exact absurd hended id
  | lost => exact absurd htells id

/-- At the end of a run each row set has ended, since it is the outlet of some copy. -/
theorem hasEnded_of_isFinished (hfinished : (r.after events).isFinished = true)
    (hj : j < (r.after events).net.shared.rowSets.length) :
    (r.after events).net.shared.HasEnded j := by
  obtain ⟨b, reader, hreader, hin⟩ := Flow.exists_reader_of_lt h events hj
  obtain ⟨a, -, c, hc, hout⟩ := (h.joined events).writer b reader hreader j hin
  cases hwork : (r.after events).phase.atWork with
  | true =>
    have hget := List.getElem?_eq_getElem hj
    exact ⟨_, hget, (released_of_isFinished h hwork hfinished hc).1 j hout _ hget⟩
  | false =>
    have hover : (r.after events).IsOver := by
      unfold isFinished at hfinished
      cases hphase : (r.after events).phase with
      | refused x => exact .inr ⟨x, hphase⟩
      | running | finished =>
        rw [hphase] at hwork
        cases hwork
      | _ =>
        rw [hphase] at hfinished
        cases hfinished
    exact closed_of_gone h hc
      ((h.staged.after events).gone_of_isOver hover (List.mem_of_getElem? hc)) hout

/-- The row sets of a run that is finished after work are empty, since they were left. -/
theorem isDone_of_isFinished (hwork : (r.after events).phase.atWork = true)
    (hfinished : (r.after events).isFinished = true) :
    ∀ rs ∈ (r.after events).rowSets, rs.isDone = true := by
  intro rs hmem
  obtain ⟨j, hj⟩ := List.mem_iff_getElem?.mp hmem
  have hlt : j < (r.after events).net.shared.rowSets.length := (List.getElem?_eq_some_iff.mp hj).1
  obtain ⟨b, c, hc, hin⟩ := Flow.exists_reader_of_lt h events hlt
  have hdetached := (released_of_isFinished h hwork hfinished hc).2 j hin rs hj
  obtain ⟨rs', hrs', hclosed⟩ := hasEnded_of_isFinished h hfinished hlt
  obtain rfl : rs = rs' := Option.some.inj (Eq.trans (Eq.symm hj) hrs')
  have hvacant : (r.after events).net.shared.Vacant := by
    have hkept := (kept_of_made h).after lawful_agreement events
    rw [← show (r.record events).run = r.after events from Record.run_after _ events]
    exact hkept.world
  rw [RowSet.isDone, hclosed, hvacant rs hmem hdetached]
  rfl

end AtEnd

/-- How the row sets of a run are closed in a course. -/
structure ClosedOnce (r : Run) (events : List Event) : Prop where
  /-- No call to close a row set fails. -/
  succeeds : ∀ x ∈ r.closings events, x.succeeded = true
  once : ((r.closings events).map (·.rowSet)).Nodup
  /-- In a run that is finished each row set has been closed, once. -/
  complete : (r.after events).isFinished = true →
    ((r.closings events).map (·.rowSet)).Perm (List.range (r.after events).rowSets.length)
  closed : (r.after events).isFinished = true → ∀ rs ∈ (r.after events).rowSets, rs.closed = true
  empty : (r.after events).phase.atWork = true → (r.after events).isFinished = true →
    ∀ rs ∈ (r.after events).rowSets, rs.isDone = true

/-- Whatever the operators do and in whatever order things happen to a run, no call to close
a row set fails and none is closed twice.  When the run is finished each row set has been
closed; if its copies were put to work they are all empty then. -/
theorem closedOnce_of_make (h : make definition registry config = .ok r) (events : List Event) :
    ClosedOnce r events := by
  obtain ⟨plan, hmade⟩ := made_of_make h
  have hsucceeds := succeeded_of_mem hmade events
  have hnodup := nodup_closings hmade events
  refine ⟨hsucceeds, hnodup, fun hfinished => ?_, fun hfinished rs hmem => ?_,
    fun hwork hfinished => isDone_of_isFinished hmade hwork hfinished⟩
  · refine (List.perm_ext_iff_of_nodup hnodup List.nodup_range).mpr fun j => ?_
    rw [List.mem_range]
    constructor
    · intro hj
      obtain ⟨x, hx, rfl⟩ := List.mem_map.mp hj
      exact lt_of_mem_closings hmade hx events
    · intro hlt
      have hended := hasEnded_of_isFinished hmade hfinished hlt
      exact List.mem_map_of_mem ((hasEnded_after hmade events).mp hended)
  · obtain ⟨j, hj⟩ := List.mem_iff_getElem?.mp hmem
    have hlt : j < (r.after events).net.shared.rowSets.length :=
      (List.getElem?_eq_some_iff.mp hj).1
    obtain ⟨rs', hrs', hclosed⟩ := hasEnded_of_isFinished hmade hfinished hlt
    obtain rfl : rs = rs' := Option.some.inj (Eq.trans (Eq.symm hj) hrs')
    exact hclosed

def unready : Operator :=
  { Operator.passThrough with
    init := fun s => .ask .endOutput fun _ => .done (s, .crashed "not ready") }

def unreadyRegistry : Registry :=
  KeyMap.ofList [
    (Registry.passThroughKey, fun _ => .ok Operator.passThrough),
    (Registry.sequenceKey, fun _ => .ok unready)]

def unreadyRun : Run :=
  ((make counting unreadyRegistry {}).toOption).getD
    { name := "", config := {}, net := { copies := [] } }

theorem make_unready : make counting unreadyRegistry {} = .ok unreadyRun := rfl

def unreadyCourse : List Event :=
  .prepare :: (List.replicate 40 [.chief, .copy 0, .copy 1]).flatten

/-- A run that has worked, and one that could not be prepared. -/
theorem closedOnce_of_make_counting :
    ((countingRun.after countingCourse).phase = .finished ∧
      countingRun.closings countingCourse = [⟨0, true⟩] ∧
      ClosedOnce countingRun countingCourse) ∧
    (unreadyRun.after unreadyCourse).isFinished = true ∧
      (unreadyRun.after unreadyCourse).phase.atWork = false ∧
      unreadyRun.closings unreadyCourse = [⟨0, true⟩] ∧ ClosedOnce unreadyRun unreadyCourse :=
  ⟨⟨by decide +kernel, by decide +kernel, closedOnce_of_make make_counting countingCourse⟩,
    by decide +kernel, by decide +kernel, by decide +kernel,
    closedOnce_of_make make_unready unreadyCourse⟩

end Closing
end RowFlow
