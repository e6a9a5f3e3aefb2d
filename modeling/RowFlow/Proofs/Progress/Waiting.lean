import RowFlow.Proofs.Progress.Release
import RowFlow.Proofs.Run.Joined

/-
A run at work does not get stuck.  A copy that waits for space waits for a reader of the
row set, which comes after it in the plan; one that waits for rows waits for a writer,
which comes before it.  So nobody waits for space, the last in the plan least of all, and
then nobody waits for rows.
-/
namespace RowFlow
namespace Progress

open Run

def agreement (calm : Prop) : Agreement where
  world _ := True
  fits op := op.Asks fun q => calm → q ≠ .hold
  contract op _ := contract calm op

theorem lawful_agreement (calm : Prop) : (agreement calm).Lawful where
  contract _ hop := lawful_contract hop
  leads _ _ _ _ _ _ _ _ _ := trivial
  external _ _ := trivial
  raise _ _ _ := trivial
  refusal _ _ _ _ _ _ _ := trivial

/-- A copy that has come to work either looks at its inputs still or has given up all that
others may wait for. -/
inductive Settles (p : Position) : Prop
  | active (h : Active p)
  | released (state : p.own.status.state = .disposed) (closed : Closed p) (left : Left p)

theorem implies_settles {W : Shared → Prop} (calm : Prop) (op : Operator) :
    (contract calm op : Contract W op).Implies fun atWork p => atWork = true → Settles p where
  guard _ _ _ h _ := .active h.1
  made _ _ h := by cases h
  ready _ _ _ h := by cases h
  refused _ _ _ h := by cases h
  idle _ _ h _ := .active (Tidy.active h)
  leaving _ _ _ h _ := .active (Tidy.active h)
  gone _ _ h hwork := .released (h hwork).1 (h hwork).2.1 (h hwork).2.2

inductive Waits (c : Copy) (s : Shared) : Prop
  | rows (some : c.own.pending ≠ []) (all : ∀ i ∈ c.own.pending, s.blocksPoll i = true)
  | space (i : Nat) (outlet : i ∈ c.own.outlets) (full : s.blocksOffer i = true)

theorem waits_of_isBlocked {α : Type} {p : Program α} {c : Copy} {s : Shared}
    (h : p.isBlocked c.own s = true) (hhold : p.node? ≠ some (.act .hold))
    (hout : ∀ i row, p.node? = some (.deliver i row) → i ∈ c.own.outlets) : Waits c s := by
  cases p with
  | done a => simp [Program.isBlocked] at h
  | act a next =>
    cases a with
    | hold => exact absurd rfl hhold
    | _ => simp [Program.isBlocked] at h
  | receive scan next =>
    simp only [Program.isBlocked, Bool.and_eq_true, Bool.not_eq_true', List.isEmpty_eq_false_iff,
      List.all_eq_true] at h
    exact .rows h.1.2 h.2
  | deliver i row refused next =>
    simp only [Program.isBlocked, Bool.and_eq_true] at h
    exact .space i (hout i row rfl) h.2

section Blocks

variable {s : Shared} {i : Nat}

theorem exists_of_blocksPoll (h : s.blocksPoll i = true) :
    ∃ rs, s.rowSets[i]? = some rs ∧ rs.closed = false ∧ rs.buffer = [] := by
  unfold Shared.blocksPoll at h
  cases hrs : s.rowSets[i]? with
  | none => simp [hrs] at h
  | some rs =>
    simp only [hrs, Option.map_some, Option.getD_some, RowSet.blocksPoll, Bool.and_eq_true,
      Bool.not_eq_true', List.isEmpty_iff] at h
    exact ⟨rs, rfl, h⟩

theorem exists_of_blocksOffer (h : s.blocksOffer i = true) :
    ∃ rs, s.rowSets[i]? = some rs ∧ rs.closed = false ∧ rs.detached = false ∧
      rs.capacity ≤ rs.buffer.length := by
  unfold Shared.blocksOffer at h
  cases hrs : s.rowSets[i]? with
  | none => simp [hrs] at h
  | some rs =>
    simp only [hrs, Option.map_some, Option.getD_some, RowSet.blocksOffer, Bool.and_eq_true,
      Bool.not_eq_true', RowSet.isFull, decide_eq_true_eq] at h
    exact ⟨rs, rfl, h.1.1, h.1.2, h.2⟩

end Blocks

structure AtWork (r : Run) : Prop where
  joined : r.Joined
  settles : ∀ (place : Nat) (c : Copy), r.net.copies[place]? = some c →
    Settles ⟨[], c.own, r.net.shared⟩
  waits : ∀ (place : Nat) (c : Copy), r.net.copies[place]? = some c →
    c.own.status.state ≠ .disposed → r.net.canMove place = false → Waits c r.net.shared

theorem atWork_of_kept {t : Record} (h : t.Kept (agreement True)) (hj : t.run.Joined)
    (hwork : t.run.phase.atWork = true) : AtWork t.run where
  joined := hj
  settles place c hc := by
    obtain ⟨hop, hholds⟩ := h.copies place c hc
    rw [hwork] at hholds
    have hnow := hholds.now (implies_settles True c.op) trivial rfl
    cases hnow with
    | active h => exact .active ⟨h.state, h.reads.pending, h.reads.rest⟩
    | released hstate hclosed hleft => exact .released hstate hclosed hleft
  waits place c hc hstate hmove := by
    have hmeets := h.copies place c hc
    obtain ⟨hop, hholds⟩ := hmeets
    have hkind := h.staged.kinds c (List.mem_of_getElem? hc)
    have hguard := fun n hn => (h.copies place c hc).guard h.world (n := n) hn
    simp only [Net.canMove, hc] at hmove
    obtain ⟨op, own, task⟩ := c
    have hwaits : ∀ {α : Type} (p : Program α), p.isBlocked own t.run.net.shared = true →
        (∀ n, p.node? = some n → (⟨op, own, task⟩ : Copy).node? = some n) →
        Waits ⟨op, own, task⟩ t.run.net.shared := by
      intro α p hblocked hnode
      refine waits_of_isBlocked hblocked ?_ ?_
      · intro hn
        obtain ⟨_, hg⟩ := hguard _ (hnode _ hn)
        exact hg.2.1 trivial rfl
      · intro i row hn
        obtain ⟨_, hg⟩ := hguard _ (hnode _ hn)
        exact hg.2.2 i row rfl
    cases task with
    | beginning p => exact hwaits p (by simpa [Copy.canMove] using hmove) fun _ h => h
    | working p => exact hwaits p (by simpa [Copy.canMove] using hmove) fun _ h => h
    | leaving p => exact hwaits p (by simpa [Copy.canMove] using hmove) fun _ h => h
    | gone =>
      rw [hwork] at hholds
      exact absurd (hholds rfl).1 hstate
    | _ => rw [hwork] at hholds; cases hholds.1

namespace AtWork

variable {r : Run} (h : AtWork r)
  (hstuck : ∀ (place : Nat) (c : Copy), r.net.copies[place]? = some c →
    c.own.status.state ≠ .disposed → r.net.canMove place = false)
include h hstuck

/-- Nobody waits for space: the reader of the row set would wait for space itself. -/
theorem not_full (place : Nat) (c : Copy) (hc : r.net.copies[place]? = some c) :
    ∀ i ∈ c.own.outlets, r.net.shared.blocksOffer i = false := by
  -- By induction on how many copies come after it.
  induction hn : r.net.copies.length - place using Nat.strongRecOn generalizing place c with
  | ind n ih =>
    intro i hi
    by_contra hfull
    obtain ⟨rs, hrs, hopen, hstay, hlen⟩ := exists_of_blocksOffer (Bool.of_not_eq_false hfull)
    obtain ⟨b, hlt, c', hc', hi'⟩ := h.joined.reader place c hc i hi
    have hb := (List.getElem?_eq_some_iff.mp hc').1
    cases h.settles b c' hc' with
    | released _ _ hleft =>
      have hdetached := hleft i hi' rs hrs
      rw [hstay] at hdetached
      cases hdetached
    | active hactive =>
      cases h.waits b c' hc' hactive.state (hstuck b c' hc' hactive.state) with
      | space j hj hfull' =>
        have hno := ih (r.net.copies.length - b) (by omega) b c' hc' rfl j hj
        rw [hfull'] at hno
        cases hno
      | rows _ hall =>
        rcases hactive.reads.rest i hi' with hpending | hdone | hdetached
        · obtain ⟨rs', hrs', -, hempty⟩ := exists_of_blocksPoll (hall i hpending)
          obtain rfl : rs = rs' := Option.some.inj (hrs.symm.trans hrs')
          have hspace := h.joined.space i rs hrs
          rw [hempty, List.length_nil] at hlen
          omega
        · have hdone' := hdone rs hrs
          simp [RowSet.isDone, hopen] at hdone'
        · have hdetached' := hdetached rs hrs
          rw [hstay] at hdetached'
          cases hdetached'

/-- Nobody waits for rows: the writer of the row set would wait for rows itself. -/
theorem all_disposed (place : Nat) (c : Copy) (hc : r.net.copies[place]? = some c) :
    c.own.status.state = .disposed := by
  induction place using Nat.strongRecOn generalizing c with
  | ind place ih =>
    by_contra hstate
    cases h.waits place c hc hstate (hstuck place c hc hstate) with
    | space i hi hfull =>
      have hno := h.not_full hstuck place c hc i hi
      rw [hfull] at hno
      cases hno
    | rows hsome hall =>
      obtain ⟨i, hi⟩ := List.exists_mem_of_ne_nil _ hsome
      obtain ⟨rs, hrs, hopen, -⟩ := exists_of_blocksPoll (hall i hi)
      have hin : i ∈ c.own.inputs := by
        cases h.settles place c hc with
        | active hactive => exact hactive.reads.pending i hi
        | released hdisposed _ _ => exact absurd hdisposed hstate
      obtain ⟨a, hlt, c', hc', hi'⟩ := h.joined.writer place c hc i hin
      cases h.settles a c' hc' with
      | active hactive => exact hactive.state (ih a hlt c' hc')
      | released _ hclosed _ =>
        have hclosed' := hclosed i hi' rs hrs
        rw [hopen] at hclosed'
        cases hclosed'

end AtWork

theorem kept_of_made {calm : Prop} {d : Definition} {registry : Registry} {config : Config}
    {plan : Plan} {r : Run} (h : Made d registry config plan r)
    (hops : ∀ c ∈ r.net.copies, c.op.Asks fun q => calm → q ≠ .hold) :
    ({ run := r } : Record).Kept (agreement calm) :=
  h.kept trivial fun c hc => by
    obtain ⟨info, inputs, outputs, errorOutput, hown⟩ := h.own_fresh hc
    refine ⟨hops c hc, ?_⟩
    rw [hown]
    exact tidy_fresh _ _ _ _ _ _

/-- As long as some copy of a run at work is not disposed, some such copy can do something
other than try again in vain, if no operator waits for its work to be cancelled. -/
theorem exists_canMove {d : Definition} {registry : Registry} {config : Config} {r : Run}
    (h : make d registry config = .ok r)
    (hops : ∀ c ∈ r.net.copies, c.op.Asks (· ≠ .hold)) (events : List Event)
    (hwork : (r.after events).phase.atWork = true)
    (hleft : ∃ c ∈ (r.after events).net.copies, c.own.status.state ≠ .disposed) :
    ∃ (place : Nat) (c : Copy), (r.after events).net.copies[place]? = some c ∧
      c.own.status.state ≠ .disposed ∧ (r.after events).net.canMove place = true := by
  obtain ⟨plan, hmade⟩ := made_of_make h
  have hstart : ({ run := r } : Record).Kept (agreement True) :=
    kept_of_made hmade fun c hc => (hops c hc).mono fun _ h _ => h
  have hkept : (r.record events).Kept (agreement True) :=
    hstart.after (lawful_agreement True) events
  have hrun : (r.record events).run = r.after events := Record.run_after _ events
  have hatWork : AtWork (r.after events) := by
    have hw := atWork_of_kept hkept
    rw [hrun] at hw
    exact hw (hmade.joined events) hwork
  by_contra hnone
  obtain ⟨c, hc, hstate⟩ := hleft
  obtain ⟨place, hplace⟩ := List.mem_iff_getElem?.mp hc
  refine hstate (hatWork.all_disposed (fun place c hc hstate => ?_) place c hplace)
  by_contra hmove
  exact hnone ⟨place, c, hc, hstate, Bool.of_not_eq_false hmove⟩

def earlySink : List Event :=
  .prepare :: (turns 9 ++ [.chief, .start] ++ List.replicate 10 (.copy 1))

theorem exists_canMove_counting :
    (countingRun.after earlySink).net.canMove 1 = false ∧
      ∃ (place : Nat) (c : Copy), (countingRun.after earlySink).net.copies[place]? = some c ∧
        c.own.status.state ≠ .disposed ∧
          (countingRun.after earlySink).net.canMove place = true := by
  refine ⟨by decide +kernel, exists_canMove make_counting ?_ earlySink (by decide +kernel)
    (by decide +kernel)⟩
  exact forall_counting (P := fun op _ => op.Asks _)
    (Sequence.asks_operator (fun _ => by simp) _)
    (Operator.asks_passThrough (by simp) fun _ => by simp)

end Progress
end RowFlow
