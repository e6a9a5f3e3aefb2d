import RowFlow.Proofs.Flow.Operators
import RowFlow.Proofs.Flow.Totals

/-
Conservation of rows.  When a run is over and no reason to stop it was given, each row that
was sent along a hop has reached one copy of its target, once, and the counters say so.
-/
namespace RowFlow

/-- The operators of the library that hand on what they get, with the rows that they drop. -/
inductive Operator.Relays : Operator → (Row → Bool) → Prop
  | passThrough : Relays .passThrough fun _ => false
  | collector : Relays .collector fun _ => false
  | executor (x : Executor) (r : Resource) : Relays (x.operator r) fun _ => false
  | rejecter (x : Rejecter) (step : String) : Relays (x.operator step) fun _ => false
  | filter (keep : Row → Except Fault Bool) :
      Relays (.filter keep) fun row => (keep row).toOption == some false

theorem Operator.Relays.handsOn {op : Operator} {drops : Row → Bool} (h : op.Relays drops) :
    op.HandsOn drops := by
  cases h with
  | passThrough => exact handsOn_passThrough
  | collector => exact handsOn_collector
  | executor x r => exact x.handsOn_operator r
  | rejecter x step => exact x.handsOn_operator step
  | filter keep => exact handsOn_filter keep

namespace Flow

open Run

/-- The enabled hops of a kind that lead to a step. -/
def hopsInto (d : Definition) (step : String) (kind : HopKind) : Finset Hop :=
  (Plan.enabledHops d).toFinset.filter fun h => h.target = step ∧ h.kind = kind

/-- Along each hop the rows that were taken are those that were sent, and all rows that a
step has taken came along its hops.  So say the counters, unless an operator counts rows by
itself.  A copy that hands on what it gets has sent, rejected or dropped each row that it
has read. -/
structure Conserved (d : Definition) (t : Record) : Prop where
  rows : ∀ h ∈ Plan.enabledHops d,
    t.rowsOf h.target (·.takenFrom (t.run.outletsOf h.source)) =
      t.rowsOf h.source (·.emitted h.kind)
  taken : ∀ step, t.rowsOf step (·.taken) =
    ∑ h ∈ hopsInto d step .normal, t.rowsOf h.source (·.sent) +
      ∑ h ∈ hopsInto d step .error, t.rowsOf h.source (·.rejected)
  counts : (∀ c ∈ t.run.net.copies, c.op.Asks (¬ ·.Recounts)) → ∀ step,
    (t.run.result.stepTotals step).read =
      ∑ h ∈ hopsInto d step .normal, (t.run.result.stepTotals h.source).written +
        ∑ h ∈ hopsInto d step .error, (t.run.result.stepTotals h.source).rejected
  relayed : ∀ (place : Nat) (c : Copy), t.run.net.copies[place]? = some c →
    ∀ drops, c.op.Relays drops →
      c.own.counts.read = c.own.counts.written + c.own.counts.rejected +
        (Account.ofPast (t.past place)).takes.countP (drops ·.2)

section

variable {d : Definition} {t : Record} {steps : List StepDefinition}

/-- The hops to a step, kind by kind. -/
theorem sum_hopsInto {M : Type} [AddCommMonoid M] (step : String) (f : HopKind → Hop → M) :
    ∑ h ∈ (Plan.enabledHops d).toFinset with h.target = step, f h.kind h =
      ∑ h ∈ hopsInto d step .normal, f .normal h + ∑ h ∈ hopsInto d step .error, f .error h := by
  have herror : ∀ h : Hop, ¬ h.kind = .normal ↔ h.kind = .error := fun h => by
    cases h.kind <;> simp
  have hkind : ∀ k, ∑ h ∈ hopsInto d step k, f h.kind h = ∑ h ∈ hopsInto d step k, f k h := by
    intro k
    refine Finset.sum_congr rfl fun h hh => ?_
    rw [(Finset.mem_filter.mp hh).2.2]
  rw [← hkind, ← hkind,
    ← Finset.sum_filter_add_sum_filter_not _ (fun h => h.kind = .normal) fun h => f h.kind h]
  simp only [Finset.filter_filter, herror]
  rfl

theorem Drained.read_eq (ht : Drained steps (Plan.enabledHops d) t)
    (hcounted : ∀ (place : Nat) (c : Copy), t.run.net.copies[place]? = some c →
      Account.Counted (t.position place c).account) (step : String) :
    (t.run.result.stepTotals step).read =
      ∑ h ∈ hopsInto d step .normal, (t.run.result.stepTotals h.source).written +
        ∑ h ∈ hopsInto d step .error, (t.run.result.stepTotals h.source).rejected := by
  let total (k : Counter) (step : String) : Nat := (t.run.result.stepTotals step).get k
  calc (t.run.result.stepTotals step).read
      = ∑ place ∈ t.run.placesOf step, t.run.countAt place .read := t.run.get_stepTotals step .read
    _ = ∑ h ∈ (Plan.enabledHops d).toFinset with h.target = step,
          total h.kind.counter h.source := by
        simp only [total, get_stepTotals]
        exact ht.sum_read hcounted step
    _ = ∑ h ∈ hopsInto d step .normal, total .written h.source +
          ∑ h ∈ hopsInto d step .error, total .rejected h.source :=
        sum_hopsInto step fun kind h => total kind.counter h.source

end

/-- In a run that nothing has stopped rows are conserved. -/
theorem conserved_record {d : Definition} {registry : Registry} {config : Config} {r : Run}
    (hmake : make d registry config = .ok r) (hfair : ∀ c ∈ r.net.copies, c.op.Fair)
    (hdrains : ∀ c ∈ r.net.copies, c.own.inputs ≠ [] → c.op.Drains) (events : List Event)
    (hover : (r.after events).IsOver) (hclear : (r.after events).result.stopReason = none) :
    Conserved d (r.record events) := by
  obtain ⟨plan, hmade⟩ := made_of_make hmake
  have hend : AtEnd (r.record events) := atEnd_of_made hmade hdrains events hover hclear
  have hrun : (r.record events).run = r.after events := Record.run_after _ events
  obtain ⟨steps, hdrained⟩ := drained_of_atEnd hmade hfair hend
  refine ⟨fun h hmem => hdrained.rows hmem, fun step => ?_, fun hasks => ?_,
    fun place c hc drops hrelays => ?_⟩
  · rw [hdrained.taken step]
    exact sum_hopsInto step fun kind h => (r.record events).rowsOf h.source (·.emitted kind)
  · refine hdrained.read_eq fun place c hc => ?_
    obtain ⟨⟨replies, hspent, hwalk⟩, -, -⟩ := hend.complete place c hc
    exact Account.counted_of_spent (hasks c (List.mem_of_getElem? hc)) hspent hwalk
  · obtain ⟨⟨replies, hspent, hwalk⟩, -, -⟩ := hend.complete place c hc
    exact hrelays.handsOn.owes_of_spent hspent hwalk

theorem conserved_record_counting :
    ((countingRun.after countingCourse).result.stepTotals "sink").read = 2 ∧
      Conserved counting (countingRun.record countingCourse) := by
  refine ⟨by decide +kernel, conserved_record make_counting ?_ ?_ countingCourse isOver_counting
    (by decide +kernel)⟩
  · exact forall_counting (P := fun op _ => op.Fair) (Sequence.fair_operator _)
      Operator.handsOn_passThrough.fair
  · exact forall_counting (P := fun op inputs => inputs ≠ [] → op.Drains) (fun h => absurd rfl h)
      fun _ => Operator.handsOn_passThrough.drains

end Flow
end RowFlow
