import Mathlib.Data.List.Forall2
import RowFlow.Proofs.RowSet.Fifo
import RowFlow.Proofs.Sending.Calls

/-
Which rows count.  A row that was put counts as written when the call comes back without a
fault and did not find the flag up; a rejected row counts as rejected when the call comes back
without a fault at all.  That is so when the row sets take the row, or discard it for want of a
consumer.  It is also so when the run is stopped while there is no space for the row, though
the row is dropped then, and a rejected row counts even if it goes nowhere because the flag is
up already.

So the counters count the rows that have left the copy as long as none is dropped.
-/
namespace RowFlow

/-- The row has left the copy: the row set has taken it, or nobody is there to read it. -/
def Sending.leaves (x : Sending) : Bool :=
  match x.result with
  | .ok .accepted => true
  | .ok .discarded => true
  | _ => false

def Sending.drops (x : Sending) : Bool :=
  match x.result with
  | .ok .dropped => true
  | _ => false

open Doing

namespace Program

def Leaves (row : Row) (is : List Nat) (xs : List Sending) : Prop :=
  List.Forall₂ (fun i x => x.rowSet = i ∧ x.row = row ∧ x.leaves = true) is xs

namespace Answered

variable {row : Row} {is : List Nat} {xs : List Sending} {r : Except Fault Unit}

/-- A row that has left for all row sets was refused by none, -/
theorem ok_of_leaves (h : Answered row is xs r) (hl : Leaves row is xs) : r = .ok () := by
  induction h with
  | all => rfl
  | next x h ih =>
    cases hl with
    | cons hx hl => exact ih hl
  | fault f =>
    cases hl with
    | cons hx hl => cases hx.2.2

/-- and a row that was refused by none and nowhere dropped has left for all of them. -/
theorem leaves (h : Answered row is xs (.ok ())) (hd : ∀ x ∈ xs, x.drops = false) :
    Leaves row is xs := by
  generalize hr : Except.ok () = r at h
  induction h with
  | all => exact .nil
  | next x h ih =>
    obtain ⟨hx, hd⟩ := List.forall_mem_cons.mp hd
    refine .cons ⟨rfl, rfl, ?_⟩ (ih hd hr)
    cases x with
    | dropped => cases hx
    | _ => rfl
  | fault f => cases hr

end Answered

/-- What comes of the counters of the copy in a call to put a row. -/
structure PutCounted (row : Row) (l : Local) (ds : List Doing) (r : Except Fault Unit)
    (m : Local) : Prop where
  once : m.counts = l.counts ∨ m.counts = l.counts.add 1 .written
  /-- The row counts if the call gets past the flag and no row set refuses the row; -/
  counts : m.counts.written = l.counts.written + 1 ↔ r = .ok () ∧ true ∉ looks ds
  /-- if it does not get past the flag, the row does not count and is not sent. -/
  stopped : true ∈ looks ds → m.counts = l.counts ∧ sendings ds = []
  /-- If it is nowhere dropped, the row counts just if it has left for every output. -/
  leaves : (∀ x ∈ sendings ds, x.drops = false) →
    (m.counts.written = l.counts.written + 1 ↔ l.outputDone = false ∧ true ∉ looks ds ∧
      Leaves row (chosen l.outputs) (sendings ds))

/-- What comes of the counters of the copy in a call to reject a row. -/
structure RejectCounted (row : Row) (d : Diagnostic) (l : Local) (ds : List Doing)
    (r : Except Fault Unit) (m : Local) : Prop where
  once : m.counts = l.counts ∨ m.counts = (l.counts.add 1 .rejected).add 1 .errors
  /-- The row counts if the call comes back without a fault. -/
  counts : m.counts.rejected = l.counts.rejected + 1 ↔ r = .ok ()
  /-- If it is neither dropped nor held back by the flag, the row counts just if it has left for
  the error output. -/
  leaves : (∀ x ∈ sendings ds, x.drops = false) → true ∉ looks ds →
    (m.counts.rejected = l.counts.rejected + 1 ↔ l.errorHandling = true ∧
      ∃ out, errorRow row d = .ok out ∧
        Leaves out (l.errorOutput.bind Branch.current?).toList (sendings ds))

section Counted

variable {row : Row} {d : Diagnostic} {l m : Local} {ds : List Doing} {r : Except Fault Unit}

/-- Where nothing counts, two conditions are alike that do not hold. -/
theorem uncounted_iff {n : Nat} {P : Prop} (h : ¬ P) : n = n + 1 ↔ P :=
  iff_of_false (Nat.ne_of_lt (Nat.lt_succ_self n)) h

theorem Puts.putCounted (h : Puts row l ds r m) : PutCounted row l ds r m := by
  cases h with
  | late hdone hask hsent hc =>
    refine ⟨.inl hc.counts, ?_, fun _ => ⟨hc.counts, hsent⟩, fun _ => ?_⟩ <;> rw [hc.counts]
    · exact uncounted_iff fun h => by cases h.1
    · exact uncounted_iff fun h => by simp [hdone] at h
  | stopped hopen hask hsent hc =>
    refine ⟨.inl hc.counts, ?_, fun _ => ⟨hc.counts, hsent⟩, fun _ => ?_⟩ <;> rw [hc.counts, hask]
    · exact uncounted_iff fun h => h.2 (List.mem_singleton_self true)
    · exact uncounted_iff fun h => h.2.1 (List.mem_singleton_self true)
  | refused hopen hask hsent hc =>
    refine ⟨.inl hc.counts, ?_, fun h => ?_, fun _ => ?_⟩
    · rw [hc.counts]
      exact uncounted_iff fun h => by cases h.1
    · simp [hask] at h
    · rw [hc.counts]
      exact uncounted_iff fun h => by cases hsent.ok_of_leaves h.2.2
  | sent hopen hask hsent hcounts htold hturns =>
    have hone : m.counts.written = l.counts.written + 1 := congrArg Counts.written hcounts
    refine ⟨.inr hcounts, iff_of_true hone ⟨rfl, by simp [hask]⟩, fun h => ?_, fun hd => ?_⟩
    · simp [hask] at h
    · exact iff_of_true hone ⟨hopen, by simp [hask], hsent.leaves hd⟩

theorem Reports.ok_of_leaves {out : Row} {i? : Option Nat} (h : Reports out i? ds r)
    (hl : Leaves out i?.toList (sendings ds)) : r = .ok () := by
  cases h with
  | nowhere h hask hsent => rfl
  | stopped h hask hsent => rfl
  | sent h hask x hsent =>
    rw [h, hsent] at hl
    cases hl with
    | cons hx _ =>
      cases x with
      | error f => cases hx.2.2
      | ok x => rfl

theorem Reports.leaves {out : Row} {i? : Option Nat} (h : Reports out i? ds (.ok ()))
    (hd : ∀ x ∈ sendings ds, x.drops = false) (hlooks : true ∉ looks ds) :
    Leaves out i?.toList (sendings ds) := by
  generalize hr : Except.ok () = r at h
  cases h with
  | nowhere h hask hsent =>
    rw [h, hsent]
    exact .nil
  | stopped h hask hsent =>
    rw [hask] at hlooks
    exact absurd (List.mem_singleton_self true) hlooks
  | sent h hask x hsent =>
    rw [hsent] at hd ⊢
    rw [h]
    refine .cons ⟨rfl, rfl, ?_⟩ .nil
    have hx := hd _ (List.mem_singleton_self _)
    rcases x with f | accepted | discarded | dropped
    · cases hr
    · rfl
    · rfl
    · cases hx

theorem Rejects.rejectCounted (h : Rejects row d l ds r m) : RejectCounted row d l ds r m := by
  cases h with
  | disabled he hsent hc =>
    refine ⟨.inl hc.counts, ?_, fun _ _ => ?_⟩ <;> rw [hc.counts]
    · exact uncounted_iff fun h => by cases h
    · exact uncounted_iff fun h => by simp [he] at h
  | unmade he hout hsent hc =>
    refine ⟨.inl hc.counts, ?_, fun _ _ => ?_⟩ <;> rw [hc.counts]
    · exact uncounted_iff fun h => by cases h
    · exact uncounted_iff fun h => by simp [hout] at h
  | refused he hout hsent hc hturn =>
    refine ⟨.inl hc.counts, ?_, fun _ _ => ?_⟩ <;> rw [hc.counts]
    · exact uncounted_iff fun h => by cases h
    · refine uncounted_iff fun h => ?_
      obtain ⟨-, out', hout', hl⟩ := h
      rw [hout, Except.ok.injEq] at hout'
      subst hout'
      cases hsent.ok_of_leaves hl
  | counted he hout hsent hcounts htold hturn =>
    have hone : m.counts.rejected = l.counts.rejected + 1 := congrArg Counts.rejected hcounts
    exact ⟨.inr hcounts, iff_of_true hone rfl, fun hd hlooks =>
      iff_of_true hone ⟨he, _, hout, hsent.leaves hd hlooks⟩⟩

end Counted

/-- What came of the rows that were sent has its reason in what was found. -/
structure Explained (hs : List Happening) : Prop where
  dropped : ∀ x ∈ hs, ∀ i row, x.doing = .delivered i row (.ok .dropped) →
    x.found.control.stopped = true
  discarded : ∀ x ∈ hs, ∀ i row, x.doing = .delivered i row (.ok .discarded) →
    x.found.IsDetached i

theorem Amid.explained {α : Type} {p : Program α} {os : List Nat} {l m : Local} {s t : Shared}
    {hs : List Happening} {v : α} (h : p.Amid os l s hs v m t) : Explained hs where
  dropped x hx i row hd := by
    obtain ⟨t₁, -, hfinds, -⟩ := h.passes.finds hx
    rw [hd] at hfinds
    cases Finds.delivered_iff.mp hfinds with
    | dropped hstopped => exact hstopped
  discarded x hx i row hd := by
    obtain ⟨t₁, -, hfinds, -⟩ := h.passes.finds hx
    rw [hd] at hfinds
    cases Finds.delivered_iff.mp hfinds with
    | discarded hoffer =>
      intro rs hrs
      rw [Shared.offer_answer hrs] at hoffer
      exact RowSet.detached_of_discarded hoffer

/-- Whatever others do meanwhile, the two counters count a row as these say. -/
theorem counted_of_amid (os : List Nat) :
    (∀ row l s hs r m t, (putRow row).Amid os l s hs r m t →
      PutCounted row l (Happening.doings hs) r m ∧ Explained hs) ∧
    ∀ row d l s hs r m t, (rejectRow row d).Amid os l s hs r m t →
      RejectCounted row d l (Happening.doings hs) r m ∧ Explained hs :=
  ⟨fun _ _ _ _ _ _ _ h => ⟨(runs_putRow h.runs).putCounted, h.explained⟩,
    fun _ _ _ _ _ _ _ _ h => ⟨(runs_rejectRow_rejects h.runs).rejectCounted, h.explained⟩⟩

section Narrow

def narrowFull : Local × Shared := ((putRow (numbered 1)).unaided 12 narrow narrowShared).2.2

def halted (s : Shared) : Shared := { s with control := (s.control.stop .external).1 }

theorem meanwhile_halted (os : List Nat) (s : Shared) : s.Meanwhile os (halted s) :=
  Shared.meanwhile_control
    (le_trans (s.control.le_giveReason .external) (Control.le_raiseFlag _))

def narrowPut : List Happening × Program (Except Fault Unit) × Local × Shared :=
  (putRow (numbered 2)).unaided 12 narrowFull.1 (narrowFull.2.poll 0).1

def narrowReject : List Happening × Program (Except Fault Unit) × Local × Shared :=
  (rejectRow (numbered 2) flaw).unaided 12 narrow narrowShared

theorem counted_of_amid_narrow :
    PutCounted (numbered 2) narrowFull.1 (Happening.doings narrowPut.1) (.ok ())
      narrowPut.2.2.1 ∧
    RejectCounted (numbered 2) flaw narrow (Happening.doings narrowReject.1) (.ok ())
      narrowReject.2.2.1 :=
  ⟨((counted_of_amid [0, 1]).1 _ _ narrowFull.2 _ _ _ _
      ((amid_unaided _ rfl).before (Shared.meanwhile_poll _ 0))).1,
    ((counted_of_amid [0, 1]).2 _ _ _ _ _ _ _ _ (amid_unaided _ rfl)).1⟩

def narrowWaits : List Happening × Program (Except Fault Unit) × Local × Shared :=
  (putRow (numbered 2)).unaided 5 narrowFull.1 narrowFull.2

def narrowDrops : List Happening × Program (Except Fault Unit) × Local × Shared :=
  narrowWaits.2.1.unaided 8 narrowWaits.2.2.1 (halted narrowWaits.2.2.2)

/-- A row that is dropped as the run is stopped counts as written, though the row set whose
turn it is has neither taken nor discarded it. -/
theorem written_of_dropped :
    (putRow (numbered 2)).Amid [0, 1] narrowFull.1 narrowFull.2 (narrowWaits.1 ++ narrowDrops.1)
      (.ok ()) narrowDrops.2.2.1 narrowDrops.2.2.2 ∧
    sendings (Happening.doings (narrowWaits.1 ++ narrowDrops.1)) =
      [⟨0, numbered 2, .ok .dropped⟩] ∧
    ¬ (narrowDrops.2.2.1.counts.written = narrowFull.1.counts.written + 1 ↔
      Leaves (numbered 2) (chosen narrowFull.1.outputs)
        (sendings (Happening.doings (narrowWaits.1 ++ narrowDrops.1)))) := by
  have hsent : sendings (Happening.doings (narrowWaits.1 ++ narrowDrops.1)) =
      [⟨0, numbered 2, .ok .dropped⟩] := rfl
  refine ⟨.unaided ((amid_unaided _ rfl).before (meanwhile_halted _ _)), hsent, ?_⟩
  rw [hsent]
  intro h
  cases h.mp rfl with
  | cons hx _ => cases hx.2.2

end Narrow
end Program
end RowFlow
