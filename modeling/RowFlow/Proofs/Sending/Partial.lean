import RowFlow.Proofs.Sending.Dealing

/-
A row that is refused on the way.  The row sets of a row are asked one after the other, and
what one of them has accepted is not taken back when a later one refuses the row.  So a call
that ends with a fault may have sent the row to some outputs: those that come before the one
whose row set refused it (`partial_of_amid`).  Row sets fix their layouts one by one as rows
take turns over them, and so a row of another layout can get through to one output and not to
the next (`received_of_refused`).

No counter tells of such a row.
-/
namespace RowFlow

open Doing

namespace Program

/-- What was sent up to the row set that refuses the row. -/
theorem Answered.split {row : Row} {is : List Nat} {xs : List Sending} {f : Fault}
    (h : Answered row is xs (.error f)) : ∃ ys i after, is = ys.map (·.rowSet) ++ i :: after ∧
      xs = ys ++ [⟨i, row, .error f⟩] ∧ ∀ y ∈ ys, y.row = row ∧ ∃ x, y.result = .ok x := by
  generalize hr : Except.error f = r at h
  induction h with
  | all => cases hr
  | @next i is xs r x h ih =>
    obtain ⟨ys, j, after, rfl, rfl, hys⟩ := ih hr
    exact ⟨⟨i, row, .ok x⟩ :: ys, j, after, rfl, rfl, List.forall_mem_cons.mpr ⟨⟨rfl, x, rfl⟩, hys⟩⟩
  | @fault i is g =>
    cases hr
    exact ⟨[], i, is, rfl, rfl, List.forall_mem_nil _⟩

theorem accepted?_of_ne {x : Sending} {j : Nat} (h : x.rowSet ≠ j) : x.accepted? j = none := by
  obtain ⟨i, row, f | x⟩ := x
  · rfl
  · cases x with
    | accepted => exact if_neg h
    | _ => rfl

/-- Only the row sets that come before have received the row. -/
theorem received_of_split {row : Row} {f : Fault} {ds : List Doing} {i j : Nat}
    {ys : List Sending} (hsent : sendings ds = ys ++ [⟨i, row, .error f⟩])
    (hj : j ∉ ys.map (·.rowSet)) : received j ds = [] := by
  rw [received, hsent, List.filterMap_append, List.append_eq_nil_iff]
  refine ⟨List.filterMap_eq_nil_iff.mpr fun y hy => accepted?_of_ne fun hne => ?_, rfl⟩
  exact hj (hne ▸ List.mem_map_of_mem hy)

/-- Where a row has got to when a call to put it fails. -/
inductive Stopped (row : Row) (l : Local) (ds : List Doing) (f : Fault) : Prop
  /-- The outputs have ended, and the row goes nowhere. -/
  | late (h : l.outputDone = true) (hf : f = afterEnd l.info) (hsent : sendings ds = [])
  /-- One of the row sets refuses the row; the ones before it may have received it, and none
  else has. -/
  | refused {ys : List Sending} {i : Nat} {after : List Nat}
      (hchosen : chosen l.outputs = ys.map (·.rowSet) ++ i :: after)
      (hsent : sendings ds = ys ++ [⟨i, row, .error f⟩])
      (hbefore : ∀ y ∈ ys, y.row = row ∧ ∃ x, y.result = .ok x)
      (hrest : ∀ j ∉ ys.map (·.rowSet), received j ds = [])

theorem Puts.stopped_of_error {row : Row} {l m : Local} {ds : List Doing} {f : Fault}
    (h : Puts row l ds (.error f) m) : Uncounted l ds m ∧ Stopped row l ds f := by
  cases h with
  | late h hask hsent hc => exact ⟨hc, .late h rfl hsent⟩
  | refused h hask hsent hc =>
    obtain ⟨ys, i, after, hchosen, hsplit, hys⟩ := hsent.split
    exact ⟨hc, .refused hchosen hsplit hys fun j hj => received_of_split hsplit hj⟩

structure PutFails (os : List Nat) (row : Row) (l : Local) (s : Shared) (ds : List Doing)
    (f : Fault) (m : Local) (t : Shared) : Prop where
  /-- No counter of the copy and no total of the run is raised. -/
  uncounted : Uncounted l ds m
  stopped : Stopped row l ds f
  /-- To a row set that nobody else writes to nothing is added but what it has received. -/
  added : ∀ j ∈ os, ∀ rs, s.rowSets[j]? = some rs →
    ∃ rs', t.rowSets[j]? = some rs' ∧ rs.Served (received j ds) rs'

/-- A call that fails counts nothing, and only row sets that were asked before the row was
refused have received it. -/
theorem partial_of_amid {os : List Nat} {row : Row} {l m : Local} {s t : Shared}
    {hs : List Happening} {f : Fault} (h : (putRow row).Amid os l s hs (.error f) m t) :
    PutFails os row l s (Happening.doings hs) f m t := by
  obtain ⟨huncounted, hstopped⟩ := (runs_putRow h.runs).stopped_of_error
  exact ⟨huncounted, hstopped, fun j hj rs hrs => h.passes.served hj hrs⟩

section Fork

def lettered (x : String) : Row := ⟨⟨[{ name := "id", type := .string }]⟩, [.string x], rfl⟩

def forkLettered : List Happening × Program (Except Fault Unit) × Local × Shared :=
  (putRow (lettered "x")).unaided 12 forkFirst.2.2.1 (forkFirst.2.2.2.poll 2).1

def forkFault : Fault :=
  .incompatible "right.0" (Schema.Difference.type 0 { name := "id", type := .integer }
    { name := "id", type := .string }).text

theorem amid_forkLettered : (putRow (lettered "x")).Amid [0, 1, 2] forkFirst.2.2.1
    forkFirst.2.2.2 forkLettered.1 (.error forkFault) forkLettered.2.2.1 forkLettered.2.2.2 :=
  (amid_unaided _ rfl).before (Shared.meanwhile_poll _ 2)

theorem partial_of_amid_fork :
    PutFails [0, 1, 2] (lettered "x") forkFirst.2.2.1 forkFirst.2.2.2
      (Happening.doings forkLettered.1) forkFault forkLettered.2.2.1 forkLettered.2.2.2 :=
  partial_of_amid amid_forkLettered

/-- The call fails, and yet one of the row sets has received the row. -/
theorem received_of_refused :
    (putRow (numbered 1)).Amid [0, 1, 2] fork forkShared forkFirst.1 (.ok ()) forkFirst.2.2.1
      forkFirst.2.2.2 ∧
    (putRow (lettered "x")).Amid [0, 1, 2] forkFirst.2.2.1 forkFirst.2.2.2 forkLettered.1
      (.error forkFault) forkLettered.2.2.1 forkLettered.2.2.2 ∧
    received 1 (Happening.doings forkLettered.1) = [lettered "x"] :=
  ⟨amid_unaided _ rfl, amid_forkLettered, rfl⟩

end Fork
end Program
end RowFlow
