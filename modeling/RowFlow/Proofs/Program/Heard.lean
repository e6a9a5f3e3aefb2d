import RowFlow.Proofs.Flow.History
import RowFlow.Proofs.Program.Runs

/-
What a program that has come to its end tells of the code that it came of.  The code went
one of its courses; what was noted and which rows were taken are the notes and the rows
among its replies (`exists_course`).  All the rest that the requests of a copy come down
to is silent.  A row that is sent is never answered by a row failure: what row sets answer
and what comes after the end of the outputs are faults of other kinds.
-/
namespace RowFlow

namespace Reply

def note? : Reply → Option Note
  | ⟨.note n, _⟩ => some n
  | _ => none

def row? : Reply → Option Row
  | ⟨.getRow, some row⟩ => some row
  | _ => none

end Reply

structure Heard (ds : List Doing) (replies : List Reply) : Prop where
  notes : Doing.notes ds = replies.filterMap Reply.note?
  rows : Doing.rows ds = replies.filterMap Reply.row?
  sent : ∀ row f, ⟨.putRow row, .error f⟩ ∈ replies → f.isRowFailure = false

namespace Heard

variable {ds es : List Doing} {replies more : List Reply}

theorem nil : Heard [] [] := ⟨rfl, rfl, fun _ _ h => absurd h List.not_mem_nil⟩

theorem of_agree (h : Doing.Agree ds es) (h' : Heard es replies) : Heard ds replies :=
  ⟨h.notes.trans h'.notes, h.rows.trans h'.rows, h'.sent⟩

theorem append (h : Heard ds replies) (h' : Heard es more) :
    Heard (ds ++ es) (replies ++ more) where
  notes := by rw [Doing.notes_append, h.notes, h'.notes, List.filterMap_append]
  rows := by rw [Doing.rows_append, h.rows, h'.rows, List.filterMap_append]
  sent row f hmem := (List.mem_append.mp hmem).elim (h.sent row f) (h'.sent row f)

end Heard

namespace Program

variable {α : Type} {p : Program α} {l m : Local} {ds : List Doing} {v : α}

theorem Within.silent (h : p.Within Node.Quiet) : p.Within Node.Silent := h.mono fun _ h => h.2

theorem Within.inner (h : p.Within Node.Quiet) : p.Within Node.Inner := h.mono fun _ h => h.1

section Quiet

theorem within_marked {allowed : Node → Prop} {before : Mark} {after : α → Mark}
    (hbefore : allowed (.act (.mark before))) (hafter : ∀ v, allowed (.act (.mark (after v))))
    (hp : p.Within allowed) : (marked before after p).Within allowed :=
  (within_perform hbefore).bind fun _ => hp.bind fun x =>
    (within_perform (hafter x)).bind fun _ => within_pure x

theorem quiet_addError : addError.Within Node.Quiet :=
  within_addError.mono fun _ h => h.quiet

theorem quiet_stop (r : StopReason) : (stop r).Within Node.Quiet :=
  (within_stop r).mono fun _ h => h.quiet

theorem quiet_recordSourceRows (n : Nat) : (recordSourceRows n).Within Node.Quiet :=
  (within_recordSourceRows n).mono fun _ h => h.quiet

theorem quiet_sendTo (o : Outlet) (row : Row) : (sendTo o row).Within Node.Quiet := by
  refine (within_perform (a := .choose o) ⟨trivial, trivial⟩).bind fun i? => ?_
  cases i? with
  | none => exact within_pure _
  | some i => exact ⟨⟨trivial, trivial⟩, fun _ => trivial⟩

theorem quiet_sendToAll (row : Row) (places : List Nat) :
    (sendToAll row places).Within Node.Quiet := by
  induction places with
  | nil => exact within_pure _
  | cons place rest ih =>
    refine (quiet_sendTo _ row).bind fun r => ?_
    cases r with
    | ok _ => exact ih
    | error f => exact within_pure _

theorem quiet_putRow (row : Row) : (putRow row).Within Node.Quiet := by
  refine within_marked ⟨trivial, trivial⟩ (fun _ => ⟨trivial, trivial⟩) ?_
  refine (within_perform (a := .own) ⟨trivial, trivial⟩).bind fun l => ?_
  split
  · exact within_pure _
  · refine (within_perform (a := .isStopped) ⟨trivial, trivial⟩).bind fun stopped => ?_
    split
    · exact within_pure _
    · refine (quiet_sendToAll row _).bind fun r => ?_
      cases r with
      | error f => exact within_pure _
      | ok _ =>
        refine (within_perform (a := .add .written 1) ⟨trivial, trivial⟩).bind fun _ => ?_
        split
        · exact (quiet_recordSourceRows 1).bind fun _ => within_pure _
        · exact within_pure _

theorem quiet_sendError (row : Row) : (sendError row).Within Node.Quiet := by
  refine (within_perform (a := .choose .error) ⟨trivial, trivial⟩).bind fun i? => ?_
  cases i? with
  | none => exact within_pure _
  | some i =>
    refine (within_perform (a := .isStopped) ⟨trivial, trivial⟩).bind fun stopped => ?_
    split
    · exact within_pure _
    · exact ⟨⟨trivial, trivial⟩, fun _ => trivial⟩

theorem quiet_rejectRow (row : Row) (d : Diagnostic) : (rejectRow row d).Within Node.Quiet := by
  refine within_marked ⟨trivial, trivial⟩ (fun _ => ⟨trivial, trivial⟩) ?_
  refine (within_perform (a := .own) ⟨trivial, trivial⟩).bind fun l => ?_
  split
  · exact within_pure _
  · split
    · exact within_pure _
    · refine (quiet_sendError _).bind fun r => ?_
      cases r with
      | error f => exact within_pure _
      | ok _ =>
        exact (within_perform (a := .add .rejected 1) ⟨trivial, trivial⟩).bind fun _ =>
          quiet_addError.bind fun _ => within_pure _

theorem quiet_closeAll (places : List Nat) : (closeAll places).Within Node.Quiet := by
  induction places with
  | nil => exact within_pure _
  | cons i rest ih => exact (within_perform (a := .close i) ⟨trivial, trivial⟩).bind fun _ => ih

theorem quiet_endOutput : endOutput.Within Node.Quiet := by
  refine (within_perform (a := .own) ⟨trivial, trivial⟩).bind fun l => ?_
  split
  · exact within_pure _
  · exact (within_perform (a := .endOutput) ⟨trivial, trivial⟩).bind fun _ => quiet_closeAll _

theorem quiet_failStep : failStep.Within Node.Quiet :=
  quiet_addError.bind fun _ => (within_perform (a := .own) ⟨trivial, trivial⟩).bind fun _ =>
    (quiet_stop _).bind fun _ => within_pure _

theorem quiet_afterFault (f : Fault) : (afterFault f).Within Node.Quiet := by
  refine (within_perform (a := .own) ⟨trivial, trivial⟩).bind fun l => ?_
  split
  · refine (quiet_rejectRow _ _).bind fun r => ?_
    cases r with
    | ok _ => exact within_pure _
    | error f => exact quiet_failStep
  · exact quiet_failStep

theorem quiet_request {q : Request} (hget : q ≠ .getRow) (hnote : ∀ n, q ≠ .note n) :
    q.program.Within Node.Quiet := by
  cases q with
  | getRow => exact absurd rfl hget
  | note n => exact absurd rfl (hnote n)
  | putRow row => exact quiet_putRow row
  | rejectRow row d => exact quiet_rejectRow row d
  | endOutput => exact quiet_endOutput
  | addError => exact quiet_addError
  | add c n => exact within_perform (a := .add c n) ⟨trivial, trivial⟩
  | look => exact (within_perform (a := .own) ⟨trivial, trivial⟩).bind fun _ => within_pure _
  | isStopped => exact within_perform (a := .isStopped) ⟨trivial, trivial⟩
  | stop r => exact quiet_stop r
  | addRunErrors n => exact (within_addRunErrors n).mono fun _ h => h.quiet
  | recordSourceRows n => exact quiet_recordSourceRows n
  | hold => exact within_perform (a := .hold) ⟨trivial, trivial⟩
/-- Nothing that hooks ask for is out of their reach. -/
theorem within_request (q : Request) : q.program.Within Node.Inner := by
  by_cases hget : q = .getRow
  · subst hget
    exact within_marked trivial (fun _ => trivial) ⟨trivial, fun _ => trivial⟩
  by_cases hnote : ∃ n, q = .note n
  · obtain ⟨n, rfl⟩ := hnote
    exact within_perform trivial
  · exact (quiet_request hget fun n hn => hnote ⟨n, hn⟩).inner

theorem within_behaviour (b : Behaviour α) : b.program.Within Node.Inner := by
  induction b with
  | done a => exact trivial
  | ask q next ih => exact (within_request q).bind ih

end Quiet

section Leaving

theorem leaving_detachAll (places : List Nat) : (detachAll places).Within Node.Leaving := by
  induction places with
  | nil => exact within_pure _
  | cons i rest ih => exact (within_perform (a := .detach i) trivial).bind fun _ => ih

theorem leaving_detachInputs : detachInputs.Within Node.Leaving :=
  (within_perform (a := .own) trivial).bind fun l => (leaving_detachAll l.inputs).bind fun _ =>
    within_perform (a := .leaveInputs) trivial

end Leaving

section Sent

variable {row : Row} {f : Fault}

theorem isRowFailure_of_offer {s : RowSet} (h : (s.offer row).2 = .error f) :
    f.isRowFailure = false := by
  unfold RowSet.offer at h
  split at h
  · cases h
    rfl
  · split at h
    · cases h
    · split at h
      · cases h
      · split at h
        · cases h
          rfl
        · cases h

theorem isRowFailure_of_sendTo {o : Outlet} (h : (sendTo o row).Runs l ds (.error f) m) :
    f.isRowFailure = false := by
  obtain ⟨_, _, i?, l₁, _, es, -, hrest, -⟩ := h.perform
  cases i? with
  | none => cases hrest
  | some i =>
    cases hrest with
    | delivered r hf hlast =>
      cases r with
      | error g =>
        cases hlast
        obtain ⟨s, hs⟩ := hf f rfl
        exact isRowFailure_of_offer hs
      | ok x => cases hlast

theorem isRowFailure_of_sendToAll {places : List Nat}
    (h : (sendToAll row places).Runs l ds (.error f) m) : f.isRowFailure = false := by
  induction places generalizing l ds with
  | nil => cases h
  | cons place rest ih =>
    obtain ⟨es, r, l₁, es', hsend, hrest, -⟩ := h.bind
    cases r with
    | ok _ => exact ih hrest
    | error g =>
      cases hrest
      exact isRowFailure_of_sendTo hsend

theorem isRowFailure_of_putRow (h : (putRow row).Runs l ds (.error f) m) :
    f.isRowFailure = false := by
  obtain ⟨es, hes, -⟩ := h.marked
  obtain ⟨b, fs, hfs, -⟩ := hes.own
  rw [done_bind] at hfs
  split at hfs
  · cases hfs
    rfl
  · obtain ⟨_, _, stopped, l₁, _, gs, -, hrest, -⟩ := hfs.perform
    cases stopped with
    | true => cases hrest
    | false =>
      obtain ⟨hs, r, l₂, hs', hsend, hlast, -⟩ :=
        Runs.bind (p := sendToAll row (List.range l.outputs.length)) hrest
      cases r with
      | error g =>
        cases hlast
        exact isRowFailure_of_sendToAll hsend
      | ok _ =>
        obtain ⟨_, _, _, l₃, _, ks, -, hcount, -⟩ := hlast.perform
        split at hcount
        · obtain ⟨js, _, l₄, js', -, hend, -⟩ := hcount.bind
          cases hend
        · cases hcount

end Sent

/-- What a request comes down to is silent, unless it asks for a row or notes something. -/
theorem heard_request {q : Request} {x : q.Answer} (h : q.program.Runs l ds x m) :
    Heard ds [⟨q, x⟩] := by
  by_cases hget : q = .getRow
  · subst hget
    obtain ⟨es, hes, rfl⟩ := h.marked
    cases hes with
    | took hr =>
      cases hr
      exact ⟨rfl, rfl, by simp⟩
    | dry hr =>
      cases hr
      exact ⟨rfl, rfl, by simp⟩
  by_cases hnote : ∃ n, q = .note n
  · obtain ⟨n, rfl⟩ := hnote
    cases h with
    | act _ hr =>
      cases hr
      exact ⟨rfl, rfl, by simp⟩
  · have hsilent := h.silent (quiet_request hget fun n hn => hnote ⟨n, hn⟩).silent
    have hreply : Reply.note? ⟨q, x⟩ = none ∧ Reply.row? ⟨q, x⟩ = none := by
      cases q with
      | getRow => exact absurd rfl hget
      | note n => exact absurd ⟨n, rfl⟩ hnote
      | _ => exact ⟨rfl, rfl⟩
    refine ⟨by simp [hsilent.notes, hreply.1], by simp [hsilent.rows, hreply.2],
      fun row f hmem => ?_⟩
    cases List.mem_singleton.mp hmem
    exact isRowFailure_of_putRow h

/-- The code has gone one of its courses. -/
theorem exists_course {b : Behaviour α} (h : b.program.Runs l ds v m) :
    ∃ replies, b.Course replies v ∧ Heard ds replies := by
  induction b generalizing l ds with
  | done a =>
    cases h
    exact ⟨[], .done _, .nil⟩
  | ask q next ih =>
    obtain ⟨es, x, l', es', hq, hnext, rfl⟩ := h.bind
    obtain ⟨replies, hcourse, hheard⟩ := ih x hnext
    exact ⟨_, .ask hcourse, (heard_request hq).append hheard⟩

end Program
end RowFlow
