import RowFlow.Proofs.Program.Effects
import RowFlow.Proofs.Program.Heard
import RowFlow.Proofs.Program.Parts

/-
What the code of a step has asked for, read off what its program has done.  A row is put where
the marks of a put stand, and a counter that only operators raise has grown by what was asked
for; all the rest that requests come down to raises other counters (`asked_behaviour`).
-/
namespace RowFlow

/-- What was done outside of the run is counted by the operators alone. -/
def Counter.isOutside : Counter → Bool
  | input | output | updated | inserted | deleted => true
  | _ => false

def Mark.put? : Mark → Option Row
  | put row => some row
  | _ => none

def Mark.putDone? : Mark → Option (Except Fault Unit)
  | putDone r => some r
  | _ => none

namespace Doing

def puts (ds : List Doing) : List Row := ds.filterMap fun d => d.mark?.bind Mark.put?

def putAnswers (ds : List Doing) : List (Except Fault Unit) :=
  ds.filterMap fun d => d.mark?.bind Mark.putDone?

def raised (k : Counter) (ds : List Doing) : Nat := (ds.map (added k)).sum

variable {ds es : List Doing} {k : Counter}

theorem puts_append : puts (ds ++ es) = puts ds ++ puts es := List.filterMap_append

theorem putAnswers_append : putAnswers (ds ++ es) = putAnswers ds ++ putAnswers es :=
  List.filterMap_append

theorem raised_append : raised k (ds ++ es) = raised k ds + raised k es := by
  rw [raised, List.map_append, List.sum_append]
  rfl

@[simp] theorem raised_cons (d : Doing) (ds : List Doing) :
    raised k (d :: ds) = d.added k + raised k ds := rfl

theorem raised_eq_zero (h : ∀ d ∈ ds, d.added k = 0) : raised k ds = 0 := by
  induction ds with
  | nil => rfl
  | cons d ds ih =>
    obtain ⟨hd, hds⟩ := List.forall_mem_cons.mp h
    rw [raised_cons, hd, ih hds]

def IsApart (d : Doing) : Prop := d.mark?.bind Mark.put? = none ∧ d.mark?.bind Mark.putDone? = none

theorem puts_eq_nil (h : ∀ d ∈ ds, d.IsApart) : puts ds = [] :=
  List.filterMap_eq_nil_iff.mpr fun d hd => (h d hd).1

theorem putAnswers_eq_nil (h : ∀ d ∈ ds, d.IsApart) : putAnswers ds = [] :=
  List.filterMap_eq_nil_iff.mpr fun d hd => (h d hd).2

theorem isApart_of_plain {d : Doing} (h : d.node.Plain) : d.IsApart := by
  cases d with
  | act a x =>
    cases a with
    | mark m => exact absurd h id
    | _ => exact ⟨rfl, rfl⟩
  | _ => exact ⟨rfl, rfl⟩

end Doing

namespace Reply

def put? : Reply → Option Row
  | ⟨.putRow row, _⟩ => some row
  | _ => none

def putAnswer? : Reply → Option (Except Fault Unit)
  | ⟨.putRow _, r⟩ => some r
  | _ => none

def added (k : Counter) : Reply → Nat
  | ⟨.add k' n, _⟩ => if k' = k then n else 0
  | _ => 0

end Reply

structure Asked (ds : List Doing) (replies : List Reply) : Prop where
  heard : Heard ds replies
  puts : Doing.puts ds = replies.filterMap Reply.put?
  answers : Doing.putAnswers ds = replies.filterMap Reply.putAnswer?
  raised : ∀ k, k.isOutside = true → Doing.raised k ds = (replies.map (Reply.added k)).sum

theorem Asked.append {ds es : List Doing} {replies more : List Reply} (h : Asked ds replies)
    (h' : Asked es more) : Asked (ds ++ es) (replies ++ more) where
  heard := h.heard.append h'.heard
  puts := by rw [Doing.puts_append, h.puts, h'.puts, List.filterMap_append]
  answers := by rw [Doing.putAnswers_append, h.answers, h'.answers, List.filterMap_append]
  raised k hk := by
    rw [Doing.raised_append, h.raised k hk, h'.raised k hk, List.map_append, List.sum_append]

namespace Program

variable {α : Type} {p : Program α} {l m : Local} {ds : List Doing} {v : α} {k : Counter}

theorem Runs.counts (h : p.Runs l ds v m) (k : Counter) :
    m.counts.get k = l.counts.get k + Doing.raised k ds := by
  induction h with
  | done a l b => rfl
  | @act a next l l' m b s s' x ds v h hr ih =>
    have hstep := Doing.Leads.counts (Doing.Leads.act (p := ⟨[], l.withCancelled b, s⟩) h) k
    rw [ih, hstep, Doing.raised_cons, ← Nat.add_assoc]
    rfl
  | @took scan next l m pending cursor row ds v hr ih =>
    have hstep : ((l.seeking pending cursor).taken row).counts.get k =
        l.counts.get k + (Doing.took row).added k := by
      by_cases hk : Counter.read = k
      · subst hk
        simp [Local.taken, Local.pass, Local.seeking, Doing.added]
      · simp [Local.taken, Local.pass, Local.seeking, Doing.added, hk,
          Counts.get_add_of_ne _ 1 (Ne.symm hk)]
    rw [ih, hstep, Doing.raised_cons, Nat.add_assoc]
  | dry _ ih =>
    rw [ih, Doing.raised_cons, show Doing.dry.added k = 0 from rfl, Nat.zero_add]
    rfl
  | @delivered i row _ _ _ _ _ _ r _ _ ih =>
    rw [ih, Doing.raised_cons, show (Doing.delivered i row r).added k = 0 from rfl, Nat.zero_add]

/-- Between its two marks a put does nothing that is marked. -/
theorem exists_putRow_eq (row : Row) :
    ∃ body, putRow row = marked (.put row) .putDone body ∧ body.Within Node.Plain := by
  refine ⟨_, rfl, ?_⟩
  refine (within_perform (a := .own) trivial).bind fun l => ?_
  split
  · exact within_pure _
  · refine (within_perform (a := .isStopped) trivial).bind fun stopped => ?_
    split
    · exact within_pure _
    · refine (within_parts_sendToAll (fun _ => trivial) (fun _ => trivial) _).bind fun r => ?_
      cases r with
      | error f => exact within_pure _
      | ok _ =>
        refine (within_perform (a := .add .written 1) trivial).bind fun _ => ?_
        split
        · exact ((within_recordSourceRows 1).mono fun _ h => h.plain).bind fun _ => within_pure _
        · exact within_pure _

end Program

theorem Node.Limits.signal {r : StopReason} {n : Node} (h : n.Limits r) : n.Signal := by
  cases h <;> trivial

theorem Node.Fails.signal {n : Node} (h : n.Fails) : n.Signal := by
  cases h with
  | limit h => exact h.signal
  | _ => trivial

theorem Node.Fails.add_errors {c : Counter} {n : Nat} (h : Node.Fails (.act (.add c n))) :
    c = .errors := by
  cases h with
  | add => rfl
  | limit h => cases h

namespace Request.Parts

variable {q : Request} {n : Node}

/-- Only a put has marks of a put. -/
theorem plain_or_mark (h : q.Parts n) (hq : ∀ row, q ≠ .putRow row) :
    n.Plain ∨ ∃ m, n = .act (.mark m) ∧ m.put? = none ∧ m.putDone? = none := by
  cases h with
  | get | got | reject | rejectDone => exact .inr ⟨_, rfl, rfl, rfl⟩
  | put row | putDone row => exact absurd rfl (hq row)
  | putLimit _ h | stop h | errorLimit _ h | rowLimit _ h => exact .inl h.signal.plain
  | error h | rejectFails _ _ h => exact .inl h.signal.plain
  | _ => exact .inl trivial

/-- Of what operators alone raise, only what is asked for is raised. -/
theorem isOutside_eq_false {c : Counter} {k : Nat} (h : q.Parts (.act (.add c k)))
    (hq : ∀ c n, q ≠ .add c n) : c.isOutside = false := by
  cases h with
  | add => exact absurd rfl (hq _ _)
  | putLimit _ h | stop h | errorLimit _ h | rowLimit _ h => cases h
  | error h | rejectFails _ _ h =>
    rw [h.add_errors]
    rfl
  | _ => rfl

end Request.Parts

namespace Doing

variable {q : Request} {d : Doing}

theorem isApart_of_parts (h : q.Parts d.node) (hq : ∀ row, q ≠ .putRow row) : d.IsApart := by
  rcases h.plain_or_mark hq with hplain | ⟨m, hm, hput, hdone⟩
  · exact isApart_of_plain hplain
  · cases d with
    | act a x =>
      cases hm
      exact ⟨hput, hdone⟩
    | _ => cases hm

theorem added_eq_zero_of_parts {k : Counter} (h : q.Parts d.node) (hq : ∀ c n, q ≠ .add c n)
    (hk : k.isOutside = true) : d.added k = 0 := by
  cases d with
  | act a x =>
    cases a with
    | add c n =>
      refine if_neg ?_
      rintro rfl
      rw [h.isOutside_eq_false hq] at hk
      cases hk
    | _ => rfl
  | took row =>
    refine if_neg ?_
    rintro rfl
    cases hk
  | _ => rfl

end Doing

namespace Program

variable {α : Type} {l m : Local} {ds : List Doing}

theorem asked_request {q : Request} {x : q.Answer} (h : q.program.Runs l ds x m) :
    Asked ds [⟨q, x⟩] := by
  have hparts := h.nodes (within_parts q)
  have hmarks : Doing.puts ds = [⟨q, x⟩].filterMap Reply.put? ∧
      Doing.putAnswers ds = [⟨q, x⟩].filterMap Reply.putAnswer? := by
    by_cases hput : ∃ row, q = .putRow row
    · obtain ⟨row, rfl⟩ := hput
      obtain ⟨body, hbody, hplain⟩ := exists_putRow_eq row
      have h : (putRow row).Runs l ds x m := h
      rw [hbody] at h
      obtain ⟨es, hes, rfl⟩ := h.marked
      have hapart := fun d hd => Doing.isApart_of_plain (hes.nodes hplain d hd)
      constructor
      · show row :: Doing.puts (es ++ [_]) = [row]
        rw [Doing.puts_append, Doing.puts_eq_nil hapart]
        rfl
      · show Doing.putAnswers (es ++ [_]) = [x]
        rw [Doing.putAnswers_append, Doing.putAnswers_eq_nil hapart]
        rfl
    · have hapart := fun d hd => Doing.isApart_of_parts (hparts d hd) fun row hrow =>
        hput ⟨row, hrow⟩
      rw [Doing.puts_eq_nil hapart, Doing.putAnswers_eq_nil hapart]
      cases q with
      | putRow row => exact absurd ⟨row, rfl⟩ hput
      | _ => exact ⟨rfl, rfl⟩
  refine ⟨heard_request h, hmarks.1, hmarks.2, fun k hk => ?_⟩
  by_cases hadd : ∃ c n, q = .add c n
  · obtain ⟨c, n, rfl⟩ := hadd
    cases h with
    | act _ hr =>
      cases hr
      rfl
  · rw [Doing.raised_eq_zero fun d hd =>
      Doing.added_eq_zero_of_parts (hparts d hd) (fun c n hq => hadd ⟨c, n, hq⟩) hk]
    cases q with
    | add c n => exact absurd ⟨c, n, rfl⟩ hadd
    | _ => rfl

/-- Code goes the same way whatever is made of what it comes to. -/
theorem runs_of_mapped {β : Type} {b : Behaviour α} {g : α → β} {w : β}
    (h : (b.bind fun a => .done (g a)).program.Runs l ds w m) :
    ∃ v, w = g v ∧ b.program.Runs l ds v m := by
  induction b generalizing l ds with
  | done a =>
    cases h with
    | done _ _ b => exact ⟨a, rfl, .done a l b⟩
  | ask q next ih =>
    obtain ⟨es, x, l', es', hq, hnext, rfl⟩ := h.bind
    obtain ⟨v, rfl, hv⟩ := ih x hnext
    exact ⟨v, rfl, hq.followed hv⟩

/-- What code has asked for is what its course says. -/
theorem asked_behaviour {b : Behaviour α} {v : α} (h : b.program.Runs l ds v m) :
    ∃ replies, b.Course replies v ∧ Asked ds replies := by
  induction b generalizing l ds with
  | done a =>
    cases h
    exact ⟨[], .done _, .nil, rfl, rfl, fun _ _ => rfl⟩
  | ask q next ih =>
    obtain ⟨es, x, l', es', hq, hnext, rfl⟩ := h.bind
    obtain ⟨replies, hcourse, hasked⟩ := ih x hnext
    exact ⟨_, .ask hcourse, (asked_request hq).append hasked⟩

end Program
end RowFlow
