import RowFlow.Operator.Executor
import RowFlow.Operator.Rejecter
import RowFlow.Proofs.Flow.Square

/-
Operators that hand on what they get.  In each round they take a row, and unless they
drop it they send one row for it or fail.  How such a round goes is said once
(`Operator.Handing`).  That the operator is fair, that it leaves nothing behind and that
none of its rows gets lost all come of it.
-/
namespace RowFlow

/-- The request takes or sends a row, or counts rows. -/
def Request.Deals : Request → Prop
  | getRow => True
  | putRow _ => True
  | rejectRow _ _ => True
  | q => q.Recounts

theorem Request.Sends.deals {q : Request} (h : q.Sends) : q.Deals := by
  cases q with
  | putRow row => trivial
  | rejectRow row d => trivial
  | _ => exact absurd h id

namespace Operator

inductive Dealing (drops : Row → Bool) (row : Row) : List Reply → Ending Bool → Prop
  | dropped (h : drops row = true) : Dealing drops row [] (.returned (.ok true))
  | sent (h : drops row = false) (out : Row) :
      Dealing drops row [⟨.putRow out, .ok ()⟩] (.returned (.ok true))
  | unsent (out : Row) (f : Fault) :
      Dealing drops row [⟨.putRow out, .error f⟩] (.returned (.error f))
  | failed (h : drops row = false) (f : Fault) : Dealing drops row [] (.returned (.error f))
  | stopped : Dealing drops row [⟨.isStopped, true⟩] (.returned (.ok false))
  | quiet {r : Reply} {rest : List Reply} {e : Ending Bool} (hr : ¬ r.request.Deals)
      (h : Dealing drops row rest e) : Dealing drops row (r :: rest) e

inductive Handing (drops : Row → Bool) : List Reply → Ending Bool → Prop
  | noRow : Handing drops [⟨.getRow, none⟩] (.returned (.ok false))
  | row {row : Row} {rest : List Reply} {e : Ending Bool} (h : Dealing drops row rest e) :
      Handing drops (⟨.getRow, some row⟩ :: rest) e

/-- All rounds of the operator hand on rows, and its other hooks have nothing to do with
rows. -/
structure HandsOn (op : Operator) (drops : Row → Bool) : Prop where
  init : (op.init op.start).Asks (¬ ·.Deals)
  process : ∀ m replies m' e, (op.process m).Course replies (m', e) → Handing drops replies e
  dispose : ∀ m, (op.dispose m).Asks (¬ ·.Deals)

section Dealing

variable {drops : Row → Bool} {row : Row} {replies : List Reply} {e : Ending Bool}

theorem Dealing.quiets {more : List Reply} (hquiet : ∀ r ∈ more, ¬ r.request.Deals)
    (h : Dealing drops row replies e) : Dealing drops row (more ++ replies) e := by
  induction more with
  | nil => exact h
  | cons r rest ih =>
    exact .quiet (hquiet r List.mem_cons_self) (ih fun s hs => hquiet s (List.mem_cons_of_mem r hs))

/-- A fault in sending is handed back. -/
theorem Dealing.handsBack (h : Dealing drops row replies e) {out : Row} {f : Fault}
    (hmem : ⟨.putRow out, .error f⟩ ∈ replies) : e = .returned (.error f) := by
  induction h with
  | sent _ _ => cases List.mem_singleton.mp hmem
  | unsent _ _ =>
    cases List.mem_singleton.mp hmem
    rfl
  | stopped => cases List.mem_singleton.mp hmem
  | quiet hr _ ih =>
    rcases List.mem_cons.mp hmem with rfl | hmem
    · exact absurd trivial hr
    · exact ih hmem
  | _ => cases hmem

/-- The work is not given up unless the run is stopped. -/
theorem Dealing.exists_isEnd (h : Dealing drops row replies e) (he : e = .returned (.ok false)) :
    ∃ r ∈ replies, r.IsEnd := by
  induction h with
  | stopped => exact ⟨_, List.mem_cons_self, .stopped⟩
  | quiet _ _ ih =>
    obtain ⟨r, hr, hend⟩ := ih he
    exact ⟨r, List.mem_cons_of_mem _ hr, hend⟩
  | _ => cases he

theorem Handing.handsBack (h : Handing drops replies e) {out : Row} {f : Fault}
    (hmem : ⟨.putRow out, .error f⟩ ∈ replies) : e = .returned (.error f) := by
  cases h with
  | noRow => cases List.mem_singleton.mp hmem
  | row h =>
    rcases List.mem_cons.mp hmem with heq | hmem
    · cases heq
    · exact h.handsBack hmem

theorem Handing.exists_isEnd (h : Handing drops replies e) (he : e = .returned (.ok false)) :
    ∃ r ∈ replies, r.IsEnd := by
  cases h with
  | noRow => exact ⟨_, List.mem_cons_self, .noRow⟩
  | row h =>
    obtain ⟨r, hr, hend⟩ := h.exists_isEnd he
    exact ⟨r, List.mem_cons_of_mem _ hr, hend⟩

end Dealing

namespace HandsOn

variable {op : Operator} {drops : Row → Bool} (h : op.HandsOn drops)
include h

theorem fair : op.Fair where
  init := h.init.mono fun _ hq hsends => hq hsends.deals
  dispose _ m _ := (h.dispose m).mono fun _ hq hsends => hq hsends.deals
  handsBack _ m _ more m' e hc _ _ hmem := (h.process m more m' e hc).handsBack hmem

theorem drains : op.Drains := by
  rintro replies m ⟨-, hr⟩
  cases hr with
  | finished hc =>
    obtain ⟨r, hmem, hend⟩ := (h.process _ _ _ _ hc).exists_isEnd rfl
    exact ⟨r, List.mem_append_right _ hmem, hend⟩

end HandsOn

end Operator

namespace Account

variable {o : Local} {drops : Row → Bool} {a b : Account} {n : Nat}

/-- So many of the rows that were taken are neither sent on nor rejected nor dropped. -/
def Owes (drops : Row → Bool) (a : Account) (n : Nat) : Prop :=
  a.readCount = a.writtenCount + a.rejectedCount + a.takes.countP (drops ·.2) + n

theorem owes_empty : Owes drops {} 0 := rfl

theorem Owes.after_quiet (h : Owes drops a n) {q : Request} {x : q.Answer} (ha : After o q x a b)
    (hq : ¬ q.Deals) : Owes drops b n := by
  cases q with
  | getRow => exact absurd trivial hq
  | putRow row => exact absurd trivial hq
  | rejectRow row d => exact absurd trivial hq
  | isStopped =>
    rw [ha.2]
    exact h
  | stop r => exact absurd ha id
  | add counter m =>
    rw [show b = _ from ha]
    cases counter <;> first | exact absurd trivial hq | exact h
  | _ =>
    rw [show b = a from ha]
    exact h

theorem Owes.walk_quiet (h : Owes drops a n) {replies : List Reply} (hw : Walk o replies a b)
    (hquiet : ∀ r ∈ replies, ¬ r.request.Deals) : Owes drops b n :=
  hw.induction (P := (Owes drops · n)) h fun r hr _ _ ha hafter =>
    ha.after_quiet hafter (hquiet r hr)

end Account

namespace Operator

open Account

section Dealing

variable {drops : Row → Bool} {o : Local} {row : Row} {replies : List Reply} {e : Ending Bool}
  {a b : Account} {i : Nat}

theorem owes_take (h : Owes drops a 0) :
    Owes drops { a with takes := (i, row) :: a.takes, readCount := a.readCount + 1 }
      (if drops row then 0 else 1) := by
  have hcount : ((i, row) :: a.takes).countP (drops ·.2) =
      a.takes.countP (drops ·.2) + if drops row then 1 else 0 := List.countP_cons
  simp only [Owes, hcount] at h ⊢
  split <;> omega

/-- Where a round ends with a row failure the row is still to be accounted for. -/
def leftOver : Ending Bool → Nat
  | .returned (.error _) => 1
  | _ => 0

theorem Dealing.owes (h : Dealing drops row replies e) (hw : Walk o replies a b)
    (ha : Owes drops a (if drops row then 0 else 1)) (he : ∀ f, e = .returned (.error f) →
      ∃ row d, f = .rowFailed row d) : Owes drops b (leftOver e) := by
  induction h generalizing a with
  | dropped hdrop =>
    cases hw
    rw [if_pos hdrop] at ha
    exact ha
  | sent hdrop out =>
    obtain ⟨c, ⟨-, -, hc⟩, rfl⟩ := hw
    rw [hc]
    simp only [Owes, leftOver, hdrop, Bool.false_eq_true, if_false] at ha ⊢
    omega
  | unsent out f =>
    obtain ⟨c, ⟨hf, -⟩, rfl⟩ := hw
    obtain ⟨row', d, rfl⟩ := he f rfl
    exact absurd rfl (hf row' d)
  | failed hdrop f =>
    cases hw
    rw [hdrop] at ha
    exact ha
  | stopped =>
    obtain ⟨c, ⟨hstopped, -⟩, -⟩ := hw
    cases hstopped
  | quiet hr _ ih =>
    obtain ⟨c, hc, hrest⟩ := hw
    exact ih hrest (ha.after_quiet hc hr) he

theorem Handing.owes (h : Handing drops replies e) (hw : Walk o replies a b)
    (ha : Owes drops a 0) (he : ∀ f, e = .returned (.error f) → ∃ row d, f = .rowFailed row d) :
    Owes drops b (leftOver e) := by
  cases h with
  | noRow =>
    obtain ⟨c, hc, rfl⟩ := hw
    rw [show b = _ from hc]
    exact ha
  | row h =>
    obtain ⟨c, ⟨i, rfl⟩, hrest⟩ := hw
    exact h.owes hrest (owes_take ha) he

end Dealing

namespace HandsOn

variable {op : Operator} {drops : Row → Bool} (h : op.HandsOn drops) {o : Local}
  {replies : List Reply} {m m' : op.State} {t : Turn} {a b : Account}
include h

/-- After a round all rows are accounted for, if they were before. -/
theorem owes_of_round (hr : op.Round m replies m' t) (hw : Walk o replies a b)
    (ha : Owes drops a 0) : Owes drops b 0 := by
  cases hr with
  | again hc => exact (h.process _ _ _ _ hc).owes hw ha fun f heq => by cases heq
  | finished hc => exact (h.process _ _ _ _ hc).owes hw ha fun f heq => by cases heq
  | rejected hc =>
    obtain ⟨c, hfirst, hlast⟩ := hw.of_append
    have hc := (h.process _ _ _ _ hc).owes hfirst ha fun f heq => by
      cases heq
      exact ⟨_, _, rfl⟩
    obtain ⟨b, ⟨out, -, -, -, hb⟩, rfl⟩ := hlast
    rw [hb]
    simp only [Owes, leftOver] at hc ⊢
    omega

theorem owes_of_history (hh : op.History replies m) (hw : Walk o replies {} b) :
    Owes drops b 0 := by
  induction hh generalizing b with
  | start hc => exact owes_empty.walk_quiet hw (h.init.of_course hc)
  | again _ hr ih =>
    obtain ⟨c, hfirst, hlast⟩ := hw.of_append
    exact h.owes_of_round hr hlast (ih hfirst)

/-- In the end all rows are accounted for. -/
theorem owes_of_spent (hs : op.Spent replies) (hw : Walk o replies {} b) : Owes drops b 0 := by
  obtain ⟨⟨hh, hr⟩, hc⟩ := hs
  obtain ⟨c, hwork, hlast⟩ := hw.of_append
  obtain ⟨a, hfirst, hround⟩ := hwork.of_append
  exact (h.owes_of_round hr hround (h.owes_of_history hh hfirst)).walk_quiet hlast
    ((h.dispose _).of_course hc)

end HandsOn

end Operator
end RowFlow
