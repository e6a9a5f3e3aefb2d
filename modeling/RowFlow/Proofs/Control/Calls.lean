import RowFlow.Proofs.Program.Effects
import RowFlow.Proofs.Program.Watch

/-
The control under calls from many sides.  Any number of calls to stop and to count are on
their way, each of them a program of indivisible actions, and they move in any order
(`Calls.happen`).

The totals are kept in counters of 64 bits.  A count that no longer fits makes the counter
start over from zero (`Total.carried?`).  Where additions are checked the call crashes after
that, as it is about to compute its answer; elsewhere it goes on with what it has left in the
counter.

Each call stands somewhere between its beginning and its end (`Stand`), and what it has
done so far is known from that.  A move of a call either does one thing, and tells what that
changes (`Does`), or nothing (`Rests`).
-/
namespace RowFlow

namespace Total

def set (c : Control) (n : Nat) : Total → Control
  | errors => { c with errors := n }
  | sourceRows => { c with sourceRows := n }

def tally (c : Control) (total : Total) : Tally :=
  ⟨total.of c, Control.reaches (total.limit? c) (total.of c)⟩

/-- What comes of a count that does not fit into the counter. -/
def carried? (c : Control) (n : Nat) (total : Total) : Option (Tally × Control) :=
  if total.of c + n < UInt64.size then none
  else
    let c := total.set c ((total.of c + n) % UInt64.size)
    some (total.tally c, c)

@[simp] theorem of_set (c : Control) (n : Nat) (total total' : Total) :
    total'.of (total.set c n) = if total' = total then n else total'.of c := by
  cases total <;> cases total' <;> rfl

@[simp] theorem limit?_set (c : Control) (n : Nat) (total total' : Total) :
    total'.limit? (total.set c n) = total'.limit? c := by
  cases total <;> cases total' <;> rfl

@[simp] theorem stopped_set (c : Control) (n : Nat) (total : Total) :
    (total.set c n).stopped = c.stopped := by
  cases total <;> rfl

@[simp] theorem reason_set (c : Control) (n : Nat) (total : Total) :
    (total.set c n).reason = c.reason := by
  cases total <;> rfl

end Total

def Action.carried? (c : Control) : (a : Action) → Option (a.Answer × Control)
  | .countErrors n => Total.errors.carried? c n
  | .countSourceRows n => Total.sourceRows.carried? c n
  | _ => none

/-- What a program does next if it counts what does not fit, and where it and the control are
then. -/
def Program.carried? {α : Type} (c : Control) : Program α → Option (Doing × Program α × Control)
  | .act a next => (a.carried? c).map fun (v, c) => (.act a v, next v, c)
  | _ => none

inductive Operation where
  | stop (r : StopReason)
  | count (total : Total) (n : UInt64)

namespace Operation

def request : Operation → Request
  | stop r => .stop r
  | count .errors n => .addRunErrors n.toNat
  | count .sourceRows n => .recordSourceRows n.toNat

def amount (total : Total) : Operation → Nat
  | stop _ => 0
  | count total' n => if total' = total then n.toNat else 0

theorem amount_eq_zero {total : Total} {o : Operation} (h : ∀ n, o ≠ .count total n) :
    o.amount total = 0 := by
  cases o with
  | stop r => rfl
  | count total' n => exact if_neg fun heq => h n (by rw [heq])

end Operation

/-- A call on its way: the operation, the copy whose code it is, and what is left to do. -/
structure Call where
  operation : Operation
  own : Local
  rest : Program operation.request.Answer
  crashed : Bool := false

namespace Call

def start (o : Operation) (own : Local) : Call := { operation := o, own, rest := o.request.program }

def step (c : Call) (s : Shared) : Call × Shared :=
  let (rest, own, s) := c.rest.step c.own s
  ({ c with own, rest }, s)

def doing? (c : Call) (s : Shared) : Option Doing := c.rest.doing? c.own s

def answer? : Call → Option Bool
  | ⟨.stop _, _, rest, _⟩ => rest.value?
  | _ => none

def isOver (c : Call) : Bool := c.crashed || c.rest.isDone

end Call

/-- The control with the calls that were made, and with what they have done, each by the
number of its call; the latest first. -/
structure Calls where
  /-- Additions are checked. -/
  checked : Bool
  shared : Shared
  calls : List Call := []
  past : List (Nat × Doing) := []

namespace Calls

inductive Event where
  | begin (o : Operation) (own : Local)
  | step (call : Nat)

def control (t : Calls) : Control := t.shared.control

def move (t : Calls) (i : Nat) (c : Call) : Calls :=
  match c.rest.carried? t.control with
  | some (d, rest, control) =>
    { t with
      shared := { t.shared with control }
      calls := t.calls.set i { c with rest, crashed := t.checked }
      past := (i, d) :: t.past }
  | none =>
    { t with
      shared := (c.step t.shared).2
      calls := t.calls.set i (c.step t.shared).1
      past := ((c.doing? t.shared).map (i, ·)).toList ++ t.past }

def happen (t : Calls) : Event → Calls
  | .begin o own => { t with calls := t.calls ++ [.start o own] }
  | .step i =>
    match t.calls[i]? with
    | none => t
    | some c => if c.crashed then t else t.move i c

def after (t : Calls) (events : List Event) : Calls := events.foldl happen t

def fresh (checked : Bool) (maxErrors rowLimit : Option Nat) : Calls where
  checked
  shared := { control := { maxErrors, rowLimit } }

def Quiet (t : Calls) : Prop := ∀ c ∈ t.calls, c.isOver = true

/-- How far a call has come. -/
inductive Stand where
  | fresh
  /-- It has counted and not reached the limit. -/
  | below
  /-- It has counted and reached the limit. -/
  | beyond
  /-- It has given its reason. -/
  | told
  /-- It has raised the flag, and this was the answer. -/
  | settled (won : Bool)
  /-- It has counted what did not fit, and crashed. -/
  | crashed

inductive Stand.Next : Operation → Stand → Doing → Stand → Prop
  | give {r : StopReason} {v : Unit} : Next (.stop r) fresh (.act (.giveReason r) v) told
  | below {total : Total} {n : UInt64} {d : Doing} {v : Tally}
      (hd : d.counted? = some (total, n.toNat, v)) (hv : v.reached = false) :
      Next (.count total n) fresh d below
  | beyond {total : Total} {n : UInt64} {d : Doing} {v : Tally}
      (hd : d.counted? = some (total, n.toNat, v)) (hv : v.reached = true) :
      Next (.count total n) fresh d beyond
  | crash {total : Total} {n : UInt64} {d : Doing} {v : Tally}
      (hd : d.counted? = some (total, n.toNat, v)) (hv : v.total < n.toNat) :
      Next (.count total n) fresh d crashed
  | tell {total : Total} {n : UInt64} {v : Unit} :
      Next (.count total n) beyond (.act (.giveReason total.reason) v) told
  | raise {o : Operation} {won : Bool} : Next o told (.act .raiseFlag won) (settled won)

def Ends : (o : Operation) → o.request.Answer → Stand → Prop
  | .stop _, won, x => x = .settled won
  | .count _ _, _, x => x = .below ∨ ∃ won, x = .settled won

theorem below_or_settled {o : Operation} {a : o.request.Answer} {x : Stand} (h : Ends o a x) :
    x = .below ∨ ∃ won, x = .settled won := by
  cases o with
  | stop r => exact .inr ⟨a, h⟩
  | count total n => exact h

def watch (o : Operation) : Watch := .plain Stand (Stand.Next o) fun _ => False

theorem lawful_watch (o : Operation) : (watch o).Lawful :=
  Watch.lawful_plain fun _ _ _ hd => hd.elim

section Programs

open Program

variable {own : Local} {total : Total} {n : UInt64}

/-- A count that has reached its limit is followed by a stop. -/
theorem heeds_beyond {α : Type} (a : α) :
    (do let _ ← stop total.reason; pure a).Heeds (watch (.count total n)) own
      (fun _ x => ∃ won, x = Stand.settled won) .beyond :=
  heeds_act fun _ _ => ⟨.told, .tell, heeds_act fun won _ =>
    ⟨.settled won, .raise, heeds_pure ⟨won, rfl⟩⟩⟩

/-- Each call does what its operation is made of, one after the other. -/
theorem heeds_operation (o : Operation) (own : Local) :
    o.request.program.Heeds (watch o) own (Ends o) .fresh := by
  cases o with
  | stop r =>
    exact heeds_act fun _ _ => ⟨.told, .give, heeds_act fun won _ =>
      ⟨.settled won, .raise, heeds_pure rfl⟩⟩
  | count total n =>
    cases total with
    | errors =>
      refine heeds_act fun (v : Tally) _ => ?_
      cases hv : v.reached with
      | false => exact ⟨.below, .below rfl hv, heeds_pure (.inl rfl)⟩
      | true => exact ⟨.beyond, .beyond rfl hv, (heeds_beyond v.total).mono fun _ _ => .inr⟩
    | sourceRows =>
      refine heeds_act fun (v : Tally) _ => ?_
      cases hv : v.reached with
      | false => exact ⟨.below, .below rfl hv, heeds_pure (.inl rfl)⟩
      | true => exact ⟨.beyond, .beyond rfl hv, (heeds_beyond ()).mono fun _ _ => .inr⟩

end Programs

/-- The call with the number has counted, and reached the limit by it. -/
def Reached (t : Calls) (i : Nat) (total : Total) (n : UInt64) : Prop :=
  ∃ d v limit, (i, d) ∈ t.past ∧ d.counted? = some (total, n.toNat, v) ∧
    total.limit? t.control = some limit ∧ limit ≤ v.total

namespace Stand

def added (total : Total) (o : Operation) : Stand → Nat
  | fresh => 0
  | _ => o.amount total

def Stops : Stand → Prop
  | beyond => True
  | told => True
  | settled _ => True
  | _ => False

def Shows (t : Calls) (o : Operation) (i : Nat) : Stand → Prop
  | beyond => ∃ total n, o = .count total n ∧ t.Reached i total n
  | told => t.control.reason ≠ none
  | settled won => (i, .act .raiseFlag won) ∈ t.past ∧ t.control.stopped = true
  | crashed => ∃ total n, o = .count total n
  | _ => True

end Stand

/-- The call does what its operation is made of, and has come so far. -/
structure Stands (t : Calls) (i : Nat) (c : Call) (x : Stand) : Prop where
  heeds : c.crashed = false →
    c.rest.Heeds (watch c.operation) c.own.origin (Ends c.operation) x
  crashed : c.crashed = true → x = .crashed
  shows : x.Shows t c.operation i

structure Does (t : Calls) (i : Nat) (c : Call) (x : Stand) (d : Doing) (c' : Call) (z : Stand)
    (t' : Calls) : Prop where
  calls : t'.calls = t.calls.set i c'
  past : t'.past = (i, d) :: t.past
  operation : c'.operation = c.operation
  next : x.Next c.operation d z
  total : ∀ total : Total,
    total.of t'.control = (total.of t.control + d.amount total) % UInt64.size
  tally : ∀ (total : Total) (n : Nat) (v : Tally), d.counted? = some (total, n, v) →
    v = total.tally t'.control
  reason : t'.control.reason = t.control.reason.or d.reason?
  stopped : t'.control.stopped = (t.control.stopped || d.raises)
  won : ∀ b, d = .act .raiseFlag b → b = !t.control.stopped
  heeds : c'.crashed = false →
    c'.rest.Heeds (watch c'.operation) c'.own.origin (Ends c'.operation) z
  crashed : c'.crashed = true → z = .crashed

structure Rests (t : Calls) (i : Nat) (c : Call) (x : Stand) (c' : Call) (t' : Calls) : Prop where
  calls : t'.calls = t.calls.set i c'
  past : t'.past = t.past
  shared : t'.shared = t.shared
  operation : c'.operation = c.operation
  heeds : c'.rest.Heeds (watch c'.operation) c'.own.origin (Ends c'.operation) x
  crashed : c'.crashed = false

/-- To count is neither to raise the flag nor to give a reason. -/
theorem quiet_of_counted {d : Doing} {e : Total × Nat × Tally} (hd : d.counted? = some e) :
    d.raises = false ∧ d.reason? = none := by
  cases d with
  | act a v =>
    cases a with
    | raiseFlag | giveReason r => cases hd
    | _ => exact ⟨rfl, rfl⟩
  | _ => exact ⟨rfl, rfl⟩

/-- A counter that has started over holds less than what was added last. -/
theorem mod_size_lt {a : Nat} {m : UInt64} (ha : a < UInt64.size)
    (h : UInt64.size ≤ a + m.toNat) : (a + m.toNat) % UInt64.size < m.toNat := by
  have hm := m.toNat_lt
  simp only [UInt64.size] at ha h ⊢
  omega

section Carried

variable {control control' : Control} {total : Total} {n : Nat} {v : Tally}

theorem eq_of_carried? (h : total.carried? control n = some (v, control')) :
    UInt64.size ≤ total.of control + n ∧ v = total.tally control' ∧
      control' = total.set control ((total.of control + n) % UInt64.size) := by
  unfold Total.carried? at h
  split at h
  · cases h
  · next hsize =>
    cases h
    exact ⟨Nat.not_lt.mp hsize, rfl, rfl⟩

/-- What counts what does not fit is one of the two actions that count. -/
theorem exists_of_carried? {α : Type} {p p' : Program α} {d : Doing}
    (h : p.carried? control = some (d, p', control')) :
    ∃ (a : Action) (next : a.Answer → Program α) (v : a.Answer) (total : Total) (n : Nat),
      p = .act a next ∧ p' = next v ∧ d = .act a v ∧ (∀ o down, a.Tells o down v) ∧
        d.counted? = some (total, n, total.tally control') ∧
          UInt64.size ≤ total.of control + n ∧
            control' = total.set control ((total.of control + n) % UInt64.size) := by
  cases p with
  | act a next =>
    obtain ⟨⟨v, control₁⟩, hcarried, heq⟩ := Option.map_eq_some_iff.mp h
    cases heq
    cases a with
    | countErrors n =>
      obtain ⟨hsize, rfl, hcontrol⟩ := eq_of_carried? hcarried
      exact ⟨_, next, _, .errors, n, rfl, rfl, rfl, fun _ _ => trivial, rfl, hsize, hcontrol⟩
    | countSourceRows n =>
      obtain ⟨hsize, rfl, hcontrol⟩ := eq_of_carried? hcarried
      exact ⟨_, next, _, .sourceRows, n, rfl, rfl, rfl, fun _ _ => trivial, rfl, hsize, hcontrol⟩
    | _ => cases hcarried
  | _ => cases h

/-- What any other program counts fits. -/
theorem fits_of_carried? {α : Type} {p p' : Program α} {l l' : Local} {s s' : Shared} {d : Doing}
    {deed : Option Deed} (hg : p.Goes l s (some d) deed p' l' s')
    (h : p.carried? s.control = none) (total : Total)
    (hfits : total.of s.control < UInt64.size) :
    total.of s.control + d.amount total < UInt64.size := by
  have hfits' : ∀ {k : Total} {n : Nat}, k.carried? s.control n = none →
      k.of s.control + n < UInt64.size := by
    intro k n hnone
    unfold Total.carried? at hnone
    split at hnone
    · assumption
    · cases hnone
  cases hg with
  | @act a next v l' s' ha =>
    have hnone := Option.map_eq_none_iff.mp h
    cases a with
    | countErrors n =>
      cases total with
      | errors => exact hfits' hnone
      | sourceRows => exact hfits
    | countSourceRows n =>
      cases total with
      | errors => exact hfits
      | sourceRows => exact hfits' hnone
    | _ => exact hfits
  | _ => exact hfits

end Carried

section Move

variable {t : Calls} {i : Nat} {c : Call} {x : Stand}

theorem move_of_carried? {d : Doing} {rest : Program c.operation.request.Answer}
    {control : Control} (h : c.rest.carried? t.control = some (d, rest, control)) :
    t.move i c = { t with
      shared := { t.shared with control }
      calls := t.calls.set i { c with rest, crashed := t.checked }
      past := (i, d) :: t.past } := by
  simp [move, h]

theorem move_of_fits (h : c.rest.carried? t.control = none) :
    t.move i c = { t with
      shared := (c.step t.shared).2
      calls := t.calls.set i (c.step t.shared).1
      past := ((c.doing? t.shared).map (i, ·)).toList ++ t.past } := by
  simp [move, h]

theorem Stand.Next.counts {o : Operation} {z : Stand} {d : Doing} {total : Total} {n : Nat}
    {v : Tally} (h : x.Next o d z) (hd : d.counted? = some (total, n, v)) :
    x = .fresh ∧ ∃ m, o = .count total m ∧ n = m.toNat := by
  cases h with
  | below hd' | beyond hd' | crash hd' =>
    cases hd'.symm.trans hd
    exact ⟨rfl, _, rfl, rfl⟩
  | _ => cases hd

variable (h : c.rest.Heeds (watch c.operation) c.own.origin (Ends c.operation) x)
  (hfits : ∀ total : Total, total.of t.control < UInt64.size)
include h hfits

/-- A count that does not fit: the call goes on, or it crashes. -/
theorem does_of_carried? {d : Doing} {rest : Program c.operation.request.Answer}
    {control : Control} (hcarried : c.rest.carried? t.control = some (d, rest, control)) :
    ∃ c' z, t.Does i c x d c' z (t.move i c) := by
  obtain ⟨a, next, v, total, n, hrest, rfl, rfl, htells, hcounted, hsize, hcontrol⟩ :=
    exists_of_carried? hcarried
  rw [hrest] at h
  obtain ⟨z, hnext, hheeds⟩ := h x rfl v (htells _ _)
  obtain ⟨rfl, m, ho, rfl⟩ := hnext.counts hcounted
  have hcrash : (total.tally control).total < m.toNat := by
    rw [hcontrol]
    simpa [Total.tally] using mod_size_lt (hfits total) hsize
  have hz : ∃ z, Stand.fresh.Next c.operation (.act a v) z ∧
      (t.checked = false → (next v).Heeds (watch c.operation) c.own.origin (Ends c.operation) z) ∧
        (t.checked = true → z = .crashed) := by
    cases hchecked : t.checked with
    | false => exact ⟨z, hnext, fun _ => hheeds, nofun⟩
    | true =>
      refine ⟨.crashed, ?_, nofun, fun _ => rfl⟩
      rw [ho]
      exact .crash hcounted hcrash
  obtain ⟨z, hnext, hheeds, hcrashed⟩ := hz
  obtain ⟨hraises, hreason⟩ := quiet_of_counted hcounted
  rw [move_of_carried? hcarried]
  exact ⟨_, z, {
    calls := rfl
    past := rfl
    operation := rfl
    next := hnext
    total := fun k => by
      show k.of control = _
      rw [hcontrol, Total.of_set, Doing.amount, hcounted]
      by_cases hk : k = total
      · simp [hk]
      · simp [hk, Ne.symm hk, Nat.mod_eq_of_lt (hfits k)]
    tally := fun k n w hw => by
      cases hcounted.symm.trans hw
      rfl
    reason := by
      show control.reason = _
      rw [hcontrol, Total.reason_set, hreason, Option.or_none]
    stopped := by
      show control.stopped = _
      rw [hcontrol, Total.stopped_set, hraises, Bool.or_false]
    won := fun b hb => by
      rw [hb] at hcounted
      cases hcounted
    heeds := hheeds
    crashed := hcrashed }⟩

theorem does_or_rests (hup : c.crashed = false) :
    (∃ d c' z, t.Does i c x d c' z (t.move i c)) ∨ ∃ c', t.Rests i c x c' (t.move i c) := by
  cases hcarried : c.rest.carried? t.control with
  | some e => exact .inl ⟨e.1, does_of_carried? h hfits hcarried⟩
  | none =>
    have hlawful := lawful_watch c.operation
    have hgoes := c.rest.goes_step c.own t.shared
    rw [move_of_fits hcarried]
    cases hd : c.doing? t.shared with
    | none =>
      rw [show c.rest.doing? c.own t.shared = none from hd] at hgoes
      have hrests := hgoes.rests
      refine .inr ⟨_, rfl, rfl, hrests.2.2, rfl, ?_, hup⟩
      rw [show (c.step t.shared).1.own.origin = c.own.origin from hrests.2.1.origin]
      exact h.rests hlawful hgoes fun hdown => hdown.elim
    | some d =>
      rw [show c.rest.doing? c.own t.shared = some d from hd] at hgoes
      have hleads := hgoes.leads []
      obtain ⟨z, hnext, hheeds⟩ := h.goes hlawful hgoes fun hdown => hdown.elim
      refine .inl ⟨d, _, z, {
        calls := rfl
        past := rfl
        operation := rfl
        next := hnext
        total := fun k => ?_
        tally := fun k n v hv => hleads.tally hv
        reason := hleads.control_reason
        stopped := hleads.control_stopped
        won := fun b hb => ?_
        heeds := fun _ => ?_
        crashed := fun hdown => ?_ }⟩
      · exact (hleads.total k).trans
          (Nat.mod_eq_of_lt (fits_of_carried? hgoes hcarried k (hfits k))).symm
      · subst hb
        exact hleads.won
      · rw [show (c.step t.shared).1.own.origin = c.own.origin from hleads.origin]
        exact hheeds
      · rw [show (c.step t.shared).1.crashed = false from hup] at hdown
        cases hdown

end Move

end Calls
end RowFlow
