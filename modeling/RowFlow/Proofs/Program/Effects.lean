import Mathlib.Algebra.Ring.Nat
import RowFlow.Proofs.Hooks.Stage
import RowFlow.Proofs.Program.Steps

/-
What a single doing changes: the counters of the copy, the totals of the run and the reason
for which it stops, the marks that the copy has passed, and its outcome.  Each is read off
the doing alone.
-/
namespace RowFlow

/-- Two sums that differ in one term. -/
theorem sum_map_set {α : Type*} (f : α → Nat) {l : List α} {i : Nat} {a : α} (h : l[i]? = some a)
    (b : α) : ((l.set i b).map f).sum + f a = (l.map f).sum + f b := by
  induction l generalizing i with
  | nil => simp at h
  | cons c rest ih =>
    cases i with
    | zero =>
      obtain rfl : c = a := by simpa using h
      simp only [List.set_cons_zero, List.map_cons, List.sum_cons]
      omega
    | succ i =>
      have hrest := ih (i := i) (by simpa using h)
      simp only [List.set_cons_succ, List.map_cons, List.sum_cons]
      omega

theorem sum_toNat {α : Type*} (p : α → Bool) (l : List α) :
    (l.map fun a => (p a).toNat).sum = l.countP p := by
  induction l with
  | nil => rfl
  | cons a rest ih => cases h : p a <;> simp [h, ih, Nat.add_comm]

namespace Counts

theorem get_foldl_plus (cs : List Counts) (c : Counts) (k : Counter) :
    (cs.foldl plus c).get k = c.get k + (cs.map (·.get k)).sum := by
  induction cs generalizing c with
  | nil => rfl
  | cons d rest ih =>
    rw [List.foldl_cons, ih, get_plus, List.map_cons, List.sum_cons, Nat.add_assoc]

theorem get_sum (cs : List Counts) (k : Counter) :
    (sum cs).get k = (cs.map (·.get k)).sum := by
  have hzero : ({} : Counts).get k = 0 := by cases k <;> rfl
  rw [sum, get_foldl_plus, hzero, Nat.zero_add]

end Counts

inductive Total where
  | errors
  | sourceRows
deriving DecidableEq

namespace Total

def of (c : Control) : Total → Nat
  | errors => c.errors
  | sourceRows => c.sourceRows

def limit? (c : Control) : Total → Option Nat
  | errors => c.maxErrors
  | sourceRows => c.rowLimit

def reason : Total → StopReason
  | errors => .errorLimit
  | sourceRows => .rowLimit

end Total

namespace Doing

def added (k : Counter) : Doing → Nat
  | act (.add k' n) _ => if k' = k then n else 0
  | took _ => if .read = k then 1 else 0
  | _ => 0

/-- What is counted: which total of the run, by how much, and with which answer. -/
def counted? : Doing → Option (Total × Nat × Tally)
  | act (.countErrors n) v => some (.errors, n, v)
  | act (.countSourceRows n) v => some (.sourceRows, n, v)
  | _ => none

def amount (total : Total) (d : Doing) : Nat :=
  match d.counted? with
  | some (total', n, _) => if total' = total then n else 0
  | none => 0

def mark? : Doing → Option Mark
  | act (.mark m) _ => some m
  | _ => none

def outcome? : Doing → Option Outcome
  | act (.settle o) _ => some o
  | _ => none

def reason? : Doing → Option StopReason
  | act (.giveReason r) _ => some r
  | _ => none

def raises : Doing → Bool
  | act .raiseFlag _ => true
  | _ => false

namespace Leads

variable {d : Doing} {p q : Position} (h : d.Leads p q)
include h

theorem counts (k : Counter) : q.own.counts.get k = p.own.counts.get k + d.added k := by
  cases h with
  | @act a p x l s h =>
    cases a with
    | add k' n =>
      cases h
      by_cases hk : k' = k
      · subst hk
        simp [added]
      · simp [added, hk, Counts.get_add_of_ne _ n (Ne.symm hk)]
    | choose outlet =>
      cases h
      cases outlet <;> rfl
    | hold =>
      simp only [Action.perform, Prod.mk.injEq] at h
      obtain ⟨-, rfl, -⟩ := h
      rfl
    | _ =>
      cases h
      rfl
  | @took p i row hi hrow =>
    by_cases hk : Counter.read = k
    · subst hk
      simp [Local.taken, added]
    · simp [Local.taken, Local.pass, added, hk, Counts.get_add_of_ne _ 1 (Ne.symm hk)]
  | _ => rfl

theorem total (k : Total) : k.of q.shared.control = k.of p.shared.control + d.amount k := by
  cases h with
  | @act a p x l s h =>
    cases a with
    | close i =>
      cases h
      simp [amount, counted?]
    | hold =>
      simp only [Action.perform, Prod.mk.injEq] at h
      obtain ⟨-, -, rfl⟩ := h
      rfl
    | countErrors n =>
      cases h
      cases k <;> rfl
    | countSourceRows n =>
      cases h
      cases k <;> rfl
    | _ =>
      cases h
      cases k <;> rfl
  | took hi hrow => simp [amount, counted?]
  | gave h => simp [amount, counted?]
  | _ => rfl

theorem control_reason :
    q.shared.control.reason = p.shared.control.reason.or d.reason? := by
  cases h with
  | @act a p x l s h =>
    cases a with
    | close i =>
      cases h
      simp [reason?]
    | hold =>
      simp only [Action.perform, Prod.mk.injEq] at h
      obtain ⟨-, -, rfl⟩ := h
      simp [reason?]
    | _ =>
      cases h
      simp [reason?, Control.giveReason, Control.raiseFlag, Control.countErrors,
        Control.countSourceRows, Shared.detach]
  | _ => simp [reason?]

theorem control_stopped :
    q.shared.control.stopped = (p.shared.control.stopped || d.raises) := by
  cases h with
  | @act a p x l s h =>
    cases a with
    | close i =>
      cases h
      simp [raises]
    | hold =>
      simp only [Action.perform, Prod.mk.injEq] at h
      obtain ⟨-, -, rfl⟩ := h
      simp [raises]
    | _ =>
      cases h
      simp [raises, Control.giveReason, Control.raiseFlag, Control.countErrors,
        Control.countSourceRows, Shared.detach]
  | _ => simp [raises]

theorem marks : marks q.past = RowFlow.marks p.past ++ d.mark?.toList := by
  cases h with
  | @act a p x l s h => cases a <;> simp [Action.deed?, mark?, Deed.mark?]
  | took hi hrow => simp [mark?, Deed.mark?]
  | gave h => simp [mark?, Deed.mark?]
  | _ => simp [mark?]

theorem outcome : q.own.outcome = d.outcome?.or p.own.outcome := by
  cases h with
  | @act a p x l s h =>
    cases a with
    | choose outlet =>
      cases h
      cases outlet <;> rfl
    | hold =>
      simp only [Action.perform, Prod.mk.injEq] at h
      obtain ⟨-, rfl, -⟩ := h
      rfl
    | _ =>
      cases h
      rfl
  | _ => rfl

/-- The answer to a count is the total, and whether it reaches the limit. -/
theorem tally {k : Total} {n : Nat} {v : Tally} (hd : d.counted? = some (k, n, v)) :
    v = ⟨k.of q.shared.control,
      Control.reaches (k.limit? q.shared.control) (k.of q.shared.control)⟩ := by
  cases h with
  | @act a p x l s h =>
    cases a with
    | countErrors n =>
      cases hd
      cases h
      rfl
    | countSourceRows n =>
      cases hd
      cases h
      rfl
    | _ => cases hd
  | _ => cases hd

omit h in
/-- The answer to the one who raises the flag is whether it was down. -/
theorem won {won : Bool} (h : Leads (.act .raiseFlag won) p q) :
    won = !p.shared.control.stopped := by
  cases h with
  | act h =>
    cases h
    rfl

end Leads
end Doing
end RowFlow
