import RowFlow.Proofs.Executor.Schedule
import RowFlow.Resource.Canned

/-
What a commit policy counts.  A call for a row counts the row before anything else, so the rows
counted are the calls made, also those that answer with an error; the commits counted are those
that succeeded.  So a commit is asked for on every `n`th call, and a commit that fails does not
put off the next one (`CommitPolicy.recorded_calls`).  The rows counted are those of the calls
that succeeded only as long as no call fails.
-/
namespace RowFlow
namespace CommitPolicy

/-- A call for a row: the state in which it finds the resource, and what it comes to. -/
structure Call (r : Resource) where
  found : r.State
  after : After r Bool

/-- Calls for rows one after the other.  Whatever is done to the resource in between moves it on
to another state. -/
def calls (r : Resource) : CommitPolicy → r.State → List (r.State → r.State) → List (Call r)
  | _, _, [] => []
  | p, s, between :: rest =>
    let after := p.afterRow r (between s)
    ⟨between s, after⟩ :: calls r after.policy after.state rest

section Recording

variable {r : Resource} {c : Call r} {p : CommitPolicy} {s : r.State} {n number : Nat}

def Call.hasCommitted (c : Call r) : Bool := c.after.answer matches .ok true

def Call.hasFailed (c : Call r) : Bool := c.after.answer matches .error _

/-- The call counts the row as the one of this number; every `n`th row calls for a commit. -/
structure Call.Records (n number : Nat) (c : Call r) : Prop where
  rows : c.after.policy.rows = number
  due : n ≠ 0 ∧ n ∣ number → c.after.answer = (r.commit c.found).2.map (fun _ => true) ∧
    c.after.state = (r.commit c.found).1 ∧
    c.after.events = [if (r.commit c.found).2.isOk then .commit else .commitFailed]
  notDue : ¬ (n ≠ 0 ∧ n ∣ number) →
    c.after.answer = .ok false ∧ c.after.state = c.found ∧ c.after.events = []

theorem afterRow_eq (p : CommitPolicy) (r : Resource) (s : r.State) : p.afterRow r s =
    if p.period r ≠ 0 ∧ p.period r ∣ p.rows + 1 then
      { p with rows := p.rows + 1 }.commit r s true
    else { policy := { p with rows := p.rows + 1 }, state := s, answer := .ok false } := by
  unfold afterRow isDue period
  cases hauto : r.autoCommit with
  | true => simp
  | false => simp [Nat.dvd_iff_mod_eq_zero]

/-- What one call does. -/
theorem records_afterRow (p : CommitPolicy) (r : Resource) (s : r.State) :
    Call.Records (p.period r) (p.rows + 1) ⟨s, p.afterRow r s⟩ := by
  refine ⟨p.rows_afterRow s, fun hdue => ?_, fun hdue => ?_⟩
  · rw [afterRow_eq, if_pos hdue]
    unfold commit
    split <;> simp [*, Except.map, Except.isOk, Except.toBool]
  · rw [afterRow_eq, if_neg hdue]
    exact ⟨rfl, rfl, rfl⟩

theorem commits_afterRow_eq (p : CommitPolicy) (r : Resource) (s : r.State) :
    (p.afterRow r s).policy.commits =
      p.commits + if Call.hasCommitted ⟨s, p.afterRow r s⟩ then 1 else 0 := by
  unfold Call.hasCommitted
  rw [afterRow_eq]
  split
  · unfold commit
    split <;> simp
  · simp

/-- What the calls have done that a policy has answered one after the other. -/
structure Recorded (r : Resource) (p : CommitPolicy) (cs : List (Call r)) : Prop where
  /-- The rows counted are the calls made, whatever they answered. -/
  records : ∀ k (c : Call r), cs[k]? = some c → c.Records (p.period r) (p.rows + k + 1)
  commits : ∀ k (c : Call r), cs[k]? = some c →
    c.after.policy.commits = p.commits + (cs.take (k + 1)).countP Call.hasCommitted
  /-- They are the rows of the calls that succeeded just if all calls did. -/
  successes : (∀ k (c : Call r), cs[k]? = some c →
      c.after.policy.rows = p.rows + (cs.take (k + 1)).countP fun c => !c.hasFailed) ↔
    ∀ c ∈ cs, c.hasFailed = false

theorem records_calls (p : CommitPolicy) (s : r.State) (betweens : List (r.State → r.State))
    {k : Nat} (h : (calls r p s betweens)[k]? = some c) :
    c.Records (p.period r) (p.rows + k + 1) := by
  induction betweens generalizing p s k with
  | nil => cases h
  | cons between rest ih =>
    cases k with
    | zero =>
      cases h
      exact records_afterRow p r (between s)
    | succ k =>
      have hrest := ih _ _ h
      rwa [period_afterRow, rows_afterRow, Nat.add_right_comm p.rows 1 k] at hrest

theorem commits_calls (p : CommitPolicy) (s : r.State) (betweens : List (r.State → r.State))
    {k : Nat} (h : (calls r p s betweens)[k]? = some c) : c.after.policy.commits =
      p.commits + ((calls r p s betweens).take (k + 1)).countP Call.hasCommitted := by
  induction betweens generalizing p s k with
  | nil => cases h
  | cons between rest ih =>
    have hfirst := commits_afterRow_eq p r (between s)
    rw [calls, List.take_succ_cons, List.countP_cons, Nat.add_comm (List.countP _ _),
      ← Nat.add_assoc, ← hfirst]
    cases k with
    | zero =>
      cases h
      rfl
    | succ k => exact ih _ _ h

/-- The calls made count as rows that succeeded just if they all did. -/
theorem countP_take_iff {cs : List (Call r)} :
    (∀ k < cs.length, k + 1 = (cs.take (k + 1)).countP fun c => !c.hasFailed) ↔
      ∀ c ∈ cs, c.hasFailed = false := by
  constructor
  · intro h c hc
    obtain ⟨k, hk, rfl⟩ := List.mem_iff_getElem.mp hc
    have hall : (cs.take (k + 1)).countP (fun c => !c.hasFailed) = (cs.take (k + 1)).length := by
      rw [← h k hk, List.length_take, Nat.min_eq_left hk]
    have hmem : cs[k] ∈ cs.take (k + 1) :=
      List.mem_take_iff_getElem.mpr ⟨k, by omega, rfl⟩
    simpa using List.countP_eq_length.mp hall _ hmem
  · intro h k hk
    rw [List.countP_eq_length.mpr fun c hc => by rw [h c (List.mem_of_mem_take hc)]; rfl,
      List.length_take, Nat.min_eq_left hk]

/-- Whatever the resource answers, and whatever is done to it between the calls. -/
theorem recorded_calls (p : CommitPolicy) (r : Resource) (s : r.State)
    (betweens : List (r.State → r.State)) : Recorded r p (calls r p s betweens) where
  records _ _ := records_calls p s betweens
  commits _ _ := commits_calls p s betweens
  successes := by
    rw [← countP_take_iff]
    constructor
    · intro h k hk
      have hget := List.getElem?_eq_getElem hk
      have hrows := (records_calls p s betweens hget).rows
      rw [h k _ hget, Nat.add_assoc] at hrows
      exact (Nat.add_left_cancel hrows).symm
    · intro h k c hget
      obtain ⟨hk, -⟩ := List.getElem?_eq_some_iff.mp hget
      rw [(records_calls p s betweens hget).rows, ← h k hk, Nat.add_assoc]

end Recording

/-- The first commit fails, on the second call.  Of the three rows two succeed then, but three
are counted, so that no commit is asked for on the third call. -/
theorem rows_ne_of_hasFailed :
    let cs := calls ({ failingCommits := [1] } : Canned).resource { size := 2 } (0 : Nat)
      [id, id, id]
    cs.map (·.hasFailed) = [false, true, false] ∧
      cs.map (·.after.policy.rows) = [1, 2, 3] ∧
      cs.map (·.after.events) = [[], [.commitFailed], []] := by
  decide

end CommitPolicy
end RowFlow
