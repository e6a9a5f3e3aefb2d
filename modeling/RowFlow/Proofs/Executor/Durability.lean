import RowFlow.Operator.Recipe
import RowFlow.Proofs.Executor.Fates

/-
What becomes durable of rejected rows.  A database holds what was executed until a commit
succeeds, which makes all of it durable; a commit that fails changes nothing.  A row whose
statement failed leaves nothing there.  But a row is rejected also when its statement was
executed and the commit that was due then failed, and its effect stays where it is: the
next commit that succeeds makes it durable with the others.  Only the decision at the end
takes the rejection into account.
-/
namespace RowFlow

namespace Operator.Work

/-- The call ended in a row failure of that code. -/
def Rejects (w : Work) (code : String) : Prop :=
  ∃ row d, w.ending = .returned (.error (.rowFailed row d)) ∧ d.code = code

end Operator.Work

namespace Executor

namespace Fate

/-- The effect of the statement is in the database. -/
def Executed : Fate → Prop
  | done _ _ => True
  | _ => False

/-- The commit after it succeeded. -/
def Commits : Fate → Prop
  | done _ (some true) => True
  | _ => False

theorem Commits.executed {f : Fate} (h : f.Commits) : f.Executed := by
  cases f with
  | done statement c => trivial
  | _ => exact absurd h id

theorem commits_iff {f : Fate} : f.Commits ↔ ∃ statement, f = .done statement (some true) := by
  constructor
  · intro h
    cases f with
    | done statement c =>
      cases c with
      | none => exact absurd h id
      | some b =>
        cases b with
        | false => exact absurd h id
        | true => exact ⟨statement, rfl⟩
    | _ => exact absurd h id
  · rintro ⟨statement, rfl⟩
    trivial

end Fate

/-- The effects that a database holds, by the numbers of the rows: those that a rollback
would undo, and those that are durable. -/
structure Store where
  pending : List Nat := []
  durable : List Nat := []

namespace Store

def commit (t : Store) : Store := { durable := t.durable ++ t.pending }

def enter (t : Store) (n : Nat) : Fate → Store
  | .done _ (some true) => { t with pending := t.pending ++ [n] : Store }.commit
  | .done _ _ => { t with pending := t.pending ++ [n] }
  | _ => t

def after (t : Store) (n : Nat) : List Fate → Store
  | [] => t
  | f :: rest => (t.enter n f).after (n + 1) rest

variable {t : Store} {n k : Nat}

theorem mem_pending_enter {f : Fate} : k ∈ (t.enter n f).pending ↔
    ¬ f.Commits ∧ (k ∈ t.pending ∨ k = n ∧ f.Executed) := by
  cases f with
  | done statement c =>
    cases c with
    | none => simp [enter, Fate.Commits, Fate.Executed]
    | some b => cases b <;> simp [enter, commit, Fate.Commits, Fate.Executed]
  | _ => simp [enter, Fate.Commits, Fate.Executed]

theorem mem_durable_enter {f : Fate} : k ∈ (t.enter n f).durable ↔
    k ∈ t.durable ∨ f.Commits ∧ (k ∈ t.pending ∨ k = n) := by
  cases f with
  | done statement c =>
    cases c with
    | none => simp [enter, Fate.Commits]
    | some b => cases b <;> simp [enter, commit, Fate.Commits]
  | _ => simp [enter, Fate.Commits]

/-- The effect of a row is durable if it was in the database at a commit that succeeded. -/
theorem mem_durable_after {fates : List Fate} : k ∈ (t.after n fates).durable ↔
    k ∈ t.durable ∨ (k ∈ t.pending ∧ ∃ g ∈ fates, g.Commits) ∨
      ∃ i f, k = n + i ∧ fates[i]? = some f ∧ f.Executed ∧ ∃ g ∈ fates.drop i, g.Commits := by
  induction fates generalizing t n with
  | nil => simp [after]
  | cons f rest ih =>
    -- The first fate is that of the `n`th row; the others are those from the next row on.
    have hhead : (∃ i f', k = n + i ∧ (f :: rest)[i]? = some f' ∧ f'.Executed ∧
          ∃ g ∈ (f :: rest).drop i, g.Commits) ↔
        (k = n ∧ f.Executed ∧ (f.Commits ∨ ∃ g ∈ rest, g.Commits)) ∨
          ∃ i f', k = n + 1 + i ∧ rest[i]? = some f' ∧ f'.Executed ∧
            ∃ g ∈ rest.drop i, g.Commits := by
      constructor
      · rintro ⟨i, f', hk, hf', hexecuted, hcommits⟩
        cases i with
        | zero =>
          cases hf'
          left
          exact ⟨hk, hexecuted, by simpa using hcommits⟩
        | succ i => exact .inr ⟨i, f', by omega, hf', hexecuted, hcommits⟩
      · rintro (⟨hk, hexecuted, hcommits⟩ | ⟨i, f', hk, hf', hexecuted, hcommits⟩)
        · exact ⟨0, f, hk, rfl, hexecuted, by simpa using hcommits⟩
        · exact ⟨i + 1, f', by omega, hf', hexecuted, hcommits⟩
    rw [after, ih, mem_durable_enter, mem_pending_enter, hhead, List.exists_mem_cons_iff]
    generalize (∃ g ∈ rest, g.Commits) = later
    by_cases hcommits : f.Commits
    · simp only [hcommits, hcommits.executed, true_and, not_true, false_and, true_or, and_true,
        false_or, or_assoc]
    · simp only [hcommits, not_false_eq_true, true_and, false_and, or_false, false_or, or_and_right,
        and_assoc, or_assoc]

end Store

variable {x : Executor} {r : Resource}

/-- No commit succeeded on a row that is rejected, and it was executed only if one failed. -/
theorem Ends.fate_of_rejects {row row' : Row} {d : Diagnostic} {fate : Fate}
    {replies : List Reply} (h : Ends row replies fate (.returned (.error (.rowFailed row' d))))
    (hsent : ∀ out f, ⟨.putRow out, .error f⟩ ∈ replies → f.isRowFailure = false) :
    row' = row ∧ ¬ fate.Commits ∧
      (fate.Executed ↔ ∃ statement, fate = .done statement (some false)) := by
  have hstands : row' = row ∧ ¬ fate.Stands := by
    cases h with
    | rejected message h => exact ⟨rfl, h⟩
    | broken h hf =>
      rcases hf with hf | ⟨out, hmem⟩
      · cases hf
      · cases hsent out _ hmem
  obtain ⟨rfl, hstands⟩ := hstands
  refine ⟨rfl, ?_, ?_⟩
  · intro hcommits
    obtain ⟨statement, rfl⟩ := Fate.commits_iff.mp hcommits
    exact hstands trivial
  · constructor
    · intro hexecuted
      cases fate with
      | done statement c =>
        cases c with
        | none => exact absurd trivial hstands
        | some b =>
          cases b with
          | false => exact ⟨statement, rfl⟩
          | true => exact absurd trivial hstands
      | _ => exact absurd hexecuted id
    · rintro ⟨statement, rfl⟩
      trivial

theorem events_finish_of_unclean {p : CommitPolicy} {s : r.State} :
    ∀ e ∈ (p.finish r s false).events, e = .rollback ∨ e = .rollbackFailed := by
  intro e he
  unfold CommitPolicy.finish at he
  split at he
  · cases he
  · rw [if_neg (by decide)] at he
    split at he <;> simp_all

variable (x r) in
/-- An executor that took these rows did this work, and this was seen of it: what the statements
gave rise to and what came last. -/
structure Worked (works : List Operator.Work) (last : List Resource.Event) (rows : List Row)
    (seen : List Note) : Prop where
  life : ∃ replies, ∃ s : State r, (x.operator r).Life replies works s
  rows : rows = works.filterMap (·.row?)
  seen : seen = ((x.story r works).1.flatMap Fate.events ++ last).map .resource

variable (x r) in
/-- What becomes of the `n`th row if it is rejected: nothing is committed at the end, and the
effect of the row is durable if and only if the statement was executed, the commit that was due
on it failed and a later one succeeded. -/
structure Withheld (works : List Operator.Work) (last : List Resource.Event) (n : Nat) : Prop where
  last : ∀ e ∈ last, e = .rollback ∨ e = .rollbackFailed
  durable : n ∈ (Store.after {} 0 (x.story r works).1).durable ↔
    (∃ statement, (x.story r works).1[n]? = some (.done statement (some false))) ∧
      ∃ m > n, ∃ statement, (x.story r works).1[m]? = some (.done statement (some true))

theorem Departed.withheld {ds : List Doing} {own : Local} {works : List Operator.Work}
    {clean : Bool} {s : State r} (h : Departed x r ds own works clean s) {n : Nat}
    {w : Operator.Work} {row : Row} (hw : works[n]? = some w) (hrow : w.row? = some row)
    (hrejects : w.Rejects rejectionCode) :
    x.Withheld r works (x.decided r works clean).events n := by
  obtain ⟨row', d, hending, -⟩ := hrejects
  obtain ⟨fate, hfate, hends⟩ := h.ends n w row hw hrow
  rw [hending] at hends
  obtain ⟨rfl, hnot, hexecuted⟩ := hends.fate_of_rejects (h.sent w (List.mem_of_getElem? hw))
  constructor
  · -- The call that rejected the row counted as an error, so the end is not clean.
    have hclean : clean = false := by
      refine h.failed ⟨w, List.mem_of_getElem? hw, fun b hb => ?_⟩
      rw [hending] at hb
      cases hb
    rw [decided, hclean]
    exact events_finish_of_unclean
  · rw [Store.mem_durable_after, hfate]
    constructor
    · rintro (hmem | ⟨hmem, -⟩ | ⟨i, f, hi, hf, hf', g, hg, hcommits⟩)
      · cases hmem
      · cases hmem
      · obtain rfl : i = n := by omega
        obtain rfl := Option.some.inj (hfate.symm.trans hf)
        obtain ⟨statement, rfl⟩ := hexecuted.mp hf'
        obtain ⟨j, hj⟩ := List.mem_iff_getElem?.mp hg
        rw [List.getElem?_drop] at hj
        refine ⟨⟨statement, rfl⟩, i + j, ?_, ?_⟩
        · have hpos : j ≠ 0 := by
            rintro rfl
            rw [Nat.add_zero, hfate] at hj
            cases hj
            exact hnot hcommits
          omega
        · obtain ⟨statement', rfl⟩ := Fate.commits_iff.mp hcommits
          exact ⟨statement', hj⟩
    · rintro ⟨⟨statement, hfailed⟩, m, hm, statement', hcommitted⟩
      obtain rfl := Option.some.inj hfailed
      refine .inr (.inr ⟨n, _, by omega, hfate, trivial, .done statement' (some true), ?_, trivial⟩)
      refine List.mem_iff_getElem?.mpr ⟨m - n, ?_⟩
      rw [List.getElem?_drop, Nat.add_sub_cancel' (Nat.le_of_lt hm)]
      exact hcommitted

end Executor

namespace Run

variable {d : Definition} {registry : Registry} {config : Config} {r : Run}

/-- In every run, however it ends, whatever fails and whatever the commit size is: the effect
of a row that an executor rejects is durable if and only if the statement was executed, the
commit that was due on it failed and a later one succeeded. -/
theorem durable_of_rejected_iff (h : make d registry config = .ok r) (events : List Event)
    {place : Nat} {c : Copy} (hc : (r.after events).net.copies[place]? = some c)
    (hgone : c.isGone = true) {x : Executor} {res : Resource} (hop : c.op = x.operator res) :
    ∃ works last, x.Worked res works last (rowsTaken ((r.ledger events).log place))
        ((r.after events).net.shared.journal.notesOf c.own.info.name c.own.info.copy) ∧
      ∀ (n : Nat) (w : Operator.Work) (row : Row), works[n]? = some w → w.row? = some row →
        w.Rejects Executor.rejectionCode → x.Withheld res works last n := by
  obtain ⟨plan, hmade⟩ := made_of_make h
  obtain ⟨op, own, task⟩ := c
  cases task with
  | gone =>
    subst hop
    obtain ⟨ds, s, hdeparts, hnotes, hrows⟩ := departs_of_gone hmade hc
    obtain ⟨works, clean, hdeparted⟩ := Executor.Departed.of_departs hdeparts
    rw [hnotes, hrows]
    exact ⟨works, _, ⟨hdeparted.life, hdeparted.rows, hdeparted.notes⟩,
      fun n w row => hdeparted.withheld⟩
  | _ => cases hgone

def late : Definition where
  name := "late"
  steps := [
    { name := "statements", plugin := "rows" },
    { name := "exec", plugin := "exec",
      params := .ofList [("statement_field", "sql"), ("commit_size", "1")] },
    { name := "rejects", plugin := "rejects" }]
  hops := [{ source := "statements", target := "exec" },
    { source := "exec", target := "rejects", kind := .error }]

def lateDatabase : Canned where
  failingCommits := [1]

def lateRegistry : Registry :=
  KeyMap.ofList [
    ("rows", Recipe.make (.given (.ok [
      Executor.statementRow (some "INSERT 1"), Executor.statementRow (some "INSERT 2")]))),
    ("exec", Recipe.make (.executor lateDatabase)),
    ("rejects", Recipe.make .collector)]

def lateRun : Run :=
  ((make late lateRegistry {}).toOption).getD { name := "", config := {}, net := { copies := [] } }

def lateCourse : List Event :=
  .prepare :: (rounds 3 9 ++ [.chief, .start] ++ rounds 3 120 ++ [.finish])

def lateExecutor : Executor where
  statementField := "sql"
  policy := { size := 1 }

theorem make_late : make late lateRegistry {} = .ok lateRun := rfl

theorem op_late : lateRun.net.copies[1]?.map (·.op) =
    some (lateExecutor.operator lateDatabase.resource) := rfl

theorem durable_of_rejected_iff_late :
    ∃ c, (lateRun.after lateCourse).net.copies[1]? = some c ∧
      ∃ works last, lateExecutor.Worked lateDatabase.resource works last
          (rowsTaken ((lateRun.ledger lateCourse).log 1))
          ((lateRun.after lateCourse).net.shared.journal.notesOf c.own.info.name c.own.info.copy) ∧
        ∀ (n : Nat) (w : Operator.Work) (row : Row), works[n]? = some w → w.row? = some row →
          w.Rejects Executor.rejectionCode →
            lateExecutor.Withheld lateDatabase.resource works last n := by
  have hgone : (lateRun.after lateCourse).net.copies[1]?.map (·.isGone) = some true := by
    decide +kernel
  obtain ⟨c, hc, hgone, hop⟩ := exists_gone hgone op_late
  exact ⟨c, hc, durable_of_rejected_iff make_late lateCourse hc hgone hop⟩

/-- The first row is rejected, and the commit on the second one makes it durable. -/
theorem durable_rejected_late :
    make late lateRegistry {} = .ok lateRun ∧ (lateRun.after lateCourse).IsOver ∧
    lateRun.net.copies[1]?.map (·.op) = some (lateExecutor.operator lateDatabase.resource) ∧
    (rowsTaken ((lateRun.ledger lateCourse).log 1)).map (·.find? "sql") =
      [some (.string "INSERT 1"), some (.string "INSERT 2")] ∧
    ((lateRun.after lateCourse).net.shared.journal.collected (· == "rejects")).map
        (fun row => (row.find? "sql", row.find? "error_code")) =
      [(some (.string "INSERT 1"), some (.string Executor.rejectionCode))] ∧
    (lateRun.after lateCourse).net.shared.journal.notesOf "exec" 0 =
      [.execute "INSERT 1", .commitFailed, .execute "INSERT 2", .commit, .rollback].map .resource ∧
    (Executor.Store.after {} 0 (lateExecutor.fates lateDatabase.resource
      (lateExecutor.begun lateDatabase.resource)
      ((rowsTaken ((lateRun.ledger lateCourse).log 1)).map some)).1).durable = [0, 1] :=
  ⟨make_late, .inl (by decide +kernel), op_late, by decide +kernel, by decide +kernel,
    by decide +kernel, by decide +kernel⟩

end Run
end RowFlow
