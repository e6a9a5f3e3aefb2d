import RowFlow.Operator.Recipe
import RowFlow.Proofs.Executor.Fates

/-
The schedule of commits.  What the resource of an executor sees is the statements of the
rows in the order in which they are taken, a commit after every so many that succeed, and
one decision at the end: a commit if the work ended of itself and without an error, a
rollback otherwise.  Only the rows that the step takes at all have a statement; where a
result would have the name of a field that the row already has, the layout is refused
before anything is executed, and the step fails.
-/
namespace RowFlow

section Policy

variable {r : Resource} (p : CommitPolicy) (s : r.State)

namespace CommitPolicy

theorem size_commit {α : Type} (a : α) : (p.commit r s a).policy.size = p.size := by
  unfold commit
  split <;> rfl

theorem rows_commit {α : Type} (a : α) : (p.commit r s a).policy.rows = p.rows := by
  unfold commit
  split <;> rfl

theorem commits_commit {α : Type} (a : α) : (p.commit r s a).policy.commits =
    p.commits + (p.commit r s a).events.count .commit := by
  unfold commit
  split <;> rfl

theorem size_afterRow : (p.afterRow r s).policy.size = p.size := by
  simp only [afterRow]
  split
  · rw [size_commit]
  · rfl

theorem rows_afterRow : (p.afterRow r s).policy.rows = p.rows + 1 := by
  simp only [afterRow]
  split
  · rw [rows_commit]
  · rfl

/-- The commits that are counted are those that the resource sees. -/
theorem commits_afterRow : (p.afterRow r s).policy.commits =
    p.commits + (p.afterRow r s).events.count .commit := by
  simp only [afterRow]
  split
  · rw [commits_commit]
  · rfl

theorem commits_finish (clean : Bool) : (p.finish r s clean).policy.commits =
    p.commits + (p.finish r s clean).events.count .commit := by
  unfold finish
  split
  · rfl
  · split
    · rw [commits_commit]
    · split <;> rfl

/-- A commit is due after every so many rows; a resource that commits by itself is not
asked for any. -/
def period (r : Resource) (p : CommitPolicy) : Nat := if r.autoCommit then 0 else p.size

theorem afterRow_of_due (hcommit : (r.commit s).2 = .ok ())
    (hdue : p.period r ≠ 0 ∧ p.period r ∣ p.rows + 1) :
    (p.afterRow r s).events = [.commit] ∧ (p.afterRow r s).state = (r.commit s).1 := by
  unfold period at hdue
  cases hauto : r.autoCommit with
  | true => simp [hauto] at hdue
  | false =>
    have hisDue : ({ p with rows := p.rows + 1 } : CommitPolicy).isDue = true := by
      simp only [hauto, Bool.false_eq_true, if_false] at hdue
      simp [isDue, hdue.1, Nat.mod_eq_zero_of_dvd hdue.2]
    rcases hs : r.commit s with ⟨s', a⟩
    rw [hs] at hcommit
    cases hcommit
    simp [afterRow, hisDue, hauto, commit, hs]

theorem afterRow_of_not_due (hdue : ¬ (p.period r ≠ 0 ∧ p.period r ∣ p.rows + 1)) :
    (p.afterRow r s).events = [] ∧ (p.afterRow r s).state = s := by
  unfold period at hdue
  cases hauto : r.autoCommit with
  | true => simp [afterRow, hauto]
  | false =>
    have hisDue : ({ p with rows := p.rows + 1 } : CommitPolicy).isDue = false := by
      simp only [hauto, Bool.false_eq_true, if_false, not_and] at hdue
      by_cases hzero : p.size = 0
      · simp [isDue, hzero]
      · have hmod : (p.rows + 1) % p.size ≠ 0 := fun h => hdue hzero (Nat.dvd_of_mod_eq_zero h)
        simp [isDue, hmod]
    simp [afterRow, hisDue]

theorem period_afterRow : (p.afterRow r s).policy.period r = p.period r := by
  rw [period, period, size_afterRow]

theorem finish_of_autoCommit (hauto : r.autoCommit = true) (clean : Bool) :
    (p.finish r s clean).events = [] := by
  simp [finish, hauto]

/-- A resource that neither fails to commit nor to roll back sees which of both it is. -/
theorem finish_of_succeeds (hauto : r.autoCommit = false) (hcommit : (r.commit s).2 = .ok ())
    (hrollback : (r.rollback s).2 = .ok ()) (clean : Bool) :
    (p.finish r s clean).events = [if clean then .commit else .rollback] ∧
      ∃ a, (p.finish r s clean).answer = .ok a := by
  cases clean with
  | true =>
    rcases hs : r.commit s with ⟨s', a⟩
    rw [hs] at hcommit
    cases hcommit
    simp [finish, hauto, commit, hs]
  | false =>
    rcases hs : r.rollback s with ⟨s', a⟩
    rw [hs] at hrollback
    cases hrollback
    simp [finish, hauto, hs]

end CommitPolicy
end Policy

namespace Executor

/-- What a resource whose commits succeed sees of statements, with a commit after each
`n`th that succeeds, if `n` is not zero.  So many have succeeded before. -/
def batched (r : Resource) (n : Nat) : r.State → Nat → List String → List Resource.Event
  | _, _, [] => []
  | s, before, statement :: rest =>
    match r.execute s statement with
    | (s, .done _) =>
      if n ≠ 0 ∧ n ∣ before + 1 then
        .execute statement :: .commit :: batched r n (r.commit s).1 (before + 1) rest
      else .execute statement :: batched r n s (before + 1) rest
    | (s, _) => .execute statement :: batched r n s before rest

variable {x : Executor} {r : Resource}

/-- No executor that is made has counted anything. -/
theorem policy_of_ofInfo {i : StepInfo} (h : ofInfo i = .ok x) :
    x.policy = { size := x.policy.size } := by
  obtain ⟨field, size, -, rfl⟩ := exists_of_ofInfo h
  rfl

theorem batched_zero (s : r.State) (before : Nat) (statements : List String) :
    batched r 0 s before statements = statements.map .execute := by
  induction statements generalizing s before with
  | nil => rfl
  | cons statement rest ih =>
    unfold batched
    split
    · rw [if_neg (fun h => h.1 rfl), ih]
      rfl
    · rw [ih]
      rfl

theorem commits_executed (s : State r) (statement : String) :
    (executed r s statement).2.policy.commits =
      s.policy.commits + (executed r s statement).1.events.count .commit := by
  unfold executed
  split
  · next resource c _ =>
    rw [events_afterRow, List.count_cons_of_ne (fun h => by cases h)]
    exact s.policy.commits_afterRow resource
  · rfl

theorem commits_fates (s : State r) (rows : List (Option Row)) :
    (x.fates r s rows).2.policy.commits =
      s.policy.commits + ((x.fates r s rows).1.flatMap Fate.events).count .commit := by
  induction rows generalizing s with
  | nil => rfl
  | cons row? rest ih =>
    have hdealt : (x.dealt r s row?).2.policy.commits =
        s.policy.commits + (x.dealt r s row?).1.events.count .commit := by
      unfold dealt
      split
      · rfl
      · exact commits_executed s _
    show (x.fates r (x.dealt r s row?).2 rest).2.policy.commits = s.policy.commits +
      ((x.dealt r s row?).1.events ++ (x.fates r _ rest).1.flatMap Fate.events).count .commit
    rw [ih, hdealt, List.count_append, Nat.add_assoc]

/-- A statement and what comes after it. -/
theorem batched_executed (hcommit : r.autoCommit = false → ∀ s, (r.commit s).2 = .ok ())
    (s : State r) (statement : String) (rest : List String) :
    (executed r s statement).1.events ++ batched r ((executed r s statement).2.policy.period r)
        (executed r s statement).2.resource (executed r s statement).2.policy.rows rest =
      batched r (s.policy.period r) s.resource s.policy.rows (statement :: rest) := by
  rcases hexec : r.execute s.resource statement with ⟨resource, reply⟩
  cases reply with
  | done c =>
    simp only [executed, batched, hexec, events_afterRow, CommitPolicy.period_afterRow,
      CommitPolicy.rows_afterRow]
    by_cases hdue : s.policy.period r ≠ 0 ∧ s.policy.period r ∣ s.policy.rows + 1
    · have hauto : r.autoCommit = false := by
        cases hauto : r.autoCommit with
        | true => exact absurd (by simp [CommitPolicy.period, hauto]) hdue.1
        | false => rfl
      obtain ⟨hevents, hstate⟩ := s.policy.afterRow_of_due resource (hcommit hauto resource) hdue
      simp only [if_pos hdue, hevents, hstate]
      rfl
    · obtain ⟨hevents, hstate⟩ := s.policy.afterRow_of_not_due resource hdue
      simp only [if_neg hdue, hevents, hstate]
      rfl
  | fault f =>
    simp only [executed, batched, hexec]
    rfl
  | held f =>
    simp only [executed, batched, hexec]
    rfl

/-- If commits succeed, the resource sees the statements with the commits that are due. -/
theorem events_fates (hcommit : r.autoCommit = false → ∀ s, (r.commit s).2 = .ok ())
    (s : State r) (rows : List (Option Row)) : (x.fates r s rows).1.flatMap Fate.events =
      batched r (s.policy.period r) s.resource s.policy.rows
        (rows.filterMap (·.bind x.statementOf)) := by
  induction rows generalizing s with
  | nil => rfl
  | cons row? rest ih =>
    show (x.dealt r s row?).1.events ++ (x.fates r _ rest).1.flatMap Fate.events = _
    rw [ih]
    cases hstatement : row?.bind x.statementOf with
    | none =>
      have hdealt : x.dealt r s row? = (.idle, s) := by
        unfold dealt
        rw [hstatement]
      rw [hdealt, List.filterMap_cons, hstatement]
      rfl
    | some statement =>
      have hdealt : x.dealt r s row? = executed r s statement := by
        unfold dealt
        rw [hstatement]
      rw [hdealt, List.filterMap_cons, hstatement, batched_executed hcommit]

/-- The decision at the end: the work ended of itself and without an error, or not. -/
def decision (own : Local) : Resource.Event :=
  if own.outcome = some .finished ∧ own.counts.errors = 0 then .commit else .rollback

/-- What a resource that neither fails to commit nor to roll back has seen of an executor that
took these rows and was left at `own`. -/
structure Scheduled (x : Executor) (r : Resource) (rows : List Row) (own : Local)
    (seen : List Note) : Prop where
  batches : r.autoCommit = false →
    seen = (batched r x.policy.size r.start 0 (rows.filterMap x.statementOf) ++
      [decision own]).map .resource
  statements : r.autoCommit = true →
    seen = (rows.filterMap x.statementOf).map fun statement => .resource (.execute statement)
  /-- The executor has counted the commits. -/
  commits : ∃ ds, ∃ s : State r, (x.operator r).Departs ds own s ∧ Doing.notes ds = seen ∧
    s.policy.commits = seen.count (.resource .commit)

theorem count_map_resource (events : List Resource.Event) :
    (events.map Note.resource).count (.resource .commit) = events.count .commit :=
  List.count_map_of_injective events Note.resource (fun _ _ h => Note.resource.inj h) .commit

theorem Departed.scheduled {ds : List Doing} {own : Local} {works : List Operator.Work}
    {clean : Bool} {s : State r} (h : Departed x r ds own works clean s)
    (hdeparts : (x.operator r).Departs ds own s) (hfresh : x.policy = { size := x.policy.size })
    (hcommit : r.autoCommit = false → ∀ s, (r.commit s).2 = .ok ())
    (hrollback : r.autoCommit = false → ∀ s, (r.rollback s).2 = .ok ()) :
    Scheduled x r (Doing.rows ds) own (Doing.notes ds) := by
  have hstatements : (works.map (·.row?)).filterMap (·.bind x.statementOf) =
      (Doing.rows ds).filterMap x.statementOf := by
    rw [h.rows, List.filterMap_filterMap, List.filterMap_map]
    rfl
  have hevents := events_fates (x := x) hcommit (x.begun r) (works.map (·.row?))
  have hrows : (x.begun r).policy.rows = 0 := by
    show x.policy.rows = 0
    rw [hfresh]
  rw [hstatements, hrows] at hevents
  have hnotes := h.notes
  rw [story, hevents] at hnotes
  refine ⟨fun hauto => ?_, fun hauto => ?_, ds, s, hdeparts, rfl, ?_⟩
  · obtain ⟨hlast, hanswer⟩ := (x.story r works).2.policy.finish_of_succeeds
      (x.story r works).2.resource hauto (hcommit hauto _) (hrollback hauto _) clean
    have hperiod : (x.begun r).policy.period r = x.policy.size := by
      simp [CommitPolicy.period, hauto, begun]
    have hdecision : (if clean then .commit else .rollback) = decision own := by
      rw [h.clean hanswer]
      simp [decision]
    rw [hnotes, decided, hlast, hdecision, hperiod]
    rfl
  · have hperiod : (x.begun r).policy.period r = 0 := by simp [CommitPolicy.period, hauto]
    rw [hnotes, decided, CommitPolicy.finish_of_autoCommit _ _ hauto, hperiod, batched_zero,
      List.append_nil, List.map_map]
    rfl
  · have hbegun : (x.begun r).policy.commits = 0 := by
      show x.policy.commits = 0
      rw [hfresh]
    rw [h.notes, count_map_resource, List.count_append, h.state, decided,
      CommitPolicy.commits_finish, story, commits_fates, hbegun, Nat.zero_add]

end Executor

namespace Run

variable {d : Definition} {registry : Registry} {config : Config} {r : Run}

/-- In every run, however it ends, the resource of an executor has seen the statements of
the rows that were taken, with a commit after every so many that succeeded and one decision
at the end. -/
theorem scheduled_of_gone (h : make d registry config = .ok r) (events : List Event) {place : Nat}
    {c : Copy} (hc : (r.after events).net.copies[place]? = some c) (hgone : c.isGone = true)
    {x : Executor} {res : Resource} (hop : c.op = x.operator res)
    (hfresh : x.policy = { size := x.policy.size })
    (hcommit : res.autoCommit = false → ∀ s, (res.commit s).2 = .ok ())
    (hrollback : res.autoCommit = false → ∀ s, (res.rollback s).2 = .ok ()) :
    x.Scheduled res (rowsTaken ((r.ledger events).log place)) c.own
      ((r.after events).net.shared.journal.notesOf c.own.info.name c.own.info.copy) := by
  obtain ⟨plan, hmade⟩ := made_of_make h
  obtain ⟨op, own, task⟩ := c
  cases task with
  | gone =>
    subst hop
    obtain ⟨ds, s, hdeparts, hnotes, hrows⟩ := departs_of_gone hmade hc
    obtain ⟨works, clean, hdeparted⟩ := Executor.Departed.of_departs hdeparts
    rw [hnotes, hrows]
    exact hdeparted.scheduled hdeparts hfresh hcommit hrollback
  | _ => cases hgone

def posting : Definition where
  name := "posting"
  steps := [
    { name := "statements", plugin := "rows" },
    { name := "exec", plugin := "exec",
      params := .ofList [("statement_field", "sql"), ("commit_size", "2")] },
    { name := "rejects", plugin := "rejects" }]
  hops := [{ source := "statements", target := "exec" },
    { source := "exec", target := "rejects", kind := .error }]

def pickyDatabase : Canned where
  responses := [("FAIL", .fault (.resource "execute" "syntax error"))]

def postingRegistry : Registry :=
  KeyMap.ofList [
    ("rows", Recipe.make (.given (.ok [
      Executor.statementRow (some "INSERT 1"), Executor.statementRow (some "FAIL 2"),
      Executor.statementRow none, Executor.statementRow (some "INSERT 3")]))),
    ("exec", Recipe.make (.executor pickyDatabase)),
    ("rejects", Recipe.make .collector)]

def postingRun : Run :=
  ((make posting postingRegistry {}).toOption).getD
    { name := "", config := {}, net := { copies := [] } }

def postingCourse : List Event :=
  .prepare :: (rounds 3 9 ++ [.chief, .start] ++ rounds 3 200 ++ [.finish])

def poster : Executor where
  statementField := "sql"
  policy := { size := 2 }

theorem make_posting : make posting postingRegistry {} = .ok postingRun := rfl

theorem op_posting : postingRun.net.copies[1]?.map (·.op) =
    some (poster.operator pickyDatabase.resource) := rfl

theorem scheduled_posting :
    (postingRun.after postingCourse).net.shared.journal.notesOf "exec" 0 =
      [.execute "INSERT 1", .execute "FAIL 2", .execute "INSERT 3", .commit,
        .rollback].map .resource ∧
    ∃ c, (postingRun.after postingCourse).net.copies[1]? = some c ∧
      poster.Scheduled pickyDatabase.resource
        (rowsTaken ((postingRun.ledger postingCourse).log 1)) c.own
        ((postingRun.after postingCourse).net.shared.journal.notesOf c.own.info.name
          c.own.info.copy) := by
  refine ⟨by decide +kernel, ?_⟩
  have hgone : (postingRun.after postingCourse).net.copies[1]?.map (·.isGone) = some true := by
    decide +kernel
  obtain ⟨c, hc, hgone, hop⟩ := exists_gone hgone op_posting
  exact ⟨c, hc, scheduled_of_gone make_posting postingCourse hc hgone hop rfl (fun _ _ => rfl)
    fun _ _ => rfl⟩

def doubled : Definition where
  name := "doubled"
  steps := [
    { name := "statements", plugin := "rows" },
    { name := "exec", plugin := "exec",
      params := .ofList [("statement_field", "sql"), ("insert_field", "ins")] }]
  hops := [{ source := "statements", target := "exec" }]

def doubledRegistry : Registry :=
  KeyMap.ofList [
    ("rows", Recipe.make (.given (.ok [
      ⟨⟨[{ name := "sql", type := .string }, { name := "ins", type := .integer }]⟩,
        [.string "INSERT 1", .null], rfl⟩]))),
    ("exec", Recipe.make (.executor {}))]

def doubledRun : Run :=
  ((make doubled doubledRegistry {}).toOption).getD
    { name := "", config := {}, net := { copies := [] } }

def doubledCourse : List Event :=
  .prepare :: (rounds 2 9 ++ [.chief, .start] ++ rounds 2 60 ++ [.finish])

def doubler : Executor where
  statementField := "sql"
  resultFields := [("ins", .inserted)]

/-- A row is taken whose statement is not blank, and it is never executed. -/
theorem unscheduled_doubled :
    make doubled doubledRegistry {} = .ok doubledRun ∧ (doubledRun.after doubledCourse).IsOver ∧
    doubledRun.net.copies[1]?.map (·.op) = some (doubler.operator ({} : Canned).resource) ∧
    (rowsTaken ((doubledRun.ledger doubledCourse).log 1)).map (·.find? "sql") =
      [some (.string "INSERT 1")] ∧
    Text.isBlankText "INSERT 1" = false ∧
    (doubledRun.after doubledCourse).net.shared.journal.notesOf "exec" 0 = [.resource .rollback] :=
  ⟨rfl, .inl (by decide +kernel), rfl, by decide +kernel, by decide +kernel, by decide +kernel⟩

end Run
end RowFlow
