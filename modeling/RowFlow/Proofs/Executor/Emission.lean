import RowFlow.Proofs.Executor.Columns
import RowFlow.Proofs.Program.Amid
import RowFlow.Proofs.Program.Faults
import RowFlow.Proofs.Schema.Names
import RowFlow.Resource.Canned

/-
What an executor makes of a row that it takes.  A row whose statement is executed goes out once,
with the counts of the statement after its own values; a row without a statement, or one whose
statement or commit fails, comes back with the failure and is not sent.  What is counted is what
the statement has done, whether the commit after it fails or not.

The columns are those of the row whatever was kept from the rows before (`runs_process`), so all
of it is read off the courses of a single unit of work.
-/
namespace RowFlow

def StatementCounts.raises (c : StatementCounts) : Counter → Nat
  | .input => c.read
  | .output => c.inserted + c.updated + c.deleted
  | .inserted => c.inserted
  | .updated => c.updated
  | .deleted => c.deleted
  | _ => 0

/-- The request neither sends a row nor raises a counter by itself. -/
def Request.Idle : Request → Prop
  | putRow _ => False
  | add _ _ => False
  | _ => True

structure Reply.Spends (replies : List Reply) (raises : Counter → Nat)
    (sent : List (Row × Except Fault Unit)) : Prop where
  puts : replies.filterMap Reply.put? = sent.map (·.1)
  answers : replies.filterMap Reply.putAnswer? = sent.map (·.2)
  raised : ∀ k, (replies.map (Reply.added k)).sum = raises k

namespace Reply.Spends

variable {replies more : List Reply} {raises raises' : Counter → Nat}
  {sent sent' : List (Row × Except Fault Unit)}

theorem idle (h : ∀ r ∈ replies, r.request.Idle) : Spends replies 0 [] := by
  induction replies with
  | nil => exact ⟨rfl, rfl, fun _ => rfl⟩
  | cons r replies ih =>
    obtain ⟨hr, hreplies⟩ := List.forall_mem_cons.mp h
    obtain ⟨hputs, hanswers, hraised⟩ := ih hreplies
    obtain ⟨q, a⟩ := r
    cases q with
    | putRow row => exact absurd hr id
    | add c n => exact absurd hr id
    | _ => exact ⟨hputs, hanswers, fun k => (Nat.zero_add _).trans (hraised k)⟩

theorem append (h : Spends replies raises sent) (h' : Spends more raises' sent') :
    Spends (replies ++ more) (raises + raises') (sent ++ sent') where
  puts := by rw [List.filterMap_append, h.puts, h'.puts, List.map_append]
  answers := by rw [List.filterMap_append, h.answers, h'.answers, List.map_append]
  raised k := by rw [List.map_append, List.sum_append, h.raised, h'.raised, Pi.add_apply]

/-- Requests that are idle make no difference before. -/
theorem after_idle (h : ∀ r ∈ more, r.request.Idle) (h' : Spends replies raises sent) :
    Spends (more ++ replies) raises sent := by
  have happend := (idle h).append h'
  rwa [zero_add, List.nil_append] at happend

end Reply.Spends

/-- The rows that were put, with the answers to that, and by how much the counters were raised
that operators alone raise. -/
structure Doing.Spends (ds : List Doing) (l m : Local) (raises : Counter → Nat)
    (sent : List (Row × Except Fault Unit)) : Prop where
  puts : Doing.puts ds = sent.map (·.1)
  answers : Doing.putAnswers ds = sent.map (·.2)
  counts : ∀ k, k.isOutside = true → m.counts.get k = l.counts.get k + raises k

/-- What was asked for was done. -/
theorem Reply.Spends.of_asked {α : Type} {p : Program α} {v : α} {l m : Local}
    {ds : List Doing} {replies : List Reply} {raises : Counter → Nat}
    {sent : List (Row × Except Fault Unit)} (h : Spends replies raises sent)
    (hasked : Asked ds replies) (hruns : p.Runs l ds v m) : Doing.Spends ds l m raises sent where
  puts := hasked.puts.trans h.puts
  answers := hasked.answers.trans h.answers
  counts k hk := by rw [hruns.counts k, hasked.raised k hk, h.raised k]

namespace Executor

variable {x : Executor} {r : Resource} {s s' : State r} {row : Row} {statement : String}
  {output : Schema} {replies : List Reply} {e : Ending Bool}

section Courses

theorem idle_await {reply : Resource.Reply} {v : Except Fault StatementCounts}
    (h : (await reply).Course replies v) : ∀ q ∈ replies, q.request.Idle := by
  refine Behaviour.Asks.of_course ?_ h
  cases reply with
  | held f => exact ⟨trivial, fun _ => trivial⟩
  | _ => trivial

theorem idle_notes {ns : List Note} {u : Unit} (h : (Behaviour.notes ns).Course replies u) :
    ∀ q ∈ replies, q.request.Idle := by
  refine Behaviour.Asks.of_course ?_ h
  clear h
  induction ns with
  | nil => trivial
  | cons n ns ih => exact ⟨trivial, fun _ => ih⟩

/-- What a statement did is counted once, and nothing is sent for that. -/
theorem spends_tally {c : StatementCounts} {u : Unit} (h : (tally c).Course replies u) :
    Reply.Spends replies c.raises [] := by
  obtain ⟨_, _, houtput, rfl⟩ := Behaviour.course_request h
  obtain ⟨_, _, hinserted, rfl⟩ := Behaviour.course_request houtput
  obtain ⟨_, _, hupdated, rfl⟩ := Behaviour.course_request hinserted
  obtain ⟨_, _, hdeleted, rfl⟩ := Behaviour.course_request hupdated
  obtain ⟨_, _, hlast, rfl⟩ := Behaviour.course_request hdeleted
  cases hlast
  refine ⟨rfl, rfl, fun k => ?_⟩
  cases k <;> simp [Reply.added, StatementCounts.raises]

/-- A row goes out in one call, and the answer to that is what the work comes back with. -/
theorem spends_forward {out : Row} (h : (Behaviour.forward s out).Course replies (s', e)) :
    ∃ answer : Except Fault Unit, e = .returned (answer.map fun _ => true) ∧
      Reply.Spends replies 0 [(out, answer)] := by
  obtain ⟨answer, rest, hrest, rfl⟩ := Behaviour.course_request h
  refine ⟨answer, ?_⟩
  cases answer with
  | ok u =>
    cases hrest
    exact ⟨rfl, rfl, rfl, fun _ => rfl⟩
  | error f =>
    cases hrest
    exact ⟨rfl, rfl, rfl, fun _ => rfl⟩

/-- A statement that is not executed sends nothing and counts nothing. -/
theorem spends_execute_failed {resource : r.State} {reply : Resource.Reply}
    (hexec : r.execute s.resource statement = (resource, reply)) (hreply : ∀ c, reply ≠ .done c)
    (h : (x.execute r s row statement output).Course replies (s', e)) :
    Reply.Spends replies 0 [] ∧ (e = .returned (.ok false) ∨
      ∃ f, (reply = .fault f ∨ reply = .held f) ∧
        e = .returned (.error (rejection row f.message))) := by
  obtain ⟨_, rest, hrest, rfl⟩ := Behaviour.course_request h
  rw [hexec] at hrest
  obtain ⟨awaiting, v, after, hawait, hafter, rfl⟩ := Behaviour.course_bind hrest
  have hidle := idle_await hawait
  obtain ⟨f, rfl, hf⟩ : ∃ f, v = .error f ∧ (reply = .fault f ∨ reply = .held f) := by
    cases reply with
    | done c => exact absurd rfl (hreply c)
    | fault f =>
      cases hawait
      exact ⟨f, rfl, .inl rfl⟩
    | held f =>
      obtain ⟨_, _, hheld, rfl⟩ := Behaviour.course_request hawait
      cases hheld
      exact ⟨f, rfl, .inr rfl⟩
  obtain ⟨stopped, last, hlast, rfl⟩ := Behaviour.course_request hafter
  cases stopped with
  | true =>
    cases hlast
    refine ⟨.idle ?_, .inl rfl⟩
    simpa [or_imp, forall_and] using ⟨trivial, hidle, trivial⟩
  | false =>
    cases hlast
    refine ⟨.idle ?_, .inr ⟨f, hf, rfl⟩⟩
    simpa [or_imp, forall_and] using ⟨trivial, hidle, trivial⟩

/-- A statement that is executed counts; and then the row goes out, if no commit fails. -/
theorem spends_execute_done {resource : r.State} {c : StatementCounts} {out : Row}
    (hexec : r.execute s.resource statement = (resource, .done c))
    (hout : row.extend output (x.results c) = .ok out)
    (h : (x.execute r s row statement output).Course replies (s', e)) :
    (∀ f, (s.policy.afterRow r resource).answer = .error f →
      e = .returned (.error (rejection row f.message)) ∧ Reply.Spends replies c.raises []) ∧
    ∀ b, (s.policy.afterRow r resource).answer = .ok b →
      ∃ answer : Except Fault Unit, e = .returned (answer.map fun _ => true) ∧
        Reply.Spends replies c.raises [(out, answer)] := by
  obtain ⟨_, rest, hrest, rfl⟩ := Behaviour.course_request h
  rw [hexec] at hrest
  obtain ⟨awaiting, v, after, hawait, hafter, rfl⟩ := Behaviour.course_bind hrest
  cases hawait
  obtain ⟨counting, _, sending, hcount, hsend, rfl⟩ := Behaviour.course_bind hafter
  obtain ⟨noting, _, last, hnotes, hlast, rfl⟩ := Behaviour.course_bind hsend
  -- All but the last part is the same whether the commit fails or not.
  have hbefore : ∀ sent, Reply.Spends last 0 sent →
      Reply.Spends (⟨.note (.resource (.execute statement)), ()⟩ ::
        ([] ++ (counting ++ (noting ++ last)))) c.raises sent := fun sent hsent => by
    have hcounted := (spends_tally hcount).append (hsent.after_idle (idle_notes hnotes))
    rw [add_zero, List.nil_append] at hcounted
    have hnote : (Request.note (.resource (.execute statement))).Idle := trivial
    exact hcounted.after_idle (List.forall_mem_singleton.mpr hnote)
  constructor
  · intro f hf
    rw [hf] at hlast
    cases hlast
    exact ⟨rfl, hbefore [] (.idle nofun)⟩
  · intro b hb
    rw [hb] at hlast
    simp only [hout] at hlast
    obtain ⟨answer, he, hsent⟩ := spends_forward hlast
    exact ⟨answer, he, hbefore _ hsent⟩

end Courses

section Results

/-- What a parameter set says of an executor. -/
structure Configured (i : StepInfo) (x : Executor) : Prop where
  statement : i.param? "statement_field" = some x.statementField
  /-- A result field has a name, which one of the parameters gives. -/
  named : ∀ name k, (name, k) ∈ x.resultFields ↔ i.param? k.param = some name ∧ name ≠ ""
  /-- The results that were read come first, then those inserted, updated and deleted. -/
  ordered : (x.resultFields.map (·.2)).Sublist [.read, .inserted, .updated, .deleted]

theorem map_snd_resultFieldsOf (i : StepInfo) :
    (resultFieldsOf i).map (·.2) = ResultKind.all.filter fun k =>
      ((i.param? k.param).filter fun name => !name.isEmpty).isSome := by
  unfold resultFieldsOf
  induction ResultKind.all with
  | nil => rfl
  | cons k ks ih =>
    rw [List.filterMap_cons, List.filter_cons]
    cases (i.param? k.param).filter fun name => !name.isEmpty with
    | none => simpa using ih
    | some name => simpa using ih

theorem configured_of_ofInfo {i : StepInfo} (h : ofInfo i = .ok x) : Configured i x := by
  obtain ⟨field, size, hfield, rfl⟩ := exists_of_ofInfo h
  refine ⟨StepInfo.param?_of_requiredParam hfield, fun name k => ?_, ?_⟩
  · have hall : k ∈ ResultKind.all := by cases k <;> decide
    simp only [resultFieldsOf, List.mem_filterMap, Option.map_eq_some_iff,
      Option.filter_eq_some_iff, Prod.mk.injEq]
    constructor
    · rintro ⟨_, -, _, ⟨hparam, hname⟩, rfl, rfl⟩
      exact ⟨hparam, by simpa using hname⟩
    · rintro ⟨hparam, hname⟩
      exact ⟨k, hall, name, ⟨hparam, by simpa using hname⟩, rfl, rfl⟩
  · rw [map_snd_resultFieldsOf]
    exact List.filter_sublist

/-- The row with the counts after its own values: as much of each as an integer can hold. -/
structure Counted (x : Executor) (row : Row) (c : StatementCounts) (out : Row) : Prop where
  fields : out.schema.fields = row.schema.fields ++
    x.resultFields.map fun (name, _) => { name, type := .integer }
  values : ∃ counts : List Int64, out.values = row.values ++ counts.map Value.integer ∧
    counts.map Int64.toInt =
      x.resultFields.map fun (_, k) => min (k.count c : Int) (2 ^ 63 - 1)

theorem toInt_clamped (n : Nat) :
    (Int64.ofInt (min (n : Int) Int64.maxValue.toInt)).toInt = min (n : Int) (2 ^ 63 - 1) := by
  have h : Int64.maxValue.toInt = 2 ^ 63 - 1 := by decide
  rw [h, Int64.toInt_ofInt_of_le] <;> omega

/-- The row to send can always be made. -/
theorem exists_counted (x : Executor) (row : Row) (c : StatementCounts) :
    ∃ out, row.extend ⟨row.schema.fields ++ x.extraFields⟩ (x.results c) = .ok out ∧
      Counted x row c out := by
  have htypes : Schema.typeMisfit? x.extraFields (x.results c) = none := by
    unfold extraFields results
    induction x.resultFields with
    | nil => rfl
    | cons _ _ ih => exact ih
  have hfits := row.misfit?_append (by simp [extraFields, results]) htypes
  refine ⟨⟨_, _, hfits⟩, Row.ofValues_eq_ok_iff.mpr ⟨rfl, rfl⟩, rfl,
    x.resultFields.map fun (_, k) => Int64.ofInt (min (k.count c : Int) Int64.maxValue.toInt),
    ?_, ?_⟩
  · show row.values ++ x.results c = _
    rw [List.map_map]
    rfl
  · rw [List.map_map]
    exact List.map_congr_left fun p _ => toInt_clamped _

end Results

section Columns

variable (hfield : x.statementField ∈ row.schema.names)
  (hnames : (row.schema.names ++ x.resultFields.map (·.1)).Nodup)
include hfield hnames

theorem exists_columns : ∃ place, row.schema.indexOf? x.statementField = some place ∧
    x.columns row.schema = .ok (place, ⟨row.schema.fields ++ x.extraFields⟩) := by
  obtain ⟨f, hf, hname⟩ := List.mem_map.mp hfield
  obtain ⟨i, hi⟩ := List.mem_iff_getElem?.mp hf
  obtain ⟨place, hplace⟩ := Schema.exists_indexOf? hi
  rw [hname] at hplace
  have hextended : row.schema.extended x.extraFields =
      .ok ⟨row.schema.fields ++ x.extraFields⟩ := by
    refine Schema.extended_ok_iff.mpr ⟨rfl, ?_⟩
    simpa [extraFields, Function.comp_def] using hnames
  refine ⟨place, hplace, ?_⟩
  unfold columns
  rw [hplace, hextended]
  rfl

/-- The statement of a row is the text in its field, if that is not blank. -/
theorem statementOf_eq_some_iff_find? : x.statementOf row = some statement ↔
    row.find? x.statementField = some (.string statement) ∧ Text.isBlankText statement = false := by
  obtain ⟨place, hplace, -⟩ := exists_columns hfield hnames
  rw [statementOf_eq_some_iff, Row.find?, hplace, Option.bind_some]
  simp [hnames]

theorem work_of_none (h : x.statementOf row = none) :
    x.work r s row = Behaviour.fail s (rejection row "empty statement") := by
  obtain ⟨place, -, hcolumns⟩ := exists_columns hfield hnames
  rw [statementOf_of_ok hcolumns] at h
  unfold work
  rw [hcolumns]
  simp only [h]

theorem work_of_some (h : x.statementOf row = some statement) :
    x.work r s row = x.execute r s row statement ⟨row.schema.fields ++ x.extraFields⟩ := by
  obtain ⟨place, -, hcolumns⟩ := exists_columns hfield hnames
  rw [statementOf_of_ok hcolumns] at h
  unfold work
  rw [hcolumns]
  simp only [h]

end Columns

/-- What comes of a row that was taken, by what its statement comes to. -/
structure Emission (x : Executor) (r : Resource) (s : State r) (row : Row) (l : Local)
    (ds : List Doing) (m : Local) (s' : State r) (e : Ending Bool) : Prop where
  /-- Without a statement the row comes back as it is, and that is all. -/
  blank (h : ∀ text, row.find? x.statementField = some (.string text) →
      Text.isBlankText text = true) :
    e = .returned (.error (.rowFailed row { message := "empty statement", code := "EXEC001" })) ∧
      s' = s ∧ Doing.notes ds = [] ∧ Doing.Spends ds l m 0 []
  /-- A statement that fails sends nothing and counts nothing. -/
  failed (text : String) (resource : r.State) (reply : Resource.Reply)
      (htext : row.find? x.statementField = some (.string text))
      (hblank : Text.isBlankText text = false)
      (hexec : r.execute s.resource text = (resource, reply)) (hreply : ∀ c, reply ≠ .done c) :
    s' = { s with resource } ∧ Doing.notes ds = [.resource (.execute text)] ∧
      Doing.Spends ds l m 0 [] ∧ (e = .returned (.ok false) ∨
        ∃ f, (reply = .fault f ∨ reply = .held f) ∧
          e = .returned (.error (rejection row f.message)))
  /-- A statement that is executed counts; if no commit fails, one row is sent, with what was
  counted, and otherwise the row comes back as it is. -/
  executed (text : String) (resource : r.State) (c : StatementCounts)
      (htext : row.find? x.statementField = some (.string text))
      (hblank : Text.isBlankText text = false)
      (hexec : r.execute s.resource text = (resource, .done c)) :
    s' = ⟨(s.policy.afterRow r resource).policy, (s.policy.afterRow r resource).state⟩ ∧
      Doing.notes ds =
        (.execute text :: (s.policy.afterRow r resource).events).map Note.resource ∧
      (∀ f, (s.policy.afterRow r resource).answer = .error f →
        e = .returned (.error (rejection row f.message)) ∧ Doing.Spends ds l m c.raises []) ∧
      ∀ b, (s.policy.afterRow r resource).answer = .ok b →
        ∃ out, ∃ answer : Except Fault Unit, Counted x row c out ∧
          e = .returned (answer.map fun _ => true) ∧
          Doing.Spends ds l m c.raises [(out, answer)]

variable {l m : Local} {ds : List Doing} {heap : Heap} {kept kept' : KeptColumns}
  {address : Nat} {i : StepInfo}

section Kept

variable (hkept : KeptColumns.Kept x r heap kept)
  (hruns : (x.processFrom r kept address s).program.Runs l ds ((s', e), kept') m)
  (htook : Doing.rows ds = [row]) (hsource : heap address = some row.schema)
include hkept hruns htook hsource

theorem runs_process_of_kept : (x.process r s).program.Runs l ds (s', e) m := by
  refine (runs_process hkept.sound hruns fun row' hrow => ?_).1
  rw [htook, List.mem_singleton] at hrow
  rw [hrow, hsource]

/-- What was done with the row that was taken. -/
theorem exists_work_of_kept : ∃ replies, (x.work r s row).Course replies (s', e) ∧
    s' = (x.dealt r s (some row)).2 ∧
    Doing.notes ds = (x.dealt r s (some row)).1.events.map .resource ∧
    ∀ raises sent, Reply.Spends replies raises sent → Doing.Spends ds l m raises sent := by
  obtain ⟨replies, hcourse, hasked⟩ := Program.asked_behaviour
    (runs_process_of_kept hkept hruns htook hsource)
  have hrows : replies.filterMap Reply.row? = [row] := hasked.heard.rows.symm.trans htook
  have hrow : Operator.Work.row? ⟨replies, e⟩ = some row := by rw [Operator.Work.row?, hrows]; rfl
  obtain ⟨hstate, htells, -⟩ := course_process (w := ⟨replies, e⟩) hcourse
  rw [hrow] at hstate htells
  have hnotes := hasked.heard.notes.trans htells.notes
  obtain ⟨row?, rest, hrest, rfl⟩ := Behaviour.course_request hcourse
  cases row? with
  | none =>
    cases hrest
    cases hrows
  | some taken =>
    obtain rfl : row = taken := (List.cons.inj hrows).1.symm
    have hget : Request.getRow.Idle := trivial
    refine ⟨rest, hrest, hstate, hnotes, fun raises sent h => ?_⟩
    exact (h.after_idle (List.forall_mem_singleton.mpr hget)).of_asked hasked hruns

/-- Whatever an executor has kept from the rows before, it goes on with a row as it would without
that, and what it makes of the row is what the parameters, the row and the resource say. -/
theorem emission_of_kept (hx : ofInfo i = .ok x) (hfield : x.statementField ∈ row.schema.names)
    (hnames : (row.schema.names ++ x.resultFields.map (·.1)).Nodup) :
    (x.process r s).program.Runs l ds (s', e) m ∧ Configured i x ∧
      Emission x r s row l ds m s' e := by
  obtain ⟨replies, hwork, hstate, hnotes, hspends⟩ := exists_work_of_kept hkept hruns htook hsource
  have htext (text : String) : x.statementOf row = some text ↔ _ :=
    statementOf_eq_some_iff_find? hfield hnames
  refine ⟨runs_process_of_kept hkept hruns htook hsource, configured_of_ofInfo hx, ?blank, ?failed,
    ?executed⟩
  case blank =>
    intro hblank
    have hnone : x.statementOf row = none := by
      refine Option.eq_none_iff_forall_ne_some.mpr fun text h => ?_
      obtain ⟨hsome, hfull⟩ := (htext text).mp h
      rw [hblank text hsome] at hfull
      cases hfull
    rw [dealt_of_none hnone] at hstate hnotes
    rw [work_of_none hfield hnames hnone] at hwork
    cases hwork
    exact ⟨rfl, hstate, hnotes, hspends _ _ (.idle nofun)⟩
  case failed =>
    intro text resource reply hsome hfull hexec hreply
    have hstatement := (htext text).mpr ⟨hsome, hfull⟩
    rw [dealt_of_some hstatement, executed_of_failed hexec hreply] at hstate hnotes
    rw [work_of_some hfield hnames hstatement] at hwork
    obtain ⟨hidle, he⟩ := spends_execute_failed hexec hreply hwork
    exact ⟨hstate, hnotes, hspends _ _ hidle, he⟩
  case executed =>
    intro text resource c hsome hfull hexec
    have hstatement := (htext text).mpr ⟨hsome, hfull⟩
    rw [dealt_of_some hstatement, executed_of_done hexec] at hstate hnotes
    rw [events_afterRow] at hnotes
    rw [work_of_some hfield hnames hstatement] at hwork
    obtain ⟨out, hout, hcounted⟩ := exists_counted x row c
    obtain ⟨hfails, hsends⟩ := spends_execute_done hexec hout hwork
    refine ⟨hstate, hnotes, fun f hf => ?_, fun b hb => ?_⟩
    · obtain ⟨he, hspent⟩ := hfails f hf
      exact ⟨he, hspends _ _ hspent⟩
    · obtain ⟨answer, he, hspent⟩ := hsends b hb
      exact ⟨out, answer, hcounted, he, hspends _ _ hspent⟩

end Kept

section Varied

def counterInfo : StepInfo where
  name := "exec"
  params := .ofList [("statement_field", "sql"), ("read_field", ""), ("insert_field", "added"),
    ("delete_field", "gone"), ("commit_size", "2")]

def counter : Executor where
  statementField := "sql"
  resultFields := [("added", .inserted), ("gone", .deleted)]
  policy := { size := 2 }

def vastDatabase : Canned where
  responses := [("INSERT", .done { inserted := 2 ^ 63, deleted := 3 })]

def textField (name : String) : Field := { name, type := .string }

def textsRow (first second : String × String) : Row where
  schema := ⟨[textField first.1, textField second.1]⟩
  values := [.string first.2, .string second.2]
  fits := rfl

/-- One row has its statement in the first place, and the next one in the second place. -/
def variedRows : List Row :=
  [textsRow ("sql", "INSERT 1") ("by", "INSERT"), textsRow ("by", "INSERT") ("sql", "INSERT 2")]

def variedHeap : Heap := fun address => variedRows[address]?.map (·.schema)

def varied : Local where
  info := counterInfo
  inputs := [0]
  pending := [0]
  outputs := [{ target := "out", rowSets := [1] }]

def variedShared : Shared where
  rowSets := [{ name := "exec.0", capacity := 2, buffer := variedRows }, .new "out.0" 2]

def variedFirst := (counter.processFrom vastDatabase.resource {} 0
  (counter.begun vastDatabase.resource)).program.unaided 17 varied variedShared

def variedKept : KeptColumns where
  place := some 0
  schemas := some (0, ⟨[textField "sql", textField "by", { name := "added", type := .integer },
    { name := "gone", type := .integer }]⟩)

theorem kept_varied : KeptColumns.Kept counter vastDatabase.resource variedHeap variedKept :=
  .work (y := (⟨{ size := 2, rows := 1 }, (0 : Nat)⟩, .returned (.ok true))) (.nothing _)
    (Program.amid_unaided [0, 1] (n := 17) (p := (counter.processFrom vastDatabase.resource {} 0
      (counter.begun vastDatabase.resource)).program) (l := varied) (s := variedShared) rfl).runs
    (by decide)

def variedSecond := (counter.processFrom vastDatabase.resource variedKept 1
  ⟨{ size := 2, rows := 1 }, (0 : Nat)⟩).program.unaided 18 variedFirst.2.2.1 variedFirst.2.2.2

theorem emission_of_kept_varied :
    ofInfo counterInfo = .ok counter ∧
    KeptColumns.Kept counter vastDatabase.resource variedHeap variedKept ∧
    Emission counter vastDatabase.resource ⟨{ size := 2, rows := 1 }, (0 : Nat)⟩
      (textsRow ("by", "INSERT") ("sql", "INSERT 2")) variedFirst.2.2.1
      (Happening.doings variedSecond.1) variedSecond.2.2.1
      ⟨{ size := 2, rows := 2, commits := 1 }, (1 : Nat)⟩ (.returned (.ok true)) ∧
    (Doing.puts (Happening.doings variedSecond.1)).map (·.values) =
      [[.string "INSERT", .string "INSERT 2", .integer Int64.maxValue, .integer 3]] :=
  ⟨rfl, kept_varied, (emission_of_kept (i := counterInfo) kept_varied
    (Program.amid_unaided [0, 1] rfl).runs rfl rfl rfl (by decide) (by decide)).2.2, rfl⟩

end Varied

end Executor
end RowFlow
