import RowFlow.Operator.Executor
import RowFlow.Proofs.Run.Lives

/-
What an executor makes of its rows.  What becomes of the statement of a row depends on the
rows before it and on what the resource answers, and on nothing else: neither on the order
of turns nor on what becomes of the rows that are sent on.  So all that the resource sees
before the end is a function of the rows that the executor takes (`Executor.fates`), and
what it sees at the end is the one decision that the outcome and the errors of the copy
call for.
-/
namespace RowFlow

def Operator.Work.row? (w : Operator.Work) : Option Row := (w.replies.filterMap Reply.row?).head?

def Request.Mute : Request → Prop
  | getRow => False
  | note _ => False
  | _ => True

structure Reply.Tells (replies : List Reply) (notes : List Note) (rows : List Row) : Prop where
  notes : replies.filterMap Reply.note? = notes
  rows : replies.filterMap Reply.row? = rows

namespace Reply.Tells

variable {replies more : List Reply} {ns ms : List Note} {rows rows' : List Row}

theorem nil : Tells [] [] [] := ⟨rfl, rfl⟩

theorem append (h : Tells replies ns rows) (h' : Tells more ms rows') :
    Tells (replies ++ more) (ns ++ ms) (rows ++ rows') :=
  ⟨by rw [List.filterMap_append, h.notes, h'.notes], by
    rw [List.filterMap_append, h.rows, h'.rows]⟩

theorem mute (h : ∀ r ∈ replies, r.request.Mute) : Tells replies [] [] := by
  have hnone : ∀ r ∈ replies, r.note? = none ∧ r.row? = none := by
    rintro ⟨q, x⟩ hr
    have hmute := h _ hr
    cases q with
    | getRow => exact absurd hmute id
    | note n => exact absurd hmute id
    | _ => exact ⟨rfl, rfl⟩
  exact ⟨List.filterMap_eq_nil_iff.mpr fun r hr => (hnone r hr).1,
    List.filterMap_eq_nil_iff.mpr fun r hr => (hnone r hr).2⟩

/-- After a request of which nothing is heard. -/
theorem cons {r : Reply} (hr : r.request.Mute) (h : Tells replies ns rows) :
    Tells (r :: replies) ns rows :=
  (mute (List.forall_mem_singleton.mpr hr)).append h

theorem course_notes {u : Unit} (h : (Behaviour.notes ns).Course replies u) :
    Tells replies ns [] := by
  induction ns generalizing replies with
  | nil =>
    cases h
    exact .nil
  | cons n rest ih =>
    obtain ⟨_, last, hlast, rfl⟩ := Behaviour.course_request h
    obtain ⟨hnotes, hrows⟩ := ih hlast
    refine ⟨?_, hrows⟩
    show n :: last.filterMap Reply.note? = n :: rest
    rw [hnotes]

end Reply.Tells

theorem StepInfo.param?_of_requiredParam {i : StepInfo} {key v : String}
    (h : i.requiredParam key = .ok v) : i.param? key = some v := by
  unfold requiredParam at h
  cases hparam : i.param? key with
  | none =>
    rw [hparam] at h
    cases h
  | some w =>
    rw [hparam] at h
    cases hempty : w.isEmpty with
    | true =>
      simp only [hempty] at h
      cases h
    | false =>
      simp only [hempty] at h
      cases h
      rfl

namespace Executor

/-- An executor that is made is what its parameters say. -/
theorem exists_of_ofInfo {i : StepInfo} {x : Executor} (h : ofInfo i = .ok x) :
    ∃ field size, i.requiredParam "statement_field" = .ok field ∧
      x = { statementField := field, resultFields := resultFieldsOf i, policy := { size } } := by
  unfold ofInfo at h
  cases hfield : i.requiredParam "statement_field" with
  | error f =>
    rw [hfield] at h
    cases h
  | ok field =>
    rw [hfield] at h
    cases hsize : i.parseParam Text.Numeral.word? "commit_size" with
    | error f =>
      rw [hsize] at h
      cases h
    | ok size =>
      rw [hsize] at h
      cases h
      exact ⟨field, _, rfl, rfl⟩

/-- What became of the statement of a row. -/
inductive Fate where
  /-- No statement was executed. -/
  | idle
  | failed (statement : String)
  /-- It was executed; if a commit was due then, whether that succeeded. -/
  | done (statement : String) (commit : Option Bool)
deriving DecidableEq

def Fate.events : Fate → List Resource.Event
  | idle => []
  | failed statement => [.execute statement]
  | done statement none => [.execute statement]
  | done statement (some true) => [.execute statement, .commit]
  | done statement (some false) => [.execute statement, .commitFailed]

def commitOf : Except Fault Bool → Option Bool
  | .ok false => none
  | .ok true => some true
  | .error _ => some false

variable (x : Executor) (r : Resource)

/-- The statement that is executed for a row: none if the step does not take such rows. -/
def statementOf (row : Row) : Option String :=
  match x.columns row.schema with
  | .error _ => none
  | .ok (place, _) => statement? row place

def executed (s : State r) (statement : String) : Fate × State r :=
  match r.execute s.resource statement with
  | (resource, .done _) =>
    let after := s.policy.afterRow r resource
    (.done statement (commitOf after.answer), { policy := after.policy, resource := after.state })
  | (resource, _) => (.failed statement, { s with resource })

def dealt (s : State r) (row? : Option Row) : Fate × State r :=
  match row?.bind x.statementOf with
  | none => (.idle, s)
  | some statement => executed r s statement

def fates : State r → List (Option Row) → List Fate × State r
  | s, [] => ([], s)
  | s, row? :: rest =>
    let after := fates (x.dealt r s row?).2 rest
    ((x.dealt r s row?).1 :: after.1, after.2)

variable {x r}

section Dealt

variable {row : Row} {statement : String} {s : State r}

theorem statementOf_of_error {f : Fault} (h : x.columns row.schema = .error f) :
    x.statementOf row = none := by
  unfold statementOf
  rw [h]

theorem statementOf_of_ok {place : Nat} {output : Schema}
    (h : x.columns row.schema = .ok (place, output)) :
    x.statementOf row = statement? row place := by
  unfold statementOf
  rw [h]

theorem dealt_of_none (h : x.statementOf row = none) :
    x.dealt r s (some row) = (.idle, s) := by
  unfold dealt
  rw [Option.bind_some, h]

theorem dealt_of_some (h : x.statementOf row = some statement) :
    x.dealt r s (some row) = executed r s statement := by
  unfold dealt
  rw [Option.bind_some, h]

theorem executed_of_done {resource : r.State} {c : StatementCounts}
    (h : r.execute s.resource statement = (resource, .done c)) :
    executed r s statement =
      (.done statement (commitOf (s.policy.afterRow r resource).answer),
        { policy := (s.policy.afterRow r resource).policy
          resource := (s.policy.afterRow r resource).state }) := by
  unfold executed
  rw [h]

theorem executed_of_failed {resource : r.State} {reply : Resource.Reply}
    (h : r.execute s.resource statement = (resource, reply)) (hreply : ∀ c, reply ≠ .done c) :
    executed r s statement = (.failed statement, { s with resource }) := by
  unfold executed
  rw [h]
  cases reply with
  | done c => exact absurd rfl (hreply c)
  | _ => rfl

end Dealt

/-- Statements are executed for the rows that have a text there that is not blank, if no
two fields of the rows to send would be of one name. -/
theorem statementOf_eq_some_iff {row : Row} {statement : String} :
    x.statementOf row = some statement ↔
      (∃ place, row.schema.indexOf? x.statementField = some place ∧
        row.get? place = some (.string statement)) ∧ Text.isBlankText statement = false ∧
      (row.schema.names ++ x.resultFields.map (·.1)).Nodup := by
  have hnames : x.extraFields.map (·.name) = x.resultFields.map (·.1) := by
    simp [extraFields, Function.comp_def]
  have htext : ∀ place, statement? row place = some statement ↔
      row.get? place = some (.string statement) ∧ Text.isBlankText statement = false := by
    intro place
    unfold statement?
    split
    · next text htext =>
      rw [htext]
      split
      · next hblank =>
        simp only [reduceCtorEq, Option.some.injEq, Value.string.injEq, false_iff, not_and]
        rintro rfl
        simp [hblank]
      · next hblank =>
        simp only [Option.some.injEq, Value.string.injEq]
        constructor
        · rintro rfl
          exact ⟨rfl, by simpa using hblank⟩
        · rintro ⟨rfl, -⟩
          rfl
    · next hno =>
      simp only [reduceCtorEq, false_iff, not_and]
      exact fun h => absurd h (hno statement)
  unfold statementOf columns
  cases hplace : row.schema.indexOf? x.statementField with
  | none => simp
  | some place =>
    cases hs : row.schema.extended x.extraFields with
    | error f =>
      have hrepeat : ¬ (row.schema.names ++ x.resultFields.map (·.1)).Nodup := by
        rw [← hnames]
        intro hnodup
        rw [Schema.extended_ok_iff.mpr ⟨rfl, hnodup⟩] at hs
        cases hs
      simp [Except.map, hrepeat]
    | ok output =>
      have hnodup := (Schema.extended_ok_iff.mp hs).2
      rw [hnames] at hnodup
      simp [Except.map, htext, hnodup]

theorem fates_append (s : State r) (rows rows' : List (Option Row)) :
    x.fates r s (rows ++ rows') = ((x.fates r s rows).1 ++ (x.fates r (x.fates r s rows).2 rows').1,
      (x.fates r (x.fates r s rows).2 rows').2) := by
  induction rows generalizing s with
  | nil => rfl
  | cons row? rest ih =>
    show (_ :: (x.fates r _ (rest ++ rows')).1, (x.fates r _ (rest ++ rows')).2) = _
    rw [ih]
    rfl

theorem events_afterRow (p : CommitPolicy) (s : r.State) (statement : String) :
    (Fate.done statement (commitOf (p.afterRow r s).answer)).events =
      .execute statement :: (p.afterRow r s).events := by
  simp only [CommitPolicy.afterRow]
  split
  · unfold CommitPolicy.commit
    split <;> rfl
  · rfl

/-- The statement was executed, and no commit failed on it. -/
def Fate.Stands : Fate → Prop
  | done _ (some false) => False
  | done _ _ => True
  | _ => False

inductive Ends (row : Row) (replies : List Reply) : Fate → Ending Bool → Prop
  | rejected {fate : Fate} (message : String) (h : ¬ fate.Stands) :
      Ends row replies fate (.returned (.error (rejection row message)))
  /-- The run was stopped. -/
  | interrupted (statement : String) : Ends row replies (.failed statement) (.returned (.ok false))
  | sent {fate : Fate} (h : fate.Stands) : Ends row replies fate (.returned (.ok true))
  | broken {fate : Fate} {f : Fault} (h : fate = .idle ∨ fate.Stands)
      (hf : f.isRowFailure = false ∨ ∃ out, ⟨.putRow out, .error f⟩ ∈ replies) :
      Ends row replies fate (.returned (.error f))

theorem Ends.of_subset {row : Row} {fate : Fate} {replies more : List Reply} {e : Ending Bool}
    (h : Ends row replies fate e) (hsub : replies ⊆ more) : Ends row more fate e := by
  cases h with
  | rejected message h => exact .rejected message h
  | interrupted statement => exact .interrupted statement
  | sent h => exact .sent h
  | broken h hf => exact .broken h (hf.imp id fun ⟨out, hout⟩ => ⟨out, hsub hout⟩)

theorem course_await {reply : Resource.Reply} {v : Except Fault StatementCounts}
    {replies : List Reply} (h : (await reply).Course replies v) : Reply.Tells replies [] [] ∧
      ((∃ c, v = .ok c ∧ reply = .done c) ∨ ∃ f, v = .error f ∧ ∀ c, reply ≠ .done c) := by
  cases reply with
  | done c =>
    cases h
    exact ⟨.nil, .inl ⟨c, rfl, rfl⟩⟩
  | fault f =>
    cases h
    exact ⟨.nil, .inr ⟨f, rfl, nofun⟩⟩
  | held f =>
    obtain ⟨_, rest, hrest, rfl⟩ := Behaviour.course_request h
    cases hrest
    exact ⟨.cons trivial .nil, .inr ⟨f, rfl, nofun⟩⟩

theorem tells_tally {c : StatementCounts} {u : Unit} {replies : List Reply}
    (h : (tally c).Course replies u) : Reply.Tells replies [] [] := by
  have hasks : (tally c).Asks Request.Mute :=
    ⟨trivial, fun _ => ⟨trivial, fun _ => ⟨trivial, fun _ => ⟨trivial, fun _ => ⟨trivial, fun _ =>
      trivial⟩⟩⟩⟩⟩
  exact .mute (hasks.of_course h)

theorem isRowFailure_extend {row : Row} {schema : Schema} {values : List Value} {f : Fault}
    (h : row.extend schema values = .error f) : f.isRowFailure = false := by
  unfold Row.extend Row.ofValues at h
  split at h
  · next misfit _ =>
    cases h
    cases misfit <;> rfl
  · cases h

theorem course_forward {s s' : State r} {out : Row} {replies : List Reply} {e : Ending Bool}
    (h : (Behaviour.forward s out).Course replies (s', e)) : s' = s ∧ Reply.Tells replies [] [] ∧
      (e = .returned (.ok true) ∨
        ∃ f, e = .returned (.error f) ∧ ⟨.putRow out, .error f⟩ ∈ replies) := by
  obtain ⟨answer, rest, hrest, rfl⟩ := Behaviour.course_request h
  cases answer with
  | ok _ =>
    cases hrest
    exact ⟨rfl, .cons trivial .nil, .inl rfl⟩
  | error f =>
    cases hrest
    exact ⟨rfl, .cons trivial .nil, .inr ⟨f, rfl, List.mem_cons_self⟩⟩

theorem stands_commitOf {statement : String} {a : Except Fault Bool} :
    (Fate.done statement (commitOf a)).Stands ↔ ∃ b, a = .ok b := by
  cases a with
  | error f => exact ⟨fun h => absurd h id, nofun⟩
  | ok b => cases b <;> exact ⟨fun _ => ⟨_, rfl⟩, fun _ => trivial⟩

/-- What is left of a call once its statement was executed. -/
theorem course_settle {s s' : State r} {row : Row} {output : Schema} {c : StatementCounts}
    {a : Except Fault Bool} {replies : List Reply} {e : Ending Bool} (statement : String)
    (h : (match a with
      | .error f => Behaviour.fail s (rejection row f.message)
      | .ok _ =>
        match row.extend output (x.results c) with
        | .error f => Behaviour.fail s f
        | .ok out => Behaviour.forward s out).Course replies (s', e)) :
    s' = s ∧ Reply.Tells replies [] [] ∧ Ends row replies (.done statement (commitOf a)) e := by
  cases a with
  | error f =>
    cases h
    exact ⟨rfl, .nil, .rejected f.message id⟩
  | ok b =>
    have hstands : (Fate.done statement (commitOf (.ok b))).Stands :=
      stands_commitOf.mpr ⟨b, rfl⟩
    cases hout : row.extend output (x.results c) with
    | error f =>
      rw [hout] at h
      cases h
      exact ⟨rfl, .nil, .broken (.inr hstands) (.inl (isRowFailure_extend hout))⟩
    | ok out =>
      rw [hout] at h
      obtain ⟨rfl, hsent, rfl | ⟨f, rfl, hmem⟩⟩ := course_forward h
      · exact ⟨rfl, hsent, .sent hstands⟩
      · exact ⟨rfl, hsent, .broken (.inr hstands) (.inr ⟨out, hmem⟩)⟩

/-- What comes of the execution of a statement. -/
theorem course_execute {s s' : State r} {row : Row} {statement : String} {output : Schema}
    {replies : List Reply} {e : Ending Bool}
    (h : (x.execute r s row statement output).Course replies (s', e)) :
    s' = (executed r s statement).2 ∧
      Reply.Tells replies ((executed r s statement).1.events.map .resource) [] ∧
      Ends row replies (executed r s statement).1 e := by
  obtain ⟨_, rest, hrest, rfl⟩ := Behaviour.course_request h
  have hnote : Reply.Tells [⟨.note (.resource (.execute statement)), ()⟩]
      [.resource (.execute statement)] [] := ⟨rfl, rfl⟩
  rcases hexec : r.execute s.resource statement with ⟨resource, reply⟩
  rw [hexec] at hrest
  obtain ⟨awaiting, v, after, hawait, hafter, rfl⟩ := Behaviour.course_bind hrest
  obtain ⟨hquiet, ⟨c, rfl, rfl⟩ | ⟨f, rfl, hreply⟩⟩ := course_await hawait
  · rw [executed_of_done hexec, events_afterRow]
    obtain ⟨counting, _, sending, hcount, hsend, rfl⟩ := Behaviour.course_bind hafter
    obtain ⟨noting, _, last, hnotes, hlast, rfl⟩ := Behaviour.course_bind hsend
    have htold := hnote.append (hquiet.append ((tells_tally hcount).append
      (Reply.Tells.course_notes hnotes)))
    obtain ⟨rfl, hsettled, hends⟩ := course_settle statement hlast
    have hall := htold.append hsettled
    exact ⟨rfl, by simpa using hall, hends.of_subset fun q hq => by simp [hq]⟩
  · rw [executed_of_failed hexec hreply]
    obtain ⟨stopped, rest, hend, rfl⟩ := Behaviour.course_request hafter
    have hasked : Reply.Tells [⟨.isStopped, stopped⟩] [] [] := .cons trivial .nil
    cases stopped with
    | true =>
      cases hend
      exact ⟨rfl, hnote.append (hquiet.append hasked), .interrupted statement⟩
    | false =>
      cases hend
      exact ⟨rfl, hnote.append (hquiet.append hasked), .rejected f.message id⟩

theorem isRowFailure_columns {schema : Schema} {f : Fault} (h : x.columns schema = .error f) :
    f.isRowFailure = false := by
  unfold columns at h
  split at h
  · cases h
    rfl
  · cases hs : schema.extended x.extraFields with
    | error g =>
      rw [hs] at h
      cases h
      unfold Schema.extended Schema.ofFields at hs
      split at hs
      · cases hs
        rfl
      · cases hs
    | ok output =>
      rw [hs] at h
      cases h

/-- What comes of a call of the hook for work. -/
theorem course_process {s s' : State r} {w : Operator.Work}
    (h : (x.process r s).Course w.replies (s', w.ending)) :
    s' = (x.dealt r s w.row?).2 ∧
      Reply.Tells w.replies ((x.dealt r s w.row?).1.events.map .resource) w.row?.toList ∧
      ∀ row, w.row? = some row → Ends row w.replies (x.dealt r s w.row?).1 w.ending := by
  obtain ⟨replies, e⟩ := w
  obtain ⟨row?, rest, hrest, rfl⟩ := Behaviour.course_request h
  cases row? with
  | none =>
    cases hrest
    exact ⟨rfl, ⟨rfl, rfl⟩, nofun⟩
  | some row =>
    have htook : Operator.Work.row? ⟨⟨.getRow, some row⟩ :: rest, e⟩ = some row := rfl
    have hget : Reply.Tells [⟨.getRow, some row⟩] [] [row] := ⟨rfl, rfl⟩
    rw [htook]
    suffices hbody : s' = (x.dealt r s (some row)).2 ∧
        Reply.Tells rest ((x.dealt r s (some row)).1.events.map .resource) [] ∧
        Ends row rest (x.dealt r s (some row)).1 e by
      obtain ⟨hstate, htold, hends⟩ := hbody
      refine ⟨hstate, hget.append htold, ?_⟩
      rintro _ ⟨rfl⟩
      exact hends.of_subset (List.subset_cons_self _ _)
    cases hcolumns : x.columns row.schema with
    | error f =>
      simp only [hcolumns] at hrest
      cases hrest
      rw [dealt_of_none (statementOf_of_error hcolumns)]
      exact ⟨rfl, .nil, .broken (.inl rfl) (.inl (isRowFailure_columns hcolumns))⟩
    | ok columns =>
      obtain ⟨place, output⟩ := columns
      simp only [hcolumns] at hrest
      have hof := statementOf_of_ok hcolumns
      cases hstatement : statement? row place with
      | none =>
        rw [hstatement] at hrest hof
        cases hrest
        rw [dealt_of_none hof]
        exact ⟨rfl, .nil, .rejected "empty statement" id⟩
      | some statement =>
        rw [hstatement] at hrest hof
        rw [dealt_of_some hof]
        exact course_execute hrest

section Life

variable (x r) in
def begun : State r := { policy := x.policy, resource := r.start }

variable (x r) in
/-- The fates of the rows that were taken, and what the executor came to with them. -/
def story (works : List Operator.Work) : List Fate × State r :=
  x.fates r (x.begun r) (works.map (·.row?))

variable (x r) in
def decided (works : List Operator.Work) (clean : Bool) :
    CommitPolicy.After r CommitPolicy.Finish :=
  (x.story r works).2.policy.finish r (x.story r works).2.resource clean

/-- The whole of the life of an executor before the end. -/
structure Lived (x : Executor) (r : Resource) (replies : List Reply) (works : List Operator.Work)
    (s : State r) : Prop where
  state : s = (x.story r works).2
  tells : Reply.Tells (replies ++ works.flatMap (·.replies))
    (((x.story r works).1.flatMap Fate.events).map .resource) (works.filterMap (·.row?))
  ends : ∀ (n : Nat) (w : Operator.Work) (row : Row), works[n]? = some w → w.row? = some row →
    ∃ fate, (x.story r works).1[n]? = some fate ∧ Ends row w.replies fate w.ending

theorem length_fates (s : State r) (rows : List (Option Row)) :
    (x.fates r s rows).1.length = rows.length := by
  induction rows generalizing s with
  | nil => rfl
  | cons row? rest ih => exact congrArg (· + 1) (ih _)

theorem Lived.of_life {replies : List Reply} {works : List Operator.Work}
    {s : (x.operator r).State} (h : (x.operator r).Life replies works s) :
    Lived x r replies works s := by
  induction h with
  | begun h =>
    cases h
    exact ⟨rfl, .nil, nofun⟩
  | @worked works w m m' h hc ih =>
    obtain ⟨hstate, htells, hends⟩ := ih
    obtain ⟨hstate', htells', hends'⟩ := course_process hc
    -- One more row leaves the fates of those before it as they are.
    have hfates : x.story r (works ++ [w]) =
        ((x.story r works).1 ++ [(x.dealt r m w.row?).1], (x.dealt r m w.row?).2) := by
      rw [hstate, story, List.map_append, fates_append]
      rfl
    have hlength : (x.story r works).1.length = works.length := by
      rw [story, length_fates, List.length_map]
    refine ⟨?_, ?_, ?_⟩
    · rw [hfates]
      exact hstate'
    · rw [hfates, List.flatMap_append, List.flatMap_append, List.map_append, List.filterMap_append,
        List.flatMap_singleton, List.flatMap_singleton, ← List.append_assoc]
      have hrow : [w].filterMap (·.row?) = w.row?.toList := by
        cases hw : w.row? <;> simp [hw]
      rw [hrow]
      exact htells.append htells'
    · intro n w' row hw' hrow
      rw [hfates]
      rcases Nat.lt_or_ge n works.length with hlt | hge
      · rw [List.getElem?_append_left hlt] at hw'
        obtain ⟨fate, hfate, hend⟩ := hends n w' row hw' hrow
        refine ⟨fate, ?_, hend⟩
        rw [List.getElem?_append_left (by rw [hlength]; exact hlt)]
        exact hfate
      · rw [List.getElem?_append_right hge] at hw'
        obtain ⟨hzero, rfl⟩ : n - works.length = 0 ∧ w = w' := by
          cases hn : n - works.length with
          | zero => simpa [hn] using hw'
          | succ k => simp [hn] at hw'
        refine ⟨_, ?_, hends' row hrow⟩
        rw [List.getElem?_append_right (by rw [hlength]; exact hge), hlength, hzero]
        rfl

end Life

section Leaving

variable {s s' : State r} {k k' : Local} {es : List Doing} {e : Ending Unit}

theorem runs_notes {α : Type} {ns : List Note} {b : Unit → Behaviour α} {v : α}
    (h : ((Behaviour.notes ns).bind b).program.Runs k es v k') :
    ∃ k₁ fs, (b ()).program.Runs k₁ fs v k' ∧ Doing.notes es = ns ++ Doing.notes fs ∧
      Doing.rows es = Doing.rows fs ∧ k₁.outcome = k.outcome ∧ k₁.counts = k.counts := by
  induction ns generalizing k es with
  | nil => exact ⟨k, es, h, rfl, rfl, rfl, rfl⟩
  | cons n rest ih =>
    cases h with
    | act hnote hr =>
      cases hnote
      obtain ⟨k₁, fs, hfs, hnotes, hrows, houtcome, hcounts⟩ := ih hr
      refine ⟨k₁, fs, hfs, ?_, ?_, houtcome, hcounts⟩
      · simp [Doing.note?, hnotes]
      · simp [hrows]

/-- What an executor does at its end is settled by the outcome and the errors of the copy. -/
theorem runs_dispose (h : (dispose r s).program.Runs k es (s', e) k') :
    ∃ after : CommitPolicy.After r CommitPolicy.Finish,
      after = s.policy.finish r s.resource
        (k.outcome == some .finished && k.counts.errors == 0) ∧
      s' = { policy := after.policy, resource := after.state } ∧
      Doing.notes es = after.events.map .resource ∧ Doing.rows es = [] ∧
      k'.outcome = k.outcome ∧ k'.counts = k.counts ∧
      ((∃ a, after.answer = .ok a) → e = .returned (.ok ())) := by
  obtain ⟨b, fs, hfs, rfl⟩ := Program.Runs.own h
  obtain ⟨k₁, gs, hgs, hnotes, hrows, houtcome, hcounts⟩ := runs_notes hfs
  refine ⟨_, rfl, ?_⟩
  generalize hafter : s.policy.finish r s.resource
    (k.outcome == some .finished && k.counts.errors == 0) = after
  have hclean : s.policy.finish r s.resource ((k.withCancelled b).view.outcome == some .finished &&
      (k.withCancelled b).view.counts.errors == 0) = after := hafter
  rw [hclean] at hgs hnotes
  cases hanswer : after.answer with
  | error f =>
    rw [hanswer] at hgs
    cases hgs
    exact ⟨rfl, by simpa using hnotes, by simpa using hrows, houtcome, hcounts, by simp⟩
  | ok a =>
    rw [hanswer] at hgs
    cases hgs
    exact ⟨rfl, by simpa using hnotes, by simpa using hrows, houtcome, hcounts, fun _ => rfl⟩

end Leaving

/-- What an executor has made of its rows when it has come to its end. -/
structure Departed (x : Executor) (r : Resource) (ds : List Doing) (l : Local)
    (works : List Operator.Work) (clean : Bool) (s : State r) : Prop where
  life : ∃ replies s, (x.operator r).Life replies works s
  ends : ∀ (n : Nat) (w : Operator.Work) (row : Row), works[n]? = some w → w.row? = some row →
    ∃ fate, (x.story r works).1[n]? = some fate ∧ Ends row w.replies fate w.ending
  sent : ∀ w ∈ works, ∀ row f, ⟨.putRow row, .error f⟩ ∈ w.replies → f.isRowFailure = false
  rows : Doing.rows ds = works.filterMap (·.row?)
  notes : Doing.notes ds =
    ((x.story r works).1.flatMap Fate.events ++ (x.decided r works clean).events).map .resource
  state : s =
    { policy := (x.decided r works clean).policy, resource := (x.decided r works clean).state }
  failed : (∃ w ∈ works, w.Failed) → clean = false
  clean : (∃ a, (x.decided r works clean).answer = .ok a) →
    clean = (l.outcome == some .finished && l.counts.errors == 0)

theorem Departed.of_departs {ds : List Doing} {l : Local} {s' : (x.operator r).State}
    (h : (x.operator r).Departs ds l s') : ∃ works clean, Departed x r ds l works clean s' := by
  cases h with
  | @mk replies works s _ _ fs es e k k' _ hlife hheard herrors hruns hagree houtcome hcounts =>
  obtain ⟨hstate, htells, hends⟩ := Lived.of_life hlife
  obtain ⟨after, hafter, hstate', hnotes, hrows, houtcome', hcounts', hok⟩ := runs_dispose hruns
  rw [hstate] at hafter
  refine ⟨works, k.outcome == some .finished && k.counts.errors == 0, ⟨replies, s, hlife⟩, hends,
    ?_, ?_, ?_, ?_, ?_, ?_⟩
  · intro w hw row f hmem
    exact hheard.sent row f (List.mem_append_right _ (List.mem_flatMap.mpr ⟨w, hw, hmem⟩))
  · rw [hagree.rows, Doing.rows_append, hheard.rows, htells.rows, hrows, List.append_nil]
  · rw [hagree.notes, Doing.notes_append, hheard.notes, htells.notes, hnotes, List.map_append,
      hafter]
    rfl
  · rw [hstate', hafter]
    rfl
  · intro hfailed
    have hsome := herrors hfailed
    simp [hsome]
  · rintro ⟨a, ha⟩
    have hsame := hcounts (hok ⟨a, by rw [hafter]; exact ha⟩)
    rw [houtcome, houtcome', hsame, hcounts']

def statementRow (statement? : Option String) : Row where
  schema := ⟨[{ name := "sql", type := .string }]⟩
  values := [statement?.elim .null .string]
  fits := by cases statement? <;> rfl

end Executor
end RowFlow
