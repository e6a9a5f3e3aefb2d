import RowFlow.Copy.ErrorLayout
import RowFlow.Operator.KeptColumns
import RowFlow.Proofs.Executor.Fates
import RowFlow.Proofs.Program.Asked

/-
The columns that an executor keeps make no difference.  In whatever way it has come to keep them,
over rows of the same schema and of other ones, they are those of the schema at the address that
is kept (`KeptColumns.Kept.sound`); and so a unit of work goes as it would without them
(`runs_process`).
-/
namespace RowFlow
namespace Executor

variable {x : Executor} {r : Resource} {heap : Heap} {kept : KeptColumns} {address : Nat}
  {s : State r} {row : Row}

/-- What is kept was found in the schema at the address. -/
def KeptColumns.Sound (x : Executor) (heap : Heap) (kept : KeptColumns) : Prop :=
  ∀ address output, kept.schemas = some (address, output) → ∃ source place,
    heap address = some source ∧ x.columns source = .ok (place, output) ∧ kept.place = some place

section Looking

variable {input output : Schema} {place : Nat}

/-- A schema at the address that is kept is the one that was looked at. -/
theorem columns_of_kept {held : Nat} (hkept : kept.Sound x heap)
    (hinput : heap address = some input)
    (h : kept.schemas.filter (·.1 = address) = some (held, output)) :
    ∃ p, x.columns input = .ok (p, output) ∧ kept.place = some p := by
  obtain ⟨hschemas, haddress⟩ := Option.filter_eq_some_iff.mp h
  obtain rfl : held = address := of_decide_eq_true haddress
  obtain ⟨source, p, hsource, hcolumns, hplace⟩ := hkept _ _ hschemas
  rw [hinput, Option.some.injEq] at hsource
  subst hsource
  exact ⟨p, hcolumns, hplace⟩

theorem outputFor_of_error {f : Fault} (hkept : kept.Sound x heap)
    (hinput : heap address = some input) (h : x.columns input = .error f) :
    x.outputFor kept address input = (.error f, kept) := by
  unfold outputFor
  split
  · next hit =>
    obtain ⟨p, hcolumns, -⟩ := columns_of_kept hkept hinput hit
    rw [h] at hcolumns
    cases hcolumns
  · unfold columns at h
    cases hplace : input.indexOf? x.statementField with
    | none =>
      rw [hplace] at h
      cases h
      rfl
    | some p =>
      rw [hplace] at h
      cases hs : input.extended x.extraFields with
      | error g =>
        rw [hs] at h
        cases h
        rfl
      | ok output =>
        rw [hs] at h
        cases h

theorem outputFor_of_ok (hkept : kept.Sound x heap) (hinput : heap address = some input)
    (h : x.columns input = .ok (place, output)) :
    ∃ kept', x.outputFor kept address input = (.ok output, kept') ∧ kept'.place = some place ∧
      kept'.Sound x heap := by
  unfold outputFor
  split
  · next hit =>
    obtain ⟨p, hcolumns, hplace⟩ := columns_of_kept hkept hinput hit
    rw [h] at hcolumns
    cases hcolumns
    exact ⟨kept, rfl, hplace, hkept⟩
  · have hcolumns := h
    unfold columns at h
    cases hplace : input.indexOf? x.statementField with
    | none =>
      rw [hplace] at h
      cases h
    | some p =>
      rw [hplace] at h
      cases hs : input.extended x.extraFields with
      | error g =>
        rw [hs] at h
        cases h
      | ok output =>
        rw [hs] at h
        cases h
        refine ⟨_, rfl, rfl, fun a o hmade => ?_⟩
        cases hmade
        exact ⟨input, _, hinput, hcolumns, rfl⟩

end Looking

section Work

variable (x r s row) in
def work : Behaviour (State r × Ending Bool) :=
  match x.columns row.schema with
  | .error f => Behaviour.fail s f
  | .ok (place, output) =>
    match statement? row place with
    | none => Behaviour.fail s (rejection row "empty statement")
    | some statement => x.execute r s row statement output

theorem workFrom_eq (hkept : kept.Sound x heap) (hsource : heap address = some row.schema) :
    ∃ kept', x.workFrom r kept address s row = (x.work r s row, kept') ∧ kept'.Sound x heap := by
  unfold workFrom work
  cases hcolumns : x.columns row.schema with
  | error f =>
    rw [outputFor_of_error hkept hsource hcolumns]
    exact ⟨kept, rfl, hkept⟩
  | ok columns =>
    obtain ⟨place, output⟩ := columns
    obtain ⟨kept', houtput, hplace, hsound⟩ := outputFor_of_ok hkept hsource hcolumns
    rw [houtput]
    simp only [hplace]
    refine ⟨kept', ?_, hsound⟩
    cases statement? row place <;> rfl

variable {l m : Local} {ds : List Doing} {y : State r × Ending Bool} {kept' : KeptColumns}

/-- A unit of work goes as it does without the columns that were kept, and keeps what is right. -/
theorem runs_process (hkept : kept.Sound x heap)
    (hruns : (x.processFrom r kept address s).program.Runs l ds (y, kept') m)
    (hsource : ∀ row ∈ Doing.rows ds, heap address = some row.schema) :
    (x.process r s).program.Runs l ds y m ∧ kept'.Sound x heap := by
  obtain ⟨es, row?, l', fs, hget, hrest, rfl⟩ := hruns.bind
  cases row? with
  | none =>
    cases hrest
    exact ⟨hget.followed (.done _ _ _), hkept⟩
  | some row =>
    have hrow : row ∈ Doing.rows (es ++ fs) := by
      rw [Doing.rows_append, (Program.heard_request hget).rows]
      exact List.mem_cons_self
    obtain ⟨kept'', hwork, hsound⟩ := workFrom_eq (r := r) (s := s) hkept (hsource row hrow)
    obtain ⟨y', hy, hdone⟩ := Program.runs_of_mapped hrest
    rw [hwork] at hy hdone
    cases hy
    exact ⟨hget.followed hdone, hsound⟩

end Work

/-- What an executor may keep that has done work before, on whatever rows.  In between the memory
may be used for other schemas, but for that whose address is kept. -/
inductive KeptColumns.Kept (x : Executor) (r : Resource) : Heap → KeptColumns → Prop
  | nothing (heap : Heap) : Kept x r heap {}
  | work {heap : Heap} {kept kept' : KeptColumns} {address : Nat} {s : State r} {l m : Local}
      {ds : List Doing} {y : State r × Ending Bool} (h : Kept x r heap kept)
      (hruns : (x.processFrom r kept address s).program.Runs l ds (y, kept') m)
      (hsource : ∀ row ∈ Doing.rows ds, heap address = some row.schema) : Kept x r heap kept'
  | memory {heap heap' : Heap} {kept : KeptColumns} (h : Kept x r heap kept)
      (hheld : ∀ made, kept.schemas = some made → heap' made.1 = heap made.1) : Kept x r heap' kept

theorem KeptColumns.Kept.sound (h : Kept x r heap kept) : kept.Sound x heap := by
  induction h with
  | nothing heap => exact fun address output hmade => by cases hmade
  | work _ hruns hsource ih => exact (runs_process ih hruns hsource).2
  | memory _ hheld ih =>
    intro address output hmade
    obtain ⟨source, place, hsource, hrest⟩ := ih address output hmade
    exact ⟨source, place, (hheld _ hmade).trans hsource, hrest⟩

end Executor
end RowFlow
