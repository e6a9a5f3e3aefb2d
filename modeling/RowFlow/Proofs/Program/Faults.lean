import RowFlow.Copy.Basic
import RowFlow.Proofs.Program.Runs

/-
What comes of a failure of the work of a copy.  Every failure counts as an error.  A row
failure is survived where there is an error output, if the row can be told with its
diagnostic there: its layout has to take the four fields of the diagnostic, and the row
set has to take the longer row.  A row that an error output has told already has those
fields, so it cannot be rejected again.
-/
namespace RowFlow

/-- The diagnostic goes with a row if no name is there twice then. -/
theorem Schema.extended_ok_iff {s t : Schema} {extra : List Field} :
    s.extended extra = .ok t ↔
      t = ⟨s.fields ++ extra⟩ ∧ (s.names ++ extra.map (·.name)).Nodup := by
  rw [extended, ofFields_eq_ok_iff, List.map_append]
  rfl

namespace Schema

theorem typeMisfit?_append {fs gs : List Field} {vs ws : List Value} (h : fs.length = vs.length) :
    typeMisfit? (fs ++ gs) (vs ++ ws) = (typeMisfit? fs vs).or (typeMisfit? gs ws) := by
  induction fs generalizing vs with
  | nil =>
    rw [List.length_nil] at h
    rw [List.length_eq_zero_iff.mp h.symm]
    rfl
  | cons f fs ih =>
    cases vs with
    | nil => simp at h
    | cons v vs =>
      simp only [List.cons_append, typeMisfit?]
      split
      · exact ih (Nat.succ.inj h)
      · rfl

end Schema

namespace Row

/-- Values that fit to further fields can be put after those of a row. -/
theorem misfit?_append (r : Row) {fields : List Field} {values : List Value}
    (hlength : fields.length = values.length) (h : Schema.typeMisfit? fields values = none) :
    Schema.misfit? ⟨r.schema.fields ++ fields⟩ (r.values ++ values) = none := by
  have hsize := r.size_eq
  have hfits := r.fits
  unfold Schema.size at hsize
  unfold Schema.misfit? Schema.size at hfits
  rw [if_pos hsize] at hfits
  unfold Schema.misfit? Schema.size
  rw [if_pos (by simp [hsize, hlength])]
  show Schema.typeMisfit? (r.schema.fields ++ fields) _ = none
  rw [Schema.typeMisfit?_append hsize, hfits, h]
  rfl

end Row

namespace Program

/-- A row can be told with its diagnostic if no field of it is named as one of those. -/
theorem errorRow_ok_iff {row : Row} {d : Diagnostic} : (∃ out, errorRow row d = .ok out) ↔
    (row.schema.names ++ errorFields.map (·.name)).Nodup := by
  have hfits : Schema.typeMisfit? errorFields (errorValues d) = none := by
    unfold errorValues
    cases d.field <;> rfl
  constructor
  · rintro ⟨out, hout⟩
    unfold errorRow at hout
    cases hs : row.schema.extended errorFields with
    | error f =>
      rw [hs] at hout
      cases hout
    | ok s => exact (Schema.extended_ok_iff.mp hs).2
  · intro hnodup
    have hs := Schema.extended_ok_iff.mpr ⟨rfl, hnodup⟩
    refine ⟨⟨⟨row.schema.fields ++ errorFields⟩, row.values ++ errorValues d,
      row.misfit?_append rfl hfits⟩, ?_⟩
    unfold errorRow
    rw [hs]
    exact Row.ofValues_eq_ok_iff.mpr ⟨rfl, rfl⟩

end Program

namespace Doing

/-- The run is stopped, or the reason is given for that. -/
def Stops : Doing → Prop
  | act (.giveReason _) _ => True
  | act .raiseFlag _ => True
  | _ => False

/-- The run is stopped only if its errors have come to their limit, and for that reason. -/
structure StopAtLimit (ds : List Doing) : Prop where
  reason : ∀ r x, act (.giveReason r) x ∈ ds → r = .errorLimit
  limit : ∀ e ∈ ds, e.Stops → ∃ tally : Tally,
    act (.countErrors 1) tally ∈ ds ∧ tally.reached = true

theorem StopAtLimit.of_never {ds : List Doing} (h : ∀ e ∈ ds, ¬ e.Stops) : StopAtLimit ds where
  reason _ _ hmem := absurd trivial (h _ hmem)
  limit e he hs := absurd hs (h e he)

theorem StopAtLimit.append {ds es : List Doing} (h : StopAtLimit ds) (h' : StopAtLimit es) :
    StopAtLimit (ds ++ es) where
  reason r x hmem := (List.mem_append.mp hmem).elim (h.reason r x) (h'.reason r x)
  limit e he hs := by
    rcases List.mem_append.mp he with he | he
    · obtain ⟨tally, hmem, hreached⟩ := h.limit e he hs
      exact ⟨tally, List.mem_append_left _ hmem, hreached⟩
    · obtain ⟨tally, hmem, hreached⟩ := h'.limit e he hs
      exact ⟨tally, List.mem_append_right _ hmem, hreached⟩

end Doing

namespace Program

section Errors

variable {α : Type} {p : Program α} {l m : Local} {ds : List Doing} {v : α}

/-- Of these actions none stops the run. -/
theorem Runs.never_stops (h : p.Runs l ds v m) (hp : p.Within Node.Basic) :
    ∀ e ∈ ds, ¬ e.Stops := by
  intro e he hs
  have hnode := h.nodes hp e he
  cases e with
  | act a x => cases a <;> first | exact hs | exact hnode
  | _ => exact hs

theorem runs_stop {r : StopReason} {x : Bool} (h : (stop r).Runs l ds x m) :
    m.counts = l.counts ∧ .act (.giveReason r) () ∈ ds ∧
      ∀ r' y, .act (.giveReason r') y ∈ ds → r' = r := by
  obtain ⟨_, _, _, l₁, _, es₁, hgive, hrest, rfl⟩ := h.perform
  obtain ⟨_, _, y, l₂, _, es₂, hraise, hlast, rfl⟩ :=
    Runs.perform (a := .raiseFlag) (f := fun x => done x) hrest
  cases hgive
  cases hraise
  cases hlast
  refine ⟨rfl, List.mem_cons_self, fun r' z hmem => ?_⟩
  simpa using hmem

/-- An error counts, and the run is stopped if the errors have come to their limit. -/
theorem runs_addError {u : Unit} (h : addError.Runs l ds u m) :
    m.counts = l.counts.add 1 .errors ∧ Doing.StopAtLimit ds := by
  obtain ⟨_, _, _, l₁, _, es₁, hadd, hrest₁, rfl⟩ := h.perform
  obtain ⟨es₂, _, l₂, es₃, hrun, hlast, rfl⟩ := Runs.bind (p := addRunErrors 1) hrest₁
  obtain ⟨_, _, tally, l₃, _, es₄, hcount, hrest₂, rfl⟩ := hrun.perform
  have hcounts : l₃.counts = l.counts.add 1 .errors := by
    cases hadd
    cases hcount
    rfl
  cases hlast
  split at hrest₂
  · next hreached =>
    obtain ⟨es₅, _, l₅, es₆, hstop, hpure, rfl⟩ := hrest₂.bind
    cases hpure
    obtain ⟨hsame, -, hreason⟩ := runs_stop hstop
    refine ⟨hsame.trans hcounts, ⟨fun r x hmem => hreason r x ?_,
      fun e _ _ => ⟨tally, ?_, hreached⟩⟩⟩
    · simpa using hmem
    · simp
  · cases hrest₂
    refine ⟨hcounts, .of_never fun e he => ?_⟩
    simp only [List.append_nil, List.mem_cons, List.not_mem_nil, or_false] at he
    rcases he with rfl | rfl <;> exact id

/-- Why a row was not told on the error output: some row set does not take it. -/
def Refused (out : Row) (f : Fault) (ds : List Doing) : Prop :=
  (∃ i, .delivered i out (.error f) ∈ ds) ∧ ∃ s : RowSet, (s.offer out).2 = .error f

/-- Wherever there is a row set for it, a row was told there, unless the run is stopped. -/
structure Told (out : Row) (l : Local) (ds : List Doing) : Prop where
  taken : ∀ i row r, .delivered i row r ∈ ds → row = out ∧ ∃ x, r = .ok x
  delivered : ∀ i, l.errorOutput.bind Branch.current? = some i →
    .act .isStopped true ∈ ds ∨ ∃ x, .delivered i out (.ok x) ∈ ds

/-- What else is done makes no difference as long as no row is delivered. -/
theorem Told.of_subset {out : Row} {es : List Doing} (h : Told out l es) (hsub : es ⊆ ds)
    (hback : ∀ i row r, .delivered i row r ∈ ds → .delivered i row r ∈ es) : Told out l ds where
  taken i row r hmem := h.taken i row r (hback i row r hmem)
  delivered i hi := (h.delivered i hi).imp (hsub ·) fun ⟨x, hx⟩ => ⟨x, hsub hx⟩

theorem runs_sendError {out : Row} {r : Except Fault Unit} (h : (sendError out).Runs l ds r m) :
    m.counts = l.counts ∧ (r = .ok () ∧ Told out l ds ∨ ∃ f, r = .error f ∧ Refused out f ds) := by
  obtain ⟨_, _, i?, l₁, _, es₁, hchoose, hrest₁, rfl⟩ := h.perform
  have hcounts : l₁.counts = l.counts := by
    cases hchoose
    rfl
  have hplace : i? = l.errorOutput.bind Branch.current? := by
    cases hchoose
    rfl
  cases i? with
  | none =>
    cases hrest₁
    refine ⟨hcounts, .inl ⟨rfl, ⟨fun i row r hmem => ?_, fun i hi => ?_⟩⟩⟩
    · simp at hmem
    · rw [← hplace] at hi
      cases hi
  | some i =>
    obtain ⟨_, _, stopped, l₂, _, es₂, hask, hrest₂, rfl⟩ := hrest₁.perform
    have hsame : l₂.counts = l₁.counts := by
      cases hask
      rfl
    cases stopped with
    | true =>
      cases hrest₂
      refine ⟨hsame.trans hcounts, .inl ⟨rfl, ⟨fun i row r hmem => ?_, fun i hi => .inl ?_⟩⟩⟩
      · simp at hmem
      · simp
    | false =>
      cases hrest₂ with
      | delivered x hf hlast =>
      cases hlast
      refine ⟨hsame.trans hcounts, ?_⟩
      cases x with
      | error f =>
        exact .inr ⟨f, rfl, ⟨i, by simp⟩, hf f rfl⟩
      | ok x =>
        refine .inl ⟨rfl, ⟨fun j row r hmem => ?_, fun j hj => .inr ⟨x, ?_⟩⟩⟩
        · simp only [List.mem_cons, Doing.delivered.injEq, reduceCtorEq, List.not_mem_nil, or_false,
            false_or] at hmem
          exact ⟨hmem.2.1, x, hmem.2.2⟩
        · rw [← hplace, Option.some.injEq] at hj
          simp [hj]

/-- A row was rejected: it was told with its diagnostic, and counted. -/
structure Rejected (row : Row) (d : Diagnostic) (l : Local) (ds : List Doing) (m : Local) :
    Prop where
  told : ∃ out, errorRow row d = .ok out ∧ Told out l ds
  counts : m.counts = (l.counts.add 1 .rejected).add 1 .errors
  outcome : m.outcome = l.outcome
  stops : Doing.StopAtLimit ds

/-- Why a row cannot be rejected. -/
inductive Unrejected (row : Row) (d : Diagnostic) (ds : List Doing) : Prop
  | repeated (h : ¬ (row.schema.names ++ errorFields.map (·.name)).Nodup)
  | refused {out : Row} {f : Fault} (hout : errorRow row d = .ok out) (h : Refused out f ds)

theorem Unrejected.of_subset {row : Row} {d : Diagnostic} {es : List Doing}
    (h : Unrejected row d es) (hsub : es ⊆ ds) : Unrejected row d ds := by
  cases h with
  | repeated h => exact .repeated h
  | refused hout hrefused =>
    obtain ⟨⟨i, hmem⟩, hfull⟩ := hrefused
    exact .refused hout ⟨⟨i, hsub hmem⟩, hfull⟩

theorem runs_rejectRow {row : Row} {d : Diagnostic} {r : Except Fault Unit}
    (h : (rejectRow row d).Runs l ds r m) (he : l.errorHandling = true) :
    r = .ok () ∧ Rejected row d l ds m ∨ ∃ f, r = .error f ∧ Unrejected row d ds := by
  obtain ⟨es, hes, rfl⟩ := h.marked
  obtain ⟨b, fs, hfs, rfl⟩ := hes.own
  rw [done_bind, Local.errorHandling_withCancelled, he, if_neg (by decide)] at hfs
  cases hout : errorRow row d with
  | error f =>
    rw [hout] at hfs
    cases hfs
    refine .inr ⟨f, rfl, .repeated fun hnodup => ?_⟩
    obtain ⟨out, hout'⟩ := errorRow_ok_iff.mpr hnodup
    rw [hout] at hout'
    cases hout'
  | ok out =>
    rw [hout] at hfs
    obtain ⟨fs₁, sent, l₁, fs₂, hsend, hrest₁, rfl⟩ := hfs.bind
    obtain ⟨hcounts, ⟨rfl, htold⟩ | ⟨f, rfl, ⟨i, hmem⟩, hrefused⟩⟩ := runs_sendError hsend
    · obtain ⟨_, _, total, l₂, _, fs₃, hadd, hrest₂, rfl⟩ := hrest₁.perform
      obtain ⟨fs₄, _, l₃, fs₅, herror, hlast, rfl⟩ := Runs.bind (p := addError) hrest₂
      cases hlast
      obtain ⟨hcounted, hstops⟩ := runs_addError herror
      have hadded : l₂.counts = l₁.counts.add 1 .rejected := by
        cases hadd
        rfl
      have hkept : l₂.outcome = l₁.outcome := by
        cases hadd
        rfl
      refine .inl ⟨rfl, ⟨out, hout, htold.of_subset ?_ ?_⟩, ?_, ?_, ?_⟩
      · intro e he
        simp [he]
      · intro i row' r' hmem
        -- Rows are delivered by `sendError` only, not while the error is counted.
        have hnone : Doing.delivered i row' r' ∉ fs₄ := fun he =>
          absurd (herror.nodes within_addError _ he) id
        simpa [hnone] using hmem
      · rw [Local.counts_withCancelled, hcounted, hadded, hcounts]
      · have herrors := herror.core (within_addError.mono fun _ h => h.plain.inner)
        have hsent := hsend.core ((within_sendError out).mono fun _ h => h.plain.inner)
        exact (Local.outcome_of_core herrors).trans (hkept.trans (Local.outcome_of_core hsent))
      · have hsent := hsend.never_stops (within_sendError out)
        have hbefore : ∀ e ∈ .act (.mark (.reject row d)) () :: .act .own (l.withCancelled b) ::
            (fs₁ ++ [.act (.add .rejected 1) total]), ¬ e.Stops := by
          simp only [List.forall_mem_cons, List.forall_mem_append]
          exact ⟨id, id, hsent, id, List.forall_mem_nil _⟩
        have hafter : Doing.StopAtLimit [.act (.mark (.rejectDone (.ok ()))) ()] :=
          .of_never (List.forall_mem_singleton.mpr id)
        simpa using (Doing.StopAtLimit.of_never hbefore).append (hstops.append hafter)
    · cases hrest₁
      exact .inr ⟨f, rfl, .refused hout ⟨⟨i, by simp [hmem]⟩, hrefused⟩⟩

theorem runs_failStep {t : Turn} (h : failStep.Runs l ds t m) :
    t = .leave .failed ∧ l.counts.errors < m.counts.errors ∧
      .act (.giveReason (.stepFailed l.info.name)) () ∈ ds := by
  obtain ⟨es₁, _, l₁, es₂, hadd, hrest₁, rfl⟩ := Runs.bind (p := addError) h
  obtain ⟨b, es₃, hrest₂, rfl⟩ := hrest₁.own
  obtain ⟨es₄, _, l₂, es₅, hstop, hlast, rfl⟩ := Runs.bind (p := stop _) hrest₂
  obtain ⟨hcounts, -⟩ := runs_addError hadd
  obtain ⟨hsame, hgiven, -⟩ := runs_stop hstop
  cases hlast
  refine ⟨rfl, ?_, ?_⟩
  · rw [Local.counts_withCancelled, hsame, hcounts]
    exact Nat.lt_succ_self _
  · rw [Local.info_withCancelled, hadd.info] at hgiven
    simp [hgiven]

/-- Why a copy fails on a fault: a row failure would have been survived. -/
structure Fatal (f : Fault) (l : Local) (ds : List Doing) (m : Local) : Prop where
  errors : l.counts.errors < m.counts.errors
  reason : .act (.giveReason (.stepFailed l.info.name)) () ∈ ds
  unrejected : ∀ row d, f = .rowFailed row d → l.errorHandling = true → Unrejected row d ds

/-- A fault is survived if it is a row failure and the row can be rejected. -/
theorem runs_afterFault {f : Fault} {t : Turn} (h : (afterFault f).Runs l ds t m) :
    (t = .again ∧ l.errorHandling = true ∧ ∃ row d, f = .rowFailed row d ∧ Rejected row d l ds m) ∨
      t = .leave .failed ∧ Fatal f l ds m := by
  obtain ⟨b, es, hes, rfl⟩ := h.own
  rw [done_bind, Local.errorHandling_withCancelled] at hes
  split at hes
  · next row d he =>
    obtain ⟨es₁, r, l₁, es₂, hreject, hrest, rfl⟩ := Runs.bind (p := rejectRow row d) hes
    obtain ⟨rfl, ⟨out, hout, htold⟩, hcounts, houtcome, hstops⟩ | ⟨g, rfl, hunrejected⟩ :=
      runs_rejectRow hreject he
    · cases hrest
      refine .inl ⟨rfl, he, row, d, rfl, ⟨out, hout, htold.of_subset ?_ ?_⟩, hcounts, houtcome, ?_⟩
      · intro e hmem
        simp [hmem]
      · intro i row' r' hmem
        simpa using hmem
      · rw [List.append_nil]
        exact (Doing.StopAtLimit.of_never (List.forall_mem_singleton.mpr id)).append hstops
    · obtain ⟨rfl, herrors, hreason⟩ := runs_failStep hrest
      rw [hreject.info] at hreason
      refine .inr ⟨rfl, Nat.lt_of_le_of_lt hreject.errors_le herrors, by simp [hreason], ?_⟩
      rintro _ _ ⟨rfl⟩ -
      exact hunrejected.of_subset fun e he => by simp [he]
  · next hnot =>
    obtain ⟨rfl, herrors, hreason⟩ := runs_failStep hes
    refine .inr ⟨rfl, herrors, List.mem_cons_of_mem _ hreason, fun row d hf he => ?_⟩
    exact absurd he (hnot row d hf)

/-- After every failure there is an error more. -/
theorem errors_lt_afterFault {f : Fault} {t : Turn} (h : (afterFault f).Runs l ds t m) :
    l.counts.errors < m.counts.errors := by
  obtain ⟨-, -, row, d, -, hrejected⟩ | ⟨-, hfatal⟩ := runs_afterFault h
  · rw [hrejected.counts]
    exact Nat.lt_succ_self _
  · exact hfatal.errors

end Errors
end Program
end RowFlow
