import RowFlow.Proofs.Copy.Lives

/-
Why copies fail.  A copy fails for one of two reasons: the hook for the start failed, or a
call of the hook for work did, with a fault that is not survived.  Nothing that hooks ask for
settles the outcome, and of the programs of a copy only one settles whether rows may be
rejected; so what the outcome is at the end is what the last round left it at
(`Operator.Lives.explained`).
-/
namespace RowFlow

namespace Doing

def Faulted (hook : Hook) (f : Fault) (ds : List Doing) : Prop :=
  act (.mark (.exit hook (.error f))) () ∈ ds

theorem Faulted.of_subset {hook : Hook} {f : Fault} {ds es : List Doing} (h : Faulted hook f es)
    (hsub : es ⊆ ds) : Faulted hook f ds := hsub h

/-- The work of a copy failed, and not by a failure of a row that could be rejected. -/
def Fell (ds : List Doing) (l : Local) : Prop :=
  ∃ f, Faulted .process f ds ∧
    ∀ row d, f = .rowFailed row d → l.errorHandling = true → Program.Unrejected row d ds

theorem Fell.of_subset {ds es : List Doing} {l m : Local} (h : Fell es l) (hsub : es ⊆ ds)
    (hm : m.errorHandling = l.errorHandling) : Fell ds m := by
  obtain ⟨f, hf, hunrejected⟩ := h
  refine ⟨f, hf.of_subset hsub, fun row d hrow he => ?_⟩
  exact (hunrejected row d hrow (hm ▸ he)).of_subset hsub

end Doing

namespace Program

variable {op : Operator} {l l' : Local} {ds : List Doing} {m : op.State}

theorem runs_call_core {σ α : Type} {hook : Hook} {more : α → Bool}
    {b : Behaviour (σ × Ending α)} {x : σ × Except Fault α}
    (h : (call hook more b).Runs l ds x l') :
    l'.core = l.core ∧ .act (.mark (.exit hook (x.2.map more))) () ∈ ds := by
  obtain ⟨es, hes, rfl⟩ := h.marked
  obtain ⟨fs, ⟨s, e⟩, k, gs, hbody, hown, rfl⟩ := hes.bind
  obtain ⟨_, _, hdone, rfl⟩ := hown.own
  cases hdone
  exact ⟨hbody.core (within_behaviour _), by simp⟩

/-- A copy that was begun has no outcome, unless the hook for the start failed. -/
theorem outcome_begin {x : op.State × Except Fault Unit} (h : (begin op m).Runs l ds x l') :
    ((∃ u, x.2 = .ok u) → l'.outcome = l.outcome) ∧
      ((∃ f, x.2 = .error f) → ∃ f, Doing.Faulted .init f ds) := by
  obtain ⟨_, _, _, l₁, _, es₁, hallow, hrest₁, rfl⟩ := h.perform
  have hallowed : l₁.outcome = l.outcome := by
    cases hallow
    rfl
  obtain ⟨es₂, ⟨s, r⟩, l₂, es₃, hcall, hrest₂, rfl⟩ := Runs.bind (p := callInit op m) hrest₁
  obtain ⟨hcore, hexit⟩ := runs_call_core hcall
  cases r with
  | ok u =>
    obtain ⟨_, _, _, l₃, _, es₄, hpublish, hlast, rfl⟩ := hrest₂.perform
    cases hpublish
    cases hlast
    exact ⟨fun _ => (Local.outcome_of_core hcore).trans hallowed, by simp⟩
  | error f =>
    have hfault : Doing.Faulted .init f (es₂ ++ es₃) := List.mem_append_left _ hexit
    -- What follows a failure of the hook cannot come to a good end.
    obtain ⟨g, hg⟩ := hrest₂.ends (P := fun y : op.State × Except Fault Unit => ∃ g, y.2 = .error g)
      (ends_bind _ fun _ => ends_bind _ fun _ => ends_bind _ fun _ => ends_bind _ fun _ => ⟨_, rfl⟩)
    refine ⟨fun ⟨u, hu⟩ => ?_, fun _ => ⟨f, hfault.of_subset (List.subset_cons_self _ _)⟩⟩
    rw [hg] at hu
    cases hu

/-- A round that fails says why. -/
theorem fell_round {x : op.State × Turn} (h : (round op m).Runs l ds x l')
    (hx : x.2 = .leave .failed) : Doing.Fell ds l' := by
  obtain ⟨_, _, stopped, l₁, _, es₁, -, hrest₁, rfl⟩ := h.perform
  cases stopped with
  | true =>
    cases hrest₁
    cases hx
  | false =>
    obtain ⟨es₂, ⟨s, r⟩, l₂, es₃, hcall, hrest₂, rfl⟩ := Runs.bind (p := callProcess op m) hrest₁
    obtain ⟨-, hexit⟩ := runs_call_core hcall
    cases r with
    | ok more =>
      cases more with
      | true =>
        cases hrest₂
        cases hx
      | false =>
        obtain ⟨_, _, stopped, l₃, _, es₄, -, hlast, rfl⟩ := hrest₂.perform
        cases hlast
        cases stopped <;> cases hx
    | error f =>
      -- Only here can a round fail.
      obtain ⟨es₄, t, l₃, es₅, hafter, hlast, rfl⟩ := Runs.bind (p := afterFault f) hrest₂
      have hkept := hafter.errorHandling ((quiet_afterFault f).inner.mono fun _ h => h.fixed)
      cases hlast
      obtain ⟨rfl, -⟩ | ⟨-, hfatal⟩ := runs_afterFault hafter
      · cases hx
      · have hfault : Doing.Faulted .process f es₂ := hexit
        refine ⟨f, hfault.of_subset fun e he => by simp [he], fun row d hf he => ?_⟩
        refine (hfatal.unrejected row d hf (hkept ▸ he)).of_subset fun e he => ?_
        simp [he]

theorem outcome_dispose {x : Unit} (h : (dispose op m).Runs l ds x l') :
    l'.outcome = l.outcome := by
  obtain ⟨es, s, e, k, hruns, -, houtcome, -⟩ := runs_dispose h
  exact houtcome.trans (Local.outcome_of_core (hruns.core (within_behaviour _)))

/-- A copy that comes to its end keeps the outcome that it settles. -/
theorem outcome_leave {e : Outcome} {x : Unit} (h : (leave op m e).Runs l ds x l') :
    l'.outcome = some e := by
  obtain ⟨es₁, _, l₁, es₂, -, hrest₁, -⟩ := Runs.bind (p := endOutput) h
  obtain ⟨es₃, _, l₂, es₄, -, hrest₂, -⟩ := Runs.bind (p := detachInputs) hrest₁
  obtain ⟨_, _, _, l₃, _, es₅, hsettle, hrest₃, -⟩ := hrest₂.perform
  obtain ⟨_, _, _, l₄, _, es₆, hpublish, hdispose, -⟩ :=
    Runs.perform (a := .publish e.state) (f := fun _ => dispose op m) hrest₃
  cases hsettle
  cases hpublish
  exact outcome_dispose hdispose

theorem outcome_abandon {x : Unit} (h : (abandon op m).Runs l ds x l') :
    l'.outcome = some .stopped ∨ l'.outcome = l.outcome := by
  have hgiveUp : ∀ {k : Local} {gs : List Doing}, (do endOutput; dispose op m).Runs k gs x l' →
      l'.outcome = k.outcome := by
    intro k gs h
    obtain ⟨es₁, _, l₁, es₂, hend, hdispose, -⟩ := Runs.bind (p := endOutput) h
    exact (outcome_dispose hdispose).trans (Local.outcome_of_core (hend.core quiet_endOutput.inner))
  obtain ⟨_, es, hes, rfl⟩ := Runs.own h
  rw [done_bind] at hes
  split at hes
  · obtain ⟨_, _, _, l₁, _, es₁, hsettle, hrest, -⟩ := hes.perform
    obtain ⟨_, _, _, l₂, _, es₂, hpublish, hlast, -⟩ :=
      Runs.perform (a := .publish .stopped) (f := fun _ => do endOutput; dispose op m) hrest
    cases hsettle
    cases hpublish
    exact .inl (hgiveUp hlast)
  · exact .inr (hgiveUp hes)

theorem fixed_leave (op : Operator) (m : op.State) (e : Outcome) :
    (leave op m e).Within Node.Fixed := by
  have hcall : (callDispose op m).Within Node.Fixed :=
    within_marked trivial (fun _ => trivial) <|
      ((within_behaviour _).mono fun _ h => h.fixed).bind fun _ =>
        (within_perform (a := .own) trivial).bind fun _ => within_pure _
  have hdispose : (dispose op m).Within Node.Fixed := by
    refine hcall.bind fun ⟨_, r⟩ => ?_
    cases r with
    | ok u => exact within_perform (a := .publish .disposed) trivial
    | error f =>
      exact (quiet_addError.inner.mono fun _ h => h.fixed).bind fun _ =>
        within_perform (a := .publish .disposed) trivial
  exact (quiet_endOutput.inner.mono fun _ h => h.fixed).bind fun _ =>
    (leaving_detachInputs.mono fun _ h => h.fixed).bind fun _ =>
      (within_perform (a := .settle e) trivial).bind fun _ =>
        (within_perform (a := .publish e.state) trivial).bind fun _ => hdispose

end Program

section Explained

variable {op : Operator} {o l : Local} {ds : List Doing} {t : Seam op}

def Seam.Explained (t : Seam op) (ds : List Doing) (l : Local) : Prop :=
  match t with
  | .created => l.outcome = none
  | .ready _ => l.outcome = none
  | .refused _ => ∃ f, Doing.Faulted .init f ds
  | .idle _ => True
  | .leaving _ e => e = .failed → Doing.Fell ds l
  | .gone => l.outcome = some .failed → (∃ f, Doing.Faulted .init f ds) ∨ Doing.Fell ds l

theorem Operator.Lives.explained (h : op.Lives o t ds l) (ho : o.outcome = none) :
    t.Explained ds l := by
  induction h with
  | created b => exact ho
  | @begin ds es l m x h hr ih =>
    obtain ⟨hok, herror⟩ := Program.outcome_begin hr
    obtain ⟨s, r⟩ := x
    cases r with
    | ok u => exact (hok ⟨u, rfl⟩).trans ih
    | error f =>
      obtain ⟨g, hg⟩ := herror ⟨f, rfl⟩
      exact ⟨g, hg.of_subset (List.subset_append_right _ _)⟩
  | @start s ds es l m x h hr ih =>
    rw [hr.ends (P := fun y : op.State × Turn => y = (s, .again)) fun _ => rfl]
    trivial
  | @round s ds es l m x h hr ih =>
    obtain ⟨s', turn⟩ := x
    cases turn with
    | again => trivial
    | leave e =>
      rintro rfl
      exact (Program.fell_round hr rfl).of_subset (List.subset_append_right _ _) rfl
  | @leave s e ds es l m x h hr ih =>
    intro hfailed
    rw [Program.outcome_leave hr, Option.some.injEq] at hfailed
    exact .inr ((ih hfailed).of_subset (List.subset_append_left _ _)
      (hr.errorHandling (Program.fixed_leave op s e)))
  | @abandon t s ds es l m x h ht hr ih =>
    intro hfailed
    obtain hstopped | hsame := Program.outcome_abandon hr
    · rw [hstopped] at hfailed
      cases hfailed
    · rcases ht with rfl | rfl
      · rw [hsame, show l.outcome = none from ih] at hfailed
        cases hfailed
      · obtain ⟨f, hf⟩ := ih
        exact .inl ⟨f, hf.of_subset (List.subset_append_left _ _)⟩

end Explained
end RowFlow
