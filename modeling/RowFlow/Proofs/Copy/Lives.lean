import RowFlow.Proofs.Determinacy.Pace
import RowFlow.Proofs.Program.Faults
import RowFlow.Proofs.Program.Heard

/-
The life of a copy, program by program.  Between two programs a copy stands at a seam;
`Lives` says what it can have done by then.  A copy in the middle of a program is told by
the seams that it can still come to (`Task.Stands`), so each of its steps and each change
of its task adds one thing to what it has done, or nothing (`Strides.stands`).

Of the hooks of its operator the life of a copy shows the courses: `Operator.Life` is what
they have asked for and been told before the hook for the end, and how each call of the hook
for work ended.
-/
namespace RowFlow

inductive Seam (op : Operator) where
  | created
  | ready (m : op.State)
  | refused (m : op.State)
  /-- Between two rounds. -/
  | idle (m : op.State)
  | leaving (m : op.State) (outcome : Outcome)
  | gone

namespace Seam

variable {op : Operator}

def begun : op.State × Except Fault Unit → Seam op
  | (m, .ok _) => .ready m
  | (m, .error _) => .refused m

def turned : op.State × Turn → Seam op
  | (m, .again) => .idle m
  | (m, .leave o) => .leaving m o

/-- The state of the operator while the copy is neither new nor gone. -/
def state? : Seam op → Option op.State
  | ready m => some m
  | refused m => some m
  | idle m => some m
  | leaving m _ => some m
  | _ => none

@[simp] theorem state?_begun (x : op.State × Except Fault Unit) : (begun x).state? = some x.1 := by
  obtain ⟨m, r⟩ := x
  cases r <;> rfl

@[simp] theorem state?_turned (x : op.State × Turn) : (turned x).state? = some x.1 := by
  obtain ⟨m, t⟩ := x
  cases t <;> rfl

end Seam

/-- What a copy that was made at `o` can have done when it stands at a seam. -/
inductive Operator.Lives (op : Operator) (o : Local) : Seam op → List Doing → Local → Prop
  | created (b : Bool) : Lives op o .created [] (o.withCancelled b)
  | begin {ds es : List Doing} {l m : Local} {x : op.State × Except Fault Unit}
      (h : Lives op o .created ds l) (hr : (Program.begin op op.start).Runs l es x m) :
      Lives op o (.begun x) (ds ++ es) m
  | start {s : op.State} {ds es : List Doing} {l m : Local} {x : op.State × Turn}
      (h : Lives op o (.ready s) ds l)
      (hr : (Program.act (.publish .running) fun _ => .done (s, .again)).Runs l es x m) :
      Lives op o (.turned x) (ds ++ es) m
  | round {s : op.State} {ds es : List Doing} {l m : Local} {x : op.State × Turn}
      (h : Lives op o (.idle s) ds l) (hr : (Program.round op s).Runs l es x m) :
      Lives op o (.turned x) (ds ++ es) m
  | leave {s : op.State} {e : Outcome} {ds es : List Doing} {l m : Local} {x : Unit}
      (h : Lives op o (.leaving s e) ds l) (hr : (Program.leave op s e).Runs l es x m) :
      Lives op o .gone (ds ++ es) m
  | abandon {t : Seam op} {s : op.State} {ds es : List Doing} {l m : Local} {x : Unit}
      (h : Lives op o t ds l) (ht : t = .ready s ∨ t = .refused s)
      (hr : (Program.abandon op s).Runs l es x m) : Lives op o .gone (ds ++ es) m

section Stands

variable {op : Operator} {o l : Local} {ds : List Doing}

theorem Operator.Lives.cancelled {t : Seam op} (h : op.Lives o t ds l) (b : Bool) :
    op.Lives o t ds (l.withCancelled b) := by
  cases h with
  | created _ => exact .created b
  | begin h hr => exact .begin h (hr.after b)
  | start h hr => exact .start h (hr.after b)
  | round h hr => exact .round h (hr.after b)
  | leave h hr => exact .leave h (hr.after b)
  | abandon h ht hr => exact .abandon h ht (hr.after b)

/-- The seams that a copy can come to next are those of such a life. -/
def Task.Stands (o : Local) (t : Task op) (ds : List Doing) (l : Local) : Prop :=
  match t with
  | .created => op.Lives o .created ds l
  | .beginning p => ∀ es x m, p.Runs l es x m → op.Lives o (.begun x) (ds ++ es) m
  | .ready s => op.Lives o (.ready s) ds l
  | .refused s _ => op.Lives o (.refused s) ds l
  | .working p => ∀ es x m, p.Runs l es x m → op.Lives o (.turned x) (ds ++ es) m
  | .leaving p => ∀ es x m, p.Runs l es x m → op.Lives o .gone (ds ++ es) m
  | .gone => op.Lives o .gone ds l

theorem Task.Stands.cancelled {t : Task op} (h : t.Stands o ds l) (b : Bool) :
    t.Stands o ds (l.withCancelled b) := by
  cases t with
  | beginning p => exact fun es x m hr => h es x m hr.before
  | working p => exact fun es x m hr => h es x m hr.before
  | leaving p => exact fun es x m hr => h es x m hr.before
  | created => exact Operator.Lives.cancelled h b
  | ready s => exact Operator.Lives.cancelled h b
  | refused s f => exact Operator.Lives.cancelled h b
  | gone => exact Operator.Lives.cancelled h b

end Stands

namespace Copy

open Program

variable {c c' : Copy} {s s' : Shared} {t : Option Trade} {o : Local} {ds : List Doing}

theorem Strides.stands (h : Strides s c t c' s') (hs : c.task.Stands o ds c.own) :
    ∃ d, Does c.own s d t s' ∧ c'.task.Stands o (ds ++ d.toList) c'.own := by
  have hsame : ∀ d : Option Doing, d = none → ds ++ d.toList = ds := by
    rintro d rfl
    exact List.append_nil ds
  cases h with
  | still => exact ⟨none, does_nothing _ s, by rwa [hsame none rfl]⟩
  | begin =>
    refine ⟨none, does_nothing _ s, fun es x m hr => ?_⟩
    rw [hsame none rfl]
    exact .begin hs hr
  | beginning p =>
    obtain ⟨d, hd, hruns⟩ := exists_doing p _ s
    refine ⟨d, hd, fun es x m hr => ?_⟩
    rw [List.append_assoc]
    exact hs _ x m (hruns es x m hr)
  | ready m => exact ⟨none, does_nothing _ s, hs _ _ _ (.here _ _)⟩
  | refused m f => exact ⟨none, does_nothing _ s, hs _ _ _ (.here _ _)⟩
  | work m =>
    refine ⟨none, does_nothing _ s, fun es x m hr => ?_⟩
    rw [hsame none rfl]
    exact .start hs hr
  | working p =>
    obtain ⟨d, hd, hruns⟩ := exists_doing p _ s
    refine ⟨d, hd, fun es x m hr => ?_⟩
    rw [List.append_assoc]
    exact hs _ x m (hruns es x m hr)
  | again m =>
    have hidle := hs _ _ _ (.here _ _)
    exact ⟨none, does_nothing _ s, fun es x m hr => .round hidle hr⟩
  | leave m e =>
    have hleaving := hs _ _ _ (.here _ _)
    exact ⟨none, does_nothing _ s, fun es x m hr => .leave hleaving hr⟩
  | leaving p =>
    obtain ⟨d, hd, hruns⟩ := exists_doing p _ s
    refine ⟨d, hd, fun es x m hr => ?_⟩
    rw [List.append_assoc]
    exact hs _ x m (hruns es x m hr)
  | gone => exact ⟨none, does_nothing _ s, hs _ _ _ (.here _ _)⟩

/-- Nothing is done by a copy that is given up. -/
theorem stands_toAbandon (hs : c.task.Stands o ds c.own) : c.toAbandon.task.Stands o ds c.own := by
  obtain ⟨op, own, task⟩ := c
  cases task with
  | ready m => exact fun es x l hr => .abandon hs (.inl rfl) hr
  | refused m f => exact fun es x l hr => .abandon hs (.inr rfl) hr
  | _ => exact hs

end Copy

/-- A call of the hook for work: what it asked for and was told, and how it ended. -/
structure Operator.Work where
  replies : List Reply
  ending : Ending Bool

/-- The call neither came back with work done nor found the work done. -/
def Operator.Work.Failed (w : Operator.Work) : Prop := ∀ b, w.ending ≠ .returned (.ok b)

/-- What the hook for the start was told, and the calls of the hook for work after it. -/
inductive Operator.Life (op : Operator) : List Reply → List Work → op.State → Prop
  | begun {replies : List Reply} {m : op.State} {e : Ending Unit}
      (h : (op.init op.start).Course replies (m, e)) : Life op replies [] m
  | worked {replies : List Reply} {works : List Work} {w : Work} {m m' : op.State}
      (h : Life op replies works m) (hc : (op.process m).Course w.replies (m', w.ending)) :
      Life op replies (works ++ [w]) m'

namespace Program

section Hooks

variable {op : Operator} {σ α : Type} {l l' : Local} {ds : List Doing} {m : op.State}

theorem runs_call {hook : Hook} {more : α → Bool} {body : Behaviour (σ × Ending α)} {s : σ}
    {r : Except Fault α} (h : (call hook more body).Runs l ds (s, r) l') :
    ∃ es e step, body.program.Runs l es (s, e) l' ∧ r = resultOf step e ∧ Doing.Agree ds es := by
  obtain ⟨es, hes, rfl⟩ := h.marked
  obtain ⟨fs, ⟨s', e⟩, l₁, gs, hbody, hown, rfl⟩ := hes.bind
  obtain ⟨b, _, hdone, rfl⟩ := hown.own
  cases hdone with
  | done _ _ b => exact ⟨fs, e, _, hbody.after b, rfl, by simp, by simp⟩

/-- After the call of a hook nothing more is heard, and the state stays what it is. -/
theorem heard_call_bind {hook : Hook} {more : α → Bool} {b : Behaviour (σ × Ending α)}
    {β : Type} {f : σ × Except Fault α → Program (σ × β)} {x : σ × β}
    (h : (call hook more b >>= f).Runs l ds x l') (hsilent : ∀ y, (f y).Within Node.Silent)
    (hends : ∀ y, (f y).Ends fun x => x.1 = y.1) :
    ∃ replies e, b.Course replies (x.1, e) ∧ Heard ds replies ∧ ∃ step k es,
      (f (x.1, resultOf step e)).Runs k es x l' ∧ l.counts.errors ≤ k.counts.errors := by
  obtain ⟨ds₁, ⟨s, r⟩, k, ds₂, hcall, hrest, rfl⟩ := h.bind
  obtain ⟨es, e, step, hbody, rfl, hagree⟩ := runs_call hcall
  obtain ⟨replies, hcourse, hheard⟩ := exists_course hbody
  have hsame : x.1 = s := hrest.ends (hends (s, _))
  rw [hsame]
  refine ⟨replies, e, hcourse, .of_agree ?_ hheard, step, k, ds₂, hrest, hcall.errors_le⟩
  have hlast := hrest.silent (hsilent (s, _))
  exact ⟨by simp [hagree.notes, hlast.notes], by simp [hagree.rows, hlast.rows]⟩

theorem heard_begin {x : op.State × Except Fault Unit} (h : (begin op m).Runs l ds x l') :
    ∃ replies e, (op.init m).Course replies (x.1, e) ∧ Heard ds replies := by
  obtain ⟨_, _, es, hrest, hagree, -⟩ :=
    h.skip (within_perform (a := .allowErrors op.capabilities.errorHandling) trivial)
  obtain ⟨replies, e, hcourse, hheard, -⟩ := heard_call_bind hrest
    (by
      rintro ⟨s, _ | _⟩
      · exact quiet_addError.silent.bind fun _ =>
          (within_perform (a := .settle .failed) trivial).bind fun _ =>
            (within_perform (a := .publish .failed) trivial).bind fun _ =>
              (within_perform (a := .own) trivial).bind fun _ => within_pure _
      · exact (within_perform (a := .publish .initialized) trivial).bind fun _ => within_pure _)
    (by
      rintro ⟨s, _ | _⟩
      · exact ends_bind _ fun _ => ends_bind _ fun _ => ends_bind _ fun _ =>
          ends_bind _ fun _ => rfl
      · exact ends_bind _ fun _ => rfl)
  exact ⟨replies, e, hcourse, .of_agree hagree hheard⟩

/-- A round calls the hook for work, unless the run is stopped.  A call that fails counts. -/
theorem heard_round {x : op.State × Turn} (h : (round op m).Runs l ds x l') :
    (x.1 = m ∧ Heard ds []) ∨
      ∃ w : Operator.Work, (op.process m).Course w.replies (x.1, w.ending) ∧ Heard ds w.replies ∧
        (w.Failed → l.counts.errors < l'.counts.errors) := by
  obtain ⟨stopped, _, es, hrest, hagree, hle⟩ :=
    h.skip (within_perform (a := .isStopped) trivial)
  cases stopped with
  | true =>
    left
    cases hrest
    exact ⟨rfl, .of_agree hagree .nil⟩
  | false =>
    right
    obtain ⟨replies, e, hcourse, hheard, step, k, fs, hafter, hle'⟩ :=
      heard_call_bind (b := op.process m) hrest
        (by
          rintro ⟨s, f | _ | _⟩
          · exact (quiet_afterFault f).silent.bind fun _ => within_pure _
          · exact (within_perform (a := .isStopped) trivial).bind fun _ => within_pure _
          · exact within_pure _)
        (by
          rintro ⟨s, f | _ | _⟩
          · exact ends_bind _ fun _ => rfl
          · exact ends_bind _ fun _ => rfl
          · exact rfl)
    refine ⟨⟨replies, e⟩, hcourse, .of_agree hagree hheard, fun hfailed => ?_⟩
    have hfault : ∃ f, resultOf step e = .error f := by
      cases e with
      | crashed text => exact ⟨_, rfl⟩
      | returned r =>
        cases r with
        | error f => exact ⟨f, rfl⟩
        | ok b => exact absurd rfl (hfailed b)
    obtain ⟨f, hf⟩ := hfault
    obtain ⟨s, turn⟩ := x
    rw [hf] at hafter
    obtain ⟨gs, t, k', gs', hturn, hlast, rfl⟩ := Runs.bind (p := afterFault f) hafter
    cases hlast
    show l.counts.errors < k'.counts.errors
    exact Nat.lt_of_le_of_lt (hle.trans hle') (errors_lt_afterFault hturn)

/-- A copy that comes to its end calls the hook for it, and nothing else is heard. -/
theorem runs_leave {e : Outcome} {x : Unit} (h : (leave op m e).Runs l ds x l') :
    ∃ es k, (dispose op m).Runs k es () l' ∧ Doing.Agree ds es ∧
      l.counts.errors ≤ k.counts.errors := by
  obtain ⟨_, _, es₁, hrest₁, hagree₁, hle₁⟩ := h.skip quiet_endOutput.silent
  obtain ⟨_, _, es₂, hrest₂, hagree₂, hle₂⟩ :=
    hrest₁.skip (leaving_detachInputs.mono fun _ h => h.silent)
  obtain ⟨_, _, es₃, hrest₃, hagree₃, hle₃⟩ :=
    hrest₂.skip (within_perform (a := .settle e) trivial)
  obtain ⟨_, k, es, hrest, hagree, hle⟩ :=
    hrest₃.skip (within_perform (a := .publish e.state) trivial)
  exact ⟨es, k, hrest, hagree₁.trans (hagree₂.trans (hagree₃.trans hagree)),
    hle₁.trans (hle₂.trans (hle₃.trans hle))⟩

theorem runs_abandon {x : Unit} (h : (abandon op m).Runs l ds x l') :
    ∃ es k, (dispose op m).Runs k es () l' ∧ Doing.Agree ds es ∧
      l.counts.errors ≤ k.counts.errors := by
  have hgiveUp : ∀ {k : Local} {gs : List Doing}, (do endOutput; dispose op m).Runs k gs x l' →
      ∃ es k', (dispose op m).Runs k' es () l' ∧ Doing.Agree gs es ∧
        k.counts.errors ≤ k'.counts.errors := by
    intro k gs h
    obtain ⟨_, k', es, hrest, hagree, hle⟩ := h.skip quiet_endOutput.silent
    exact ⟨es, k', hrest, hagree, hle⟩
  obtain ⟨own, _, es₁, hrest₁, hagree₁, hle₁⟩ := h.skip (within_perform (a := .own) trivial)
  split at hrest₁
  · obtain ⟨_, _, es₂, hrest₂, hagree₂, hle₂⟩ :=
      hrest₁.skip (within_perform (a := .settle .stopped) trivial)
    obtain ⟨_, _, es₃, hrest₃, hagree₃, hle₃⟩ :=
      hrest₂.skip (within_perform (a := .publish .stopped) trivial)
    obtain ⟨es, k, hdispose, hagree, hle⟩ := hgiveUp hrest₃
    exact ⟨es, k, hdispose, hagree₁.trans (hagree₂.trans (hagree₃.trans hagree)),
      hle₁.trans (hle₂.trans (hle₃.trans hle))⟩
  · obtain ⟨es, k, hdispose, hagree, hle⟩ := hgiveUp hrest₁
    exact ⟨es, k, hdispose, hagree₁.trans hagree, hle₁.trans hle⟩

/-- What the hook for the end leaves is how the copy ends; only a failure counts after it. -/
theorem runs_dispose {x : Unit} (h : (dispose op m).Runs l ds x l') :
    ∃ es s e k, (op.dispose m).program.Runs l es (s, e) k ∧ Doing.Agree ds es ∧
      l'.outcome = k.outcome ∧ (e = .returned (.ok ()) → l'.counts = k.counts) := by
  obtain ⟨ds₁, ⟨s, r⟩, k, ds₂, hcall, hrest, rfl⟩ := h.bind
  obtain ⟨es, e, step, hbody, rfl, hagree⟩ := runs_call hcall
  have hpublish : ∀ {k : Local} {gs : List Doing}, (perform (.publish .disposed)).Runs k gs x l' →
      Doing.Agree gs [] ∧ l'.outcome = k.outcome ∧ l'.counts = k.counts := by
    intro k gs h
    refine ⟨h.silent (within_perform (a := .publish .disposed) trivial), ?_⟩
    cases h with
    | act hl hr =>
      cases hl
      cases hr
      exact ⟨rfl, rfl⟩
  cases hr : resultOf step e with
  | ok u =>
    rw [hr] at hrest
    obtain ⟨hlast, houtcome, hcounts⟩ := hpublish hrest
    exact ⟨es, s, e, k, hbody, ⟨by simp [hagree.notes, hlast.notes],
      by simp [hagree.rows, hlast.rows]⟩, houtcome, fun _ => hcounts⟩
  | error f =>
    rw [hr] at hrest
    obtain ⟨ds₃, _, k', ds₄, herror, hrest', rfl⟩ := Runs.bind (p := addError) hrest
    obtain ⟨hlast, houtcome, -⟩ := hpublish hrest'
    have hsilent := herror.silent quiet_addError.silent
    refine ⟨es, s, e, k, hbody, ⟨by simp [hagree.notes, hsilent.notes, hlast.notes],
      by simp [hagree.rows, hsilent.rows, hlast.rows]⟩,
      houtcome.trans (Local.outcome_of_core
        (herror.core (within_addError.mono fun _ h => h.plain.inner))), ?_⟩
    rintro rfl
    cases hr

end Hooks

end Program

/-- After such a life the hook for the end was called; it left the operator in state `s'` and
the copy at `l`. -/
inductive Operator.Departs (op : Operator) : List Doing → Local → op.State → Prop
  | mk {replies : List Reply} {works : List Work} {s s' : op.State} {ds fs es : List Doing}
      {e : Ending Unit} {k k' l : Local} (life : op.Life replies works s)
      (heard : Heard fs (replies ++ works.flatMap (·.replies)))
      (errors : (∃ w ∈ works, w.Failed) → k.counts.errors ≠ 0)
      (runs : (op.dispose s).program.Runs k es (s', e) k') (agree : Doing.Agree ds (fs ++ es))
      (outcome : l.outcome = k'.outcome)
      (counts : e = .returned (.ok ()) → l.counts = k'.counts) : Departs op ds l s'

namespace Operator.Lives

variable {op : Operator} {o k l : Local} {ds : List Doing} {t : Seam op}

theorem eq_nil_of_created (h : op.Lives o t ds l) (ht : t = .created) : ds = [] := by
  have hstate : t.state? = none := by rw [ht]; rfl
  cases h with
  | created b => rfl
  | begin h hr => simp at hstate
  | start h hr => simp at hstate
  | round h hr => simp at hstate
  | leave h hr => cases ht
  | abandon h ht' hr => cases ht

theorem life (h : op.Lives o t ds l) {s : op.State} (hs : t.state? = some s) :
    ∃ replies works, op.Life replies works s ∧ Heard ds (replies ++ works.flatMap (·.replies)) ∧
      ((∃ w ∈ works, w.Failed) → l.counts.errors ≠ 0) := by
  induction h generalizing s with
  | created b => cases hs
  | begin h hr ih =>
    obtain ⟨replies, e, hcourse, hheard⟩ := Program.heard_begin hr
    rw [Seam.state?_begun, Option.some.injEq] at hs
    subst hs
    rw [h.eq_nil_of_created rfl]
    refine ⟨replies, [], .begun hcourse, ?_, by simp⟩
    rwa [List.flatMap_nil, List.append_nil]
  | @start s₀ _ _ _ _ x h hr ih =>
    obtain ⟨replies, works, hlife, hheard, herrors⟩ := ih rfl
    have hsame : x.1 = s₀ := hr.ends (P := fun y : op.State × Turn => y.1 = s₀) fun _ => rfl
    rw [Seam.state?_turned, hsame, Option.some.injEq] at hs
    subst hs
    refine ⟨replies, works, hlife, ?_, fun hfailed => ?_⟩
    · have hsilent := hr.silent ⟨trivial, fun _ => trivial⟩
      have hall := hheard.append (.of_agree hsilent .nil)
      rwa [List.append_nil] at hall
    · have hle := hr.errors_le
      have hsome := herrors hfailed
      omega
  | round h hr ih =>
    obtain ⟨replies, works, hlife, hheard, herrors⟩ := ih rfl
    have hle := hr.errors_le
    rw [Seam.state?_turned, Option.some.injEq] at hs
    subst hs
    rcases Program.heard_round hr with ⟨heq, hsilent⟩ | ⟨w, hcourse, hmore, hcounted⟩
    · rw [heq]
      refine ⟨replies, works, hlife, ?_, fun hfailed => ?_⟩
      · have hall := hheard.append hsilent
        rwa [List.append_nil] at hall
      · have hsome := herrors hfailed
        omega
    · refine ⟨replies, works ++ [w], .worked hlife hcourse, ?_, ?_⟩
      · rw [List.flatMap_append, List.flatMap_singleton, ← List.append_assoc]
        exact hheard.append hmore
      · rintro ⟨w', hw', hfailed⟩
        rcases List.mem_append.mp hw' with hw' | hw'
        · have hsome := herrors ⟨w', hw', hfailed⟩
          omega
        · rw [List.mem_singleton.mp hw'] at hfailed
          have hlt := hcounted hfailed
          omega
  | leave h hr ih => cases hs
  | abandon h ht hr ih => cases hs

/-- Wherever the hook for the end is called, it is called after such a life. -/
theorem departs (h : op.Lives o t ds k) {s : op.State} (hs : t.state? = some s) {gs : List Doing}
    (hend : ∃ es k', (Program.dispose op s).Runs k' es () l ∧ Doing.Agree gs es ∧
      k.counts.errors ≤ k'.counts.errors) : ∃ s', op.Departs (ds ++ gs) l s' := by
  obtain ⟨replies, works, hlife, hheard, herrors⟩ := h.life hs
  obtain ⟨es, k', hdispose, hagree, hle⟩ := hend
  obtain ⟨fs, s', e, k'', hruns, hsame, houtcome, hcounts⟩ := Program.runs_dispose hdispose
  have hall := hagree.trans hsame
  refine ⟨s', .mk hlife hheard (fun hfailed => ?_) hruns
    ⟨by simp [hall.notes], by simp [hall.rows]⟩ houtcome hcounts⟩
  have hsome := herrors hfailed
  omega

theorem gone (h : op.Lives o t ds l) (ht : t = .gone) : ∃ s, op.Departs ds l s := by
  have hstate : t.state? = none := by rw [ht]; rfl
  cases h with
  | created b => cases ht
  | begin h hr => simp at hstate
  | start h hr => simp at hstate
  | round h hr => simp at hstate
  | leave h hr => exact h.departs rfl (Program.runs_leave hr)
  | @abandon _ s _ _ _ _ _ h ht' hr =>
    refine h.departs (s := s) ?_ (Program.runs_abandon hr)
    rcases ht' with rfl | rfl <;> rfl

end Operator.Lives
end RowFlow
