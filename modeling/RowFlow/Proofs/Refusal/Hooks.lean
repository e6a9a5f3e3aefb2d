import RowFlow.Proofs.Program.Effects
import RowFlow.Proofs.Program.Faults
import RowFlow.Proofs.Program.Heard
import RowFlow.Proofs.Refusal.Alone

/-
What a copy has done that was begun and given up.  Of what it does in between the control of
the run hears little: one error if the hook for the start fails, one if the hook for the end
does, and whatever the hook for the end itself tells it.  A hook for the start that keeps to
itself settles which of the two ends the beginning has (`begun_of_runs`); the giving up leaves
the copy disposed in any case (`abandoned_of_runs`).
-/
namespace RowFlow

namespace Doing

def controls : Doing → Bool
  | act (.countErrors _) _ => true
  | act (.countSourceRows _) _ => true
  | act (.giveReason _) _ => true
  | act .raiseFlag _ => true
  | _ => false

def enters (hook : Hook) : Doing → Bool
  | act (.mark (.enter h)) _ => decide (h = hook)
  | _ => false

def exits (hook : Hook) : Doing → Bool
  | act (.mark (.exit h _)) _ => decide (h = hook)
  | _ => false

def faults (hook : Hook) : Doing → Bool
  | act (.mark (.exit h (.error _))) _ => decide (h = hook)
  | _ => false

/-- What the hook does when it is called first. -/
def during (hook : Hook) (ds : List Doing) : List Doing :=
  ((ds.dropWhile fun d => !d.enters hook).drop 1).takeWhile fun d => !d.exits hook

def errorsTold (ds : List Doing) : Nat := (ds.map (·.amount .errors)).sum

@[simp] theorem errorsTold_nil : errorsTold [] = 0 := rfl

@[simp] theorem errorsTold_cons (d : Doing) (ds : List Doing) :
    errorsTold (d :: ds) = d.amount .errors + errorsTold ds := by
  simp [errorsTold]

@[simp] theorem errorsTold_append (ds es : List Doing) :
    errorsTold (ds ++ es) = errorsTold ds + errorsTold es := by
  simp [errorsTold]

variable {hook : Hook} {d : Doing} {ds es : List Doing}

theorem amount_of_not_controls (h : d.controls = false) (k : Total) : d.amount k = 0 := by
  cases d with
  | act a v =>
    cases a with
    | countErrors n => cases h
    | countSourceRows n => cases h
    | _ => rfl
  | _ => rfl

/-- Nothing is told but what the control hears. -/
theorem errorsTold_filter (ds : List Doing) : errorsTold (ds.filter controls) = errorsTold ds := by
  induction ds with
  | nil => rfl
  | cons d rest ih =>
    cases hd : d.controls with
    | true => rw [List.filter_cons_of_pos hd, errorsTold_cons, ih, errorsTold_cons]
    | false =>
      rw [List.filter_cons_of_neg (by simp [hd]), ih, errorsTold_cons,
        amount_of_not_controls hd, Nat.zero_add]

/-- What happens before the hook is called does not count. -/
theorem during_append (h : ∀ d ∈ ds, d.enters hook = false) :
    during hook (ds ++ es) = during hook es := by
  rw [during, List.dropWhile_append_of_pos fun d hd => by rw [h d hd]; rfl, during]

theorem during_call {enter exit : Doing} (henter : enter.enters hook = true)
    (hexit : exit.exits hook = true) (hes : ∀ d ∈ es, d.exits hook = false) (rest : List Doing) :
    during hook (enter :: (es ++ exit :: rest)) = es := by
  rw [during, List.dropWhile_cons_of_neg (by simp [henter]), List.drop_one, List.tail_cons,
    List.takeWhile_append_of_pos fun d hd => by rw [hes d hd]; rfl,
    List.takeWhile_cons_of_neg (by simp [hexit]), List.append_nil]

structure Unmarked (d : Doing) : Prop where
  enters : ∀ hook, d.enters hook = false
  exits : ∀ hook, d.exits hook = false
  faults : ∀ hook, d.faults hook = false

theorem unmarked_of_inner (h : d.node.Inner) : d.Unmarked := by
  cases d with
  | act a v =>
    cases a with
    | mark m =>
      cases m with
      | enter _ => exact absurd h id
      | exit _ _ => exact absurd h id
      | _ => exact ⟨fun _ => rfl, fun _ => rfl, fun _ => rfl⟩
    | _ => exact ⟨fun _ => rfl, fun _ => rfl, fun _ => rfl⟩
  | _ => exact ⟨fun _ => rfl, fun _ => rfl, fun _ => rfl⟩

end Doing

def Node.Aside : Node → Prop
  | act (.mark _) => False
  | act (.countErrors _) => False
  | act (.countSourceRows _) => False
  | act (.giveReason _) => False
  | act .raiseFlag => False
  | _ => True

theorem Node.Lone.aside {n : Node} (h : n.Lone) : n.Aside := by
  cases n with
  | act a =>
    cases a with
    | own => trivial
    | endOutput => trivial
    | close i => trivial
    | add k n => trivial
    | note n => trivial
    | _ => exact absurd h id
  | _ => trivial

namespace Doing

variable {hook : Hook} {d : Doing} {ds es : List Doing}

def Aside (ds : List Doing) : Prop := ∀ d ∈ ds, d.node.Aside

theorem unmarked_of_aside (h : d.node.Aside) : d.Unmarked := by
  cases d with
  | act a v =>
    cases a with
    | mark m => exact absurd h id
    | _ => exact ⟨fun _ => rfl, fun _ => rfl, fun _ => rfl⟩
  | _ => exact ⟨fun _ => rfl, fun _ => rfl, fun _ => rfl⟩

theorem controls_of_aside (h : d.node.Aside) : d.controls = false := by
  cases d with
  | act a v => cases a <;> first | rfl | exact absurd h id
  | _ => rfl

namespace Aside

theorem filter_controls (h : Aside ds) : ds.filter controls = [] :=
  List.filter_eq_nil_iff.mpr fun d hd => by simp [controls_of_aside (h d hd)]

theorem errorsTold (h : Aside ds) : errorsTold ds = 0 := by
  rw [← errorsTold_filter, h.filter_controls, errorsTold_nil]

end Aside

inductive OneError : List Doing → Prop
  | below {t : Tally} (h : t.reached = false) : OneError [.act (.countErrors 1) t]
  | limit {t : Tally} {first : Bool} (h : t.reached = true) :
      OneError [.act (.countErrors 1) t, .act (.giveReason .errorLimit) (), .act .raiseFlag first]

theorem OneError.errorsTold (h : OneError ds) : errorsTold ds = 1 := by
  cases h <;> rfl

end Doing

namespace Program

open Doing

variable {op : Operator} {l m : Local} {ds : List Doing}

/-- The doings of an error, told exactly. -/
theorem oneError_of_runs {u : Unit} (h : addError.Runs l ds u m) :
    OneError (ds.filter controls) := by
  obtain ⟨_, _, total, l₁, _, es₁, -, hrest, rfl⟩ := h.perform
  obtain ⟨es₂, _, l₂, es₃, hrun, hlast, rfl⟩ := Runs.bind (p := addRunErrors 1) hrest
  obtain ⟨_, _, tally, l₃, _, es₄, -, hstop, rfl⟩ := hrun.perform
  cases hlast
  split at hstop
  · next hreached =>
    obtain ⟨es₅, _, l₅, es₆, hgive, hpure, rfl⟩ := hstop.bind
    cases hpure
    obtain ⟨_, _, _, l₆, _, es₇, -, hraise, rfl⟩ := hgive.perform
    obtain ⟨_, _, first, l₇, _, es₈, -, hdone, rfl⟩ :=
      Runs.perform (a := .raiseFlag) (f := fun x => done x) hraise
    cases hdone
    exact .limit hreached
  · next hbelow =>
    cases hstop
    exact .below (Bool.eq_false_iff.mpr hbelow)

/-- A call of a hook is what the hook does between two marks. -/
theorem runs_hook {σ α : Type} {hook : Hook} {more : α → Bool} {body : Behaviour (σ × Ending α)}
    {s : σ} {r : Except Fault α} (h : (call hook more body).Runs l ds (s, r) m) :
    ∃ es e k k', body.program.Runs l es (s, e) k ∧ m.core = k.core ∧
      r = resultOf l.info.name e ∧ ds = .act (.mark (.enter hook)) () ::
        (es ++ [.act .own k', .act (.mark (.exit hook (r.map more))) ()]) := by
  obtain ⟨es, hes, rfl⟩ := h.marked
  obtain ⟨fs, ⟨s', e⟩, k, gs, hbody, hown, rfl⟩ := hes.bind
  obtain ⟨b, _, hdone, rfl⟩ := hown.own
  cases hdone with
  | done _ _ b' =>
    refine ⟨fs, e, k, k.withCancelled b, hbody, rfl, ?_, by simp⟩
    rw [Local.info_withCancelled, hbody.info]

end Program

def Doing.Only (hook : Hook) (ds : List Doing) : Prop :=
  ∀ d ∈ ds, ∀ other, other ≠ hook → d.enters other = false ∧ d.faults other = false

/-- How a copy has begun whose hook for the start keeps to itself: what the control has heard,
with what result and with what published state. -/
inductive Copy.Begun (c : Copy) (ds : List Doing) : Except Fault Unit → Status → Prop
  | ready (h : c.failure? = none) (hds : ds.filter Doing.controls = []) :
      Begun c ds (.ok ()) ⟨.initialized, none⟩
  | refused {f : Fault} (h : c.failure? = some f)
      (hds : Doing.OneError (ds.filter Doing.controls)) :
      Begun c ds (.error (.initFailed c.own.info.name f.message)) ⟨.failed, some .failed⟩

namespace Doing.Only

variable {hook : Hook} {ds es : List Doing}

theorem append (h : Only hook ds) (h' : Only hook es) : Only hook (ds ++ es) :=
  List.forall_mem_append.mpr ⟨h, h'⟩

theorem of_unmarked (h : ∀ d ∈ ds, d.Unmarked) : Only hook ds := fun d hd other _ =>
  ⟨(h d hd).enters other, (h d hd).faults other⟩

theorem of_aside (h : Aside ds) : Only hook ds :=
  .of_unmarked fun d hd => unmarked_of_aside (h d hd)

theorem of_inner (h : ∀ d ∈ ds, d.node.Inner) : Only hook ds :=
  .of_unmarked fun d hd => unmarked_of_inner (h d hd)

theorem enter (hook : Hook) : Only hook [.act (.mark (.enter hook)) ()] :=
  List.forall_mem_singleton.mpr fun _ hne => ⟨decide_eq_false (Ne.symm hne), rfl⟩

theorem exit (hook : Hook) (r : Except Fault Bool) :
    Only hook [.act (.mark (.exit hook r)) ()] := by
  refine List.forall_mem_singleton.mpr fun _ hne => ⟨rfl, ?_⟩
  cases r with
  | ok _ => rfl
  | error f => exact decide_eq_false (Ne.symm hne)

end Doing.Only

/-- Of the hooks the one for the end is called only.  The run is told of an error if it fails,
and of the errors that it tells itself. -/
structure Doing.Disposes (ds : List Doing) : Prop where
  errors : errorsTold ds = (ds.any (faults .dispose)).toNat + errorsTold (during .dispose ds)
  only : Only .dispose ds

theorem Doing.Disposes.after {ds es : List Doing} (h : Disposes ds) (hes : Aside es) :
    Disposes (es ++ ds) where
  errors := by
    have hnone : es.any (faults .dispose) = false :=
      List.any_eq_false.mpr fun d hd => by simp [(unmarked_of_aside (hes d hd)).faults]
    rw [errorsTold_append, hes.errorsTold, Nat.zero_add, h.errors, List.any_append, hnone,
      Bool.false_or, during_append fun d hd => (unmarked_of_aside (hes d hd)).enters _]
  only := (Only.of_aside hes).append h.only

namespace Program

open Doing

section Begin

def afterInit (op : Operator) :
    op.State × Except Fault Unit → Program (op.State × Except Fault Unit)
  | (m, .ok ()) => do
    perform (.publish .initialized)
    return (m, .ok ())
  | (m, .error f) => do
    addError
    perform (.settle .failed)
    perform (.publish .failed)
    let l ← own
    return (m, .error (.initFailed l.info.name f.message))

theorem begin_eq (op : Operator) (m : op.State) : begin op m = (do
    perform (.allowErrors op.capabilities.errorHandling)
    let x ← callInit op m
    afterInit op x) := by
  refine congrArg (bind _) (funext fun _ => congrArg (bind _) (funext fun ⟨s, r⟩ => ?_))
  cases r <;> rfl

variable {op : Operator} {l m : Local} {ds : List Doing} {s : op.State}
  {x : op.State × Except Fault Unit}

theorem runs_afterInit_ok (h : (afterInit op (s, .ok ())).Runs l ds x m) :
    x.2 = .ok () ∧ m.status = l.status.set .initialized ∧ Aside ds := by
  obtain ⟨_, _, _, l₁, _, es, hpublish, hlast, rfl⟩ := h.perform
  cases hpublish
  cases hlast
  exact ⟨rfl, rfl, List.forall_mem_singleton.mpr trivial⟩

theorem runs_afterInit_error {f : Fault} (h : (afterInit op (s, .error f)).Runs l ds x m) :
    x.2 = .error (.initFailed l.info.name f.message) ∧ m.status = l.status.set .failed ∧
      OneError (ds.filter controls) ∧ Only .init ds := by
  obtain ⟨es₁, _, l₁, es₂, herror, hrest₁, rfl⟩ := Runs.bind (p := addError) h
  obtain ⟨_, _, _, l₂, _, es₃, hsettle, hrest₂, rfl⟩ := hrest₁.perform
  obtain ⟨_, _, _, l₃, _, es₄, hpublish, hrest₃, rfl⟩ :=
    Runs.perform (a := .publish .failed) hrest₂
  obtain ⟨b, es₅, hlast, rfl⟩ := Runs.own hrest₃
  have hstatus : l₁.status = l.status :=
    Local.status_of_core (herror.core quiet_addError.inner)
  have hname : l₁.info.name = l.info.name := congrArg StepInfo.name herror.info
  cases hsettle
  cases hpublish
  cases hlast
  refine ⟨?_, ?_, ?_, ?_⟩
  · show Except.error (Fault.initFailed l₁.info.name f.message) = _
    rw [hname]
  · show l₁.status.set .failed = _
    rw [hstatus]
  · rw [List.filter_append]
    simpa [controls] using oneError_of_runs herror
  · refine .append (.of_inner (herror.nodes quiet_addError.inner)) (.of_aside ?_)
    simp only [Aside, List.forall_mem_cons]
    exact ⟨trivial, trivial, trivial, List.forall_mem_nil _⟩

/-- Up to the return from the hook for the start the control hears nothing. -/
theorem runs_init {c : Copy} {t : c.op.State} {e : Ending Unit} {x : c.op.State × Except Fault Unit}
    (ha : (c.op.init c.op.start).alone? c.starting = some (t, e))
    (h : (begin c.op c.op.start).Runs c.own ds x m) : ∃ es es' k,
      (afterInit c.op (t, resultOf c.own.info.name e)).Runs k es' x m ∧ ds = es ++ es' ∧
      k.status = c.own.status ∧ k.info = c.own.info ∧ es.filter controls = [] ∧ Only .init es := by
  rw [begin_eq] at h
  obtain ⟨b, _, u, l₁, _, es₁, hallow, hrest, rfl⟩ := h.perform
  obtain rfl : c.starting.withCancelled b = l₁ := by
    cases hallow
    rfl
  obtain ⟨es₂, ⟨s, r⟩, k, es', hcall, hafter, rfl⟩ :=
    Runs.bind (p := callInit c.op c.op.start) hrest
  obtain ⟨fs, e', k₁, k₂, hbody, hcore, hr, rfl⟩ := runs_hook hcall
  obtain ⟨heq, hlone⟩ := runs_alone hbody (by rw [Behaviour.alone?_withCancelled]; exact ha)
  cases heq
  have haside : Aside (fs ++ [.act .own k₂]) := List.forall_mem_append.mpr
    ⟨fun d hd => (hlone d hd).aside, List.forall_mem_singleton.mpr trivial⟩
  have hallowed : Aside [.act (.allowErrors c.op.capabilities.errorHandling) u] :=
    List.forall_mem_singleton.mpr trivial
  refine ⟨[.act (.allowErrors _) u] ++ ([.act (.mark (.enter .init)) ()] ++ ((fs ++
    [.act .own k₂]) ++ [.act (.mark (.exit .init (r.map always))) ()])), es', k, hr ▸ hafter,
    by simp, ?_, hcall.info, ?_, ?_⟩
  · show k.status = (c.starting.withCancelled b).status
    exact Local.status_of_core (hcore.trans (hbody.core (within_behaviour _)))
  · rw [List.filter_append, List.filter_append, List.filter_append, haside.filter_controls]
    rfl
  · exact (Only.of_aside hallowed).append
      ((Only.enter .init).append ((Only.of_aside haside).append (.exit .init _)))

/-- A copy that was just made begins in one of two ways. -/
theorem begun_of_runs {c : Copy} {x : c.op.State × Except Fault Unit}
    (hfresh : c.own.status = {}) (hending : c.ending?.isSome = true)
    (h : (begin c.op c.op.start).Runs c.own ds x m) : c.Begun ds x.2 m.status ∧ Only .init ds := by
  obtain ⟨⟨t, e⟩, ha⟩ : ∃ a, (c.op.init c.op.start).alone? c.starting = some a := by
    rw [Copy.ending?, Option.isSome_map] at hending
    exact Option.isSome_iff_exists.mp hending
  have hfailure : c.failure? = faultOf? (resultOf c.own.info.name e) := by
    rw [Copy.failure?, Copy.ending?, ha]
    rfl
  obtain ⟨es, es', k, hafter, rfl, hstatus, hinfo, hcontrols, honly⟩ := runs_init ha h
  cases hr : resultOf c.own.info.name e with
  | ok u =>
    rw [hr] at hafter hfailure
    obtain ⟨hx, hm, haside⟩ := runs_afterInit_ok hafter
    rw [hx, hm, hstatus, hfresh]
    refine ⟨.ready hfailure ?_, honly.append (.of_aside haside)⟩
    rw [List.filter_append, hcontrols, haside.filter_controls, List.nil_append]
  | error f =>
    rw [hr] at hafter hfailure
    obtain ⟨hx, hm, herror, honly'⟩ := runs_afterInit_error hafter
    rw [hx, hm, hstatus, hfresh, hinfo]
    refine ⟨.refused hfailure ?_, honly.append honly'⟩
    rwa [List.filter_append, hcontrols, List.nil_append]

end Begin

section Abandon

variable {op : Operator} {l m : Local} {ds es : List Doing} {s : op.State} {x : Unit}

def afterDispose (r : Except Fault Unit) : Program Unit := do
  match r with
  | .ok () => pure ()
  | .error _ => addError
  perform (.publish .disposed)

/-- A failure of the hook counts. -/
theorem runs_afterDispose {r : Except Fault Unit} (h : (afterDispose r).Runs l ds x m) :
    m.status = l.status.set .disposed ∧
      errorsTold ds = (faults .dispose (.act (.mark (.exit .dispose (r.map always))) ())).toNat ∧
      ∀ d ∈ ds, d.Unmarked := by
  have hpublish : ∀ {k : Local} {gs : List Doing}, (perform (.publish .disposed)).Runs k gs x m →
      m.status = k.status.set .disposed ∧ Aside gs := by
    intro k gs h
    cases h with
    | act hl hr =>
      cases hl
      cases hr
      exact ⟨rfl, List.forall_mem_singleton.mpr trivial⟩
  cases r with
  | ok u =>
    obtain ⟨hstatus, haside⟩ := hpublish h
    exact ⟨hstatus, haside.errorsTold, fun d hd => unmarked_of_aside (haside d hd)⟩
  | error f =>
    obtain ⟨es₁, _, k, es₂, herror, hlast, rfl⟩ := Runs.bind (p := addError) h
    obtain ⟨hstatus, haside⟩ := hpublish hlast
    have hinner := herror.nodes quiet_addError.inner
    refine ⟨?_, ?_, List.forall_mem_append.mpr ⟨fun d hd => unmarked_of_inner (hinner d hd),
      fun d hd => unmarked_of_aside (haside d hd)⟩⟩
    · rw [hstatus, Local.status_of_core (herror.core quiet_addError.inner)]
    · rw [errorsTold_append, haside.errorsTold, ← errorsTold_filter,
        (oneError_of_runs herror).errorsTold]
      rfl

theorem disposes_of_runs (h : (dispose op s).Runs l ds x m) :
    m.status = ⟨.disposed, l.status.outcome⟩ ∧ Disposes ds := by
  obtain ⟨es₁, ⟨t, r⟩, k, es₂, hcall, hrest, rfl⟩ := Runs.bind (p := callDispose op s) h
  obtain ⟨fs, e, k₁, k₂, hbody, hcore, -, rfl⟩ := runs_hook hcall
  obtain ⟨hstatus, herrors, hquiet⟩ : m.status = k.status.set .disposed ∧ _ ∧ _ :=
    runs_afterDispose (r := r) hrest
  have hkept : k.status = l.status :=
    Local.status_of_core (hcore.trans (hbody.core (within_behaviour _)))
  have hbetween : ∀ d ∈ fs ++ [.act .own k₂], d.Unmarked := List.forall_mem_append.mpr
    ⟨fun d hd => unmarked_of_inner (hbody.nodes (within_behaviour _) d hd),
      List.forall_mem_singleton.mpr (unmarked_of_aside trivial)⟩
  have hnone : ∀ es : List Doing, (∀ d ∈ es, d.Unmarked) → es.any (faults .dispose) = false :=
    fun es hes => List.any_eq_false.mpr fun d hd => by simp [(hes d hd).faults]
  have hsplit : .act (.mark (.enter .dispose)) () :: (fs ++ [.act .own k₂,
      .act (.mark (.exit .dispose (r.map always))) ()]) ++ es₂ =
      .act (.mark (.enter .dispose)) () :: ((fs ++ [.act .own k₂]) ++
        .act (.mark (.exit .dispose (r.map always))) () :: es₂) := by simp
  refine ⟨by rw [hstatus, hkept]; rfl, ?_, ?_⟩
  all_goals rw [hsplit]
  · rw [during_call rfl rfl fun d hd => (hbetween d hd).exits _, errorsTold_cons,
      errorsTold_append, errorsTold_cons, herrors, List.any_cons, List.any_append, List.any_cons,
      hnone _ hbetween, hnone _ hquiet]
    simp [amount, counted?, faults, Nat.add_comm]
  · exact (Only.enter .dispose).append ((Only.of_unmarked hbetween).append
      ((Only.exit .dispose _).append (.of_unmarked hquiet)))

/-- A copy that is given up ends as stopped, unless it has failed already. -/
theorem abandoned_of_runs (h : (abandon op s).Runs l ds x m) :
    m.status = ⟨.disposed, if l.status.state = .initialized then some .stopped
      else l.status.outcome⟩ ∧ Disposes ds := by
  have hgiveUp : ∀ {k : Local} {gs : List Doing}, (do endOutput; dispose op s).Runs k gs x m →
      m.status = ⟨.disposed, k.status.outcome⟩ ∧ Disposes gs := by
    intro k gs h
    obtain ⟨es, _, k', es', hend, hdispose, rfl⟩ := Runs.bind (p := endOutput) h
    obtain ⟨hstatus, hdisposes⟩ := disposes_of_runs hdispose
    refine ⟨?_, hdisposes.after fun d hd => (hend.nodes lone_endOutput d hd).aside⟩
    rw [hstatus, Local.status_of_core (hend.core quiet_endOutput.inner)]
  obtain ⟨b, es, hes, rfl⟩ := Runs.own h
  rw [done_bind] at hes
  have hown : Aside [.act .own (l.withCancelled b)] := List.forall_mem_singleton.mpr trivial
  split at hes
  · next hstate =>
    obtain ⟨_, _, u, l₁, _, es₁, hsettle, hrest, rfl⟩ := hes.perform
    obtain ⟨_, _, v, l₂, _, es₂, hpublish, hlast, rfl⟩ :=
      Runs.perform (a := .publish .stopped) (f := fun _ => do endOutput; dispose op s) hrest
    cases hsettle
    cases hpublish
    obtain ⟨hstatus, hdisposes⟩ := hgiveUp hlast
    have hbefore : Aside [.act .own (l.withCancelled b), .act (.settle .stopped) u,
        .act (.publish .stopped) v] := by
      simp only [Aside, List.forall_mem_cons]
      exact ⟨trivial, trivial, trivial, List.forall_mem_nil _⟩
    refine ⟨?_, hdisposes.after hbefore⟩
    rw [hstatus, if_pos (show l.status.state = .initialized from hstate)]
    rfl
  · next hstate =>
    obtain ⟨hstatus, hdisposes⟩ := hgiveUp hes
    refine ⟨?_, hdisposes.after hown⟩
    rw [hstatus, if_neg (show ¬ l.status.state = .initialized from hstate)]

end Abandon

end Program
end RowFlow
