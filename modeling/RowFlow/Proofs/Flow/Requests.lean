import RowFlow.Proofs.Flow.Rows

/-
What each request tells of the account: `tells_request` says that it is what `After` says
of the answer.  Code that makes requests goes one of its courses, and the account follows
the answers (`tells_behaviour`).
-/
namespace RowFlow
namespace Flow

open Program

variable {o : Local} {α : Type}

section Given

variable {a b : Account} {c : Branch} {i : Nat} {row : Row}

theorem given_of_mem (h : i ∈ c.rowSets) : (a.note (.give i row)).given c = row :: a.given c := by
  simp [Account.given, Account.note, h]

theorem given_of_notMem (h : i ∉ c.rowSets) : (a.note (.give i row)).given c = a.given c := by
  simp [Account.given, Account.note, h]

/-- The row went along the outputs at these places, and only rows were given. -/
structure SentToAll (o : Local) (row : Row) (places : List Nat) (a b : Account) : Prop where
  outputs : ∀ (k : Nat) (c : Branch), o.outputs[k]? = some c →
    b.given c = if k ∈ places then row :: a.given c else a.given c
  error : ∀ c ∈ o.errorOutput, b.given c = a.given c
  rest : b = { a with gives := b.gives }

theorem sentToAll_nil (row : Row) (a : Account) : SentToAll o row [] a a :=
  ⟨fun _ _ _ => by simp, fun _ _ => rfl, rfl⟩

/-- The branches are apart, so what goes along one does not go along another. -/
theorem SentToAll.cons (hapart : Apart o) {k : Nat} {places : List Nat} {b c : Account}
    (h : Fed (o.branch? (.output k)) row a b) (h' : SentToAll o row places b c)
    (hk : k ∉ places) : SentToAll o row (k :: places) a c := by
  cases hb : o.branch? (.output k) with
  | none =>
    obtain rfl : b = a := by simpa [Fed, hb] using h
    refine ⟨fun j d hd => ?_, h'.error, h'.rest⟩
    have hj : j ≠ k := by
      rintro rfl
      rw [show o.outputs[j]? = none from hb] at hd
      cases hd
    simp [h'.outputs j d hd, hj]
  | some d =>
    simp only [Fed, hb] at h
    obtain ⟨i, hi, rfl⟩ := h
    refine ⟨fun j e he => ?_, fun e he => ?_, ?_⟩
    · rw [h'.outputs j e he]
      by_cases hj : j = k
      · subst hj
        obtain rfl : d = e := Option.some.inj (hb.symm.trans he)
        simp [hk, given_of_mem hi]
      · have hne : i ∉ e.rowSets := fun hmem => hj (hapart.outputs j k e d he hb i hmem hi)
        simp [hj, given_of_notMem hne]
    · have hne := hapart.error d (List.mem_of_getElem? hb) e he i hi
      rw [h'.error e he, given_of_notMem hne]
    · rw [h'.rest]
      rfl

end Given

def Put (o : Local) (row : Row) (a : Account) (x : Except Fault Unit) (c : Account) : Prop :=
  match x with
  | .ok _ => ∃ b, SentToAll o row (List.range o.outputs.length) a b ∧ c = b.add 1 .written
  | .error f => NoRowFailure f ∧ c = { a with gives := c.gives }

/-- The marks around a row that is sent put it into the account. -/
theorem after_put {row : Row} {a b : Account} {x : Except Fault Unit}
    (h : Put o row (a.note (.mark (.put row))) x b) :
    Account.After o (.putRow row) x a (b.note (.mark (.putDone x))) := by
  cases x with
  | ok _ =>
    obtain ⟨b, hsent, rfl⟩ := h
    refine ⟨fun d hd => ?_, hsent.error, ?_⟩
    · obtain ⟨k, hk⟩ := List.mem_iff_getElem?.mp hd
      have hlt := (List.getElem?_eq_some_iff.mp hk).1
      have hgiven := hsent.outputs k d hk
      rw [if_pos (List.mem_range.mpr hlt)] at hgiven
      exact hgiven
    · rw [hsent.rest]
      rfl
  | error f =>
    refine ⟨h.1, ?_⟩
    rw [h.2]
    rfl

def Reject (o : Local) (row : Row) (d : Diagnostic) (a : Account) (x : Except Fault Unit)
    (c : Account) : Prop :=
  match x with
  | .ok _ => ∃ out b, errorRow row d = .ok out ∧ Fed o.errorOutput out a b ∧ c = b.add 1 .rejected
  | .error _ => c = a

theorem after_reject (hapart : Apart o) {row : Row} {d : Diagnostic} {a b : Account}
    {x : Except Fault Unit} (h : Reject o row d (a.note (.mark (.reject row d))) x b) :
    Account.After o (.rejectRow row d) x a (b.note (.mark (.rejectDone x))) := by
  cases x with
  | ok _ =>
    obtain ⟨out, b, hout, hfed, rfl⟩ := h
    cases he : o.errorOutput with
    | none =>
      simp only [Fed, he] at hfed
      subst hfed
      refine ⟨out, hout, fun _ _ => rfl, fun c hc => by simp [he] at hc, ?_⟩
      simp [Account.note, Account.add, hout, Except.toOption]
    | some e =>
      simp only [Fed, he] at hfed
      obtain ⟨i, hi, rfl⟩ := hfed
      refine ⟨out, hout, fun c hc => ?_, fun c hc => ?_, ?_⟩
      · have hne : i ∉ c.rowSets := fun hmem => hapart.error c hc e he i hmem hi
        exact given_of_notMem (a := a.note (.mark (.reject row d))) hne
      · obtain rfl : e = c := Option.some.inj (he.symm.trans hc)
        exact given_of_mem (a := a.note (.mark (.reject row d))) hi
      · simp [Account.note, Account.add, hout, Except.toOption]
  | error f =>
    cases h
    rfl

theorem outputs_length_of_origin {l : Local} (h : l.origin = o) :
    l.outputs.length = o.outputs.length := by
  rw [← h]
  exact (List.length_map _).symm

section Requests

variable (hapart : Apart o)
include hapart

theorem tells_sendToAll (row : Row) {places : List Nat} (hp : places.Nodup) :
    Tells o (sendToAll row places) fun a x b =>
      match x with
      | .ok _ => SentToAll o row places a b
      | .error f => NoRowFailure f ∧ b = { a with gives := b.gives } := by
  induction places with
  | nil =>
    refine (tells_pure _).mono ?_
    rintro a x b ⟨rfl, rfl⟩
    exact sentToAll_nil row b
  | cons k rest ih =>
    obtain ⟨hk, hrest⟩ := List.nodup_cons.mp hp
    refine ((tells_sendTo hapart (.output k) row).bind
      (S := fun y b x c => match y, x with
        | .ok _, .ok _ => SentToAll o row rest b c
        | .ok _, .error f => NoRowFailure f ∧ c = { b with gives := c.gives }
        | .error f, x => x = .error f ∧ c = b) fun y => ?_).mono ?_
    · cases y with
      | ok u => exact (ih hrest).mono fun b x c h => by cases x <;> exact h
      | error f => exact tells_pure _
    · rintro a x c ⟨y, b, hy, hx⟩
      cases y with
      | ok u =>
        cases x with
        | ok u' => exact SentToAll.cons hapart hy hx hk
        | error f =>
          refine ⟨hx.1, ?_⟩
          rw [hx.2]
          cases hb : o.branch? (.output k) with
          | none =>
            obtain rfl : b = a := by simpa [SentTo, Fed, hb] using hy
            rfl
          | some d =>
            simp only [SentTo, Fed, hb] at hy
            obtain ⟨i, -, rfl⟩ := hy
            rfl
      | error f =>
        obtain ⟨rfl, rfl⟩ := hx
        obtain ⟨hf, rfl⟩ := hy
        exact ⟨hf, rfl⟩

theorem tells_marked (before : Mark) (after : α → Mark) {r : Program α}
    {R : Account → α → Account → Prop} (hb : Free (.mark before))
    (ha : ∀ x, Free (.mark (after x))) (h : Tells o r R) :
    Tells o (marked before after r) fun a x c =>
      ∃ b, R (a.note (.mark before)) x b ∧ c = b.note (.mark (after x)) := by
  refine ((tells_act hapart hb).bind (S := fun _ a x c => ∃ b, R a x b ∧
    c = b.note (.mark (after x))) fun _ => ?_).mono ?_
  · refine (h.bind fun x => (tells_act hapart (ha x)).bind fun _ => tells_pure x).mono ?_
    rintro a y c ⟨x, b, hr, -, c', ⟨-, rfl⟩, rfl, rfl⟩
    exact ⟨b, hr, rfl⟩
  · rintro a x c ⟨-, b, ⟨-, rfl⟩, b', hr, rfl⟩
    exact ⟨b', hr, rfl⟩

/-- The row counts as written. -/
theorem tells_written (l : Local) :
    Tells o (do
      let _ ← perform (.add .written 1)
      if l.isSource then recordSourceRows 1
      return .ok ()) fun a (x : Except Fault Unit) c => x = .ok () ∧ c = a.add 1 .written := by
  refine ((tells_act hapart (a := .add .written 1) trivial).bind
    (S := fun _ a x c => x = .ok () ∧ c = a) fun _ => ?_).mono ?_
  · refine tells_ite (fun _ => ?_) fun _ => tells_pure _
    refine ((tells_recordSourceRows hapart 1).bind fun _ => tells_pure _).mono ?_
    rintro a x c ⟨-, b, rfl, rfl, rfl⟩
    exact ⟨rfl, rfl⟩
  · rintro a x c ⟨-, b, ⟨-, rfl⟩, rfl, rfl⟩
    exact ⟨rfl, rfl⟩

theorem tells_putRow (row : Row) :
    Tells o (putRow row) fun a x b => Account.After o (.putRow row) x a b := by
  refine (tells_marked hapart (.put row) .putDone (R := Put o row) trivial
    (fun _ => trivial) (tells_own hapart fun l => tells_ite (fun _ => ?_) fun _ =>
      tells_unlessStopped hapart ?_)).mono ?_
  · refine (tells_pure _).mono ?_
    rintro a x c ⟨rfl, rfl⟩ -
    exact ⟨fun _ _ h => (nomatch h), rfl⟩
  · refine ((tells_sendToAll hapart row List.nodup_range).bind (S := fun r a x c =>
      match r with
      | .ok _ => x = .ok () ∧ c = a.add 1 .written
      | .error f => x = .error f ∧ c = a) fun r => ?_).mono ?_
    · cases r with
      | error f => exact tells_pure _
      | ok _ => exact tells_written hapart l
    · rintro a x c ⟨r, b, hr, hx⟩ hl
      cases r with
      | ok _ =>
        obtain ⟨rfl, rfl⟩ := hx
        rw [outputs_length_of_origin hl] at hr
        exact ⟨b, hr, rfl⟩
      | error f =>
        obtain ⟨rfl, rfl⟩ := hx
        exact hr
  · rintro a x c ⟨b, hx, rfl⟩
    exact after_put hx

/-- The row counts as rejected, and as an error. -/
theorem tells_rejected :
    Tells o (do
      let _ ← perform (.add .rejected 1)
      addError
      return .ok ()) fun a (x : Except Fault Unit) c => x = .ok () ∧ c = a.add 1 .rejected := by
  refine ((tells_act hapart (a := .add .rejected 1) trivial).bind fun _ =>
    (tells_addError hapart).bind fun _ => tells_pure _).mono ?_
  rintro a x c ⟨-, b, ⟨-, rfl⟩, -, b', rfl, rfl, rfl⟩
  exact ⟨rfl, rfl⟩

theorem tells_rejectRow (row : Row) (d : Diagnostic) :
    Tells o (rejectRow row d) fun a x b => Account.After o (.rejectRow row d) x a b := by
  have hfault : ∀ f, Tells o (pure (.error f)) (Reject o row d) := fun f =>
    (tells_pure _).mono fun _ _ _ ⟨hx, hb⟩ => hx ▸ hb
  refine (tells_marked hapart (.reject row d) .rejectDone
    (R := Reject o row d) trivial (fun _ => trivial) (tells_own hapart fun l =>
      tells_ite (fun _ => (hfault _).mono fun _ _ _ h _ => h) fun _ => ?_)).mono ?_
  · cases hout : errorRow row d with
    | error f => exact (hfault f).mono fun _ _ _ h _ => h
    | ok out =>
      refine ((tells_sendError hapart out).bind (S := fun r a x c =>
        match r with
        | .ok _ => x = .ok () ∧ c = a.add 1 .rejected
        | .error f => x = .error f ∧ c = a) fun r => ?_).mono ?_
      · cases r with
        | error f => exact tells_pure _
        | ok _ => exact tells_rejected hapart
      · rintro a x c ⟨r, b, hr, hx⟩ -
        cases r with
        | ok _ =>
          obtain ⟨rfl, rfl⟩ := hx
          exact ⟨out, b, hout, hr, rfl⟩
        | error f =>
          obtain ⟨rfl, rfl⟩ := hx
          exact hr.2
  · rintro a x c ⟨b, hx, rfl⟩
    exact after_reject hapart hx

/-- What a request does tells the account what its answer says. -/
theorem tells_request (q : Request) :
    Tells o q.program fun a x b => Account.After o q x a b := by
  cases q with
  | getRow => exact tells_getRow hapart
  | putRow row => exact tells_putRow hapart row
  | rejectRow row d => exact tells_rejectRow hapart row d
  | endOutput => exact tells_endOutput hapart
  | addError => exact tells_addError hapart
  | add counter n => exact (tells_act hapart (a := .add counter n) trivial).mono fun _ _ _ h => h.2
  | look =>
    exact ((tells_same hapart (a := .own) trivial trivial).bind fun l => tells_pure l.view).mono
      fun _ _ _ ⟨_, _, hb, _, hc⟩ => hc.trans hb
  | isStopped => exact tells_untold hapart (a := .isStopped) trivial trivial
  | stop r => exact tells_stop hapart r
  | addRunErrors n => exact tells_addRunErrors hapart n
  | recordSourceRows n => exact tells_recordSourceRows hapart n
  | note n => exact tells_same hapart (a := .note n) trivial trivial
  | hold => exact tells_same hapart (a := .hold) trivial trivial

/-- Code goes one of its courses, and the account follows the answers. -/
theorem tells_behaviour (b : Behaviour α) :
    Tells o b.program fun x a y => ∃ replies, b.Course replies a ∧ Account.Walk o replies x y := by
  induction b with
  | done a =>
    refine (tells_pure a).mono ?_
    rintro x a y ⟨rfl, rfl⟩
    exact ⟨[], .done a, rfl⟩
  | ask q next ih =>
    refine ((tells_request hapart q).bind ih).mono ?_
    rintro x a y ⟨answer, x', hafter, replies, hcourse, hwalk⟩
    exact ⟨⟨q, answer⟩ :: replies, .ask hcourse, x', hafter, hwalk⟩

end Requests

end Flow
end RowFlow
