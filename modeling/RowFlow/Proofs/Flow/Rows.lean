import RowFlow.Proofs.Flow.Tells

/-
Rows on their way, and what they tell of the account.  A search that comes back empty has
found that there is nothing more to read.  A row that is sent along a branch goes to one
of its row sets; nothing is dropped or discarded as long as no reason to stop has been
given.  Where a row set turns a row away, the fault is no row failure.
-/
namespace RowFlow
namespace Flow

open Program

variable {o : Local} {p q : Position} {α β : Type}

def Same (a : Account) (_ : α) (b : Account) : Prop := b = a

theorem tells_done (x : α) : Tells o (pure x : Program α) Same :=
  (tells_pure x).mono fun _ _ _ h => h.2

theorem Tells.then {r : Program α} {f : α → Program β} (h : Tells o r Same)
    (hf : ∀ x, Tells o (f x) Same) : Tells o (r >>= f) Same :=
  (h.bind hf).mono fun _ _ _ ⟨_, _, hb, hc⟩ => hc.trans hb

def Untold : Action → Prop
  | .mark _ => False
  | .add _ _ => False
  | _ => True

section Quiet

variable (hapart : Apart o)
include hapart

theorem tells_untold {a : Action} (ha : Free a) (hu : Untold a) :
    Tells o (perform a) fun x y b => Says o a y ∧ b = x :=
  (tells_act hapart ha).mono fun x y b h => ⟨h.1, by cases a <;> first | exact h.2 | cases hu⟩

theorem tells_same {a : Action} (ha : Free a) (hu : Untold a) : Tells o (perform a) Same :=
  (tells_untold hapart ha hu).mono fun _ _ _ h => h.2

theorem tells_own {f : Local → Program α} {R : Account → α → Account → Prop}
    (h : ∀ l, Tells o (f l) fun a x b => l.origin = o → R a x b) :
    Tells o (perform .own >>= f) R :=
  ((tells_untold hapart (a := .own) trivial trivial).bind h).mono
    fun _ _ _ ⟨_, _, ⟨hl, hsame⟩, hr⟩ => hsame ▸ hr hl

/-- In a run that goes on the flag is down. -/
theorem tells_unlessStopped {x : α} {r : Program α} {R : Account → α → Account → Prop}
    (h : Tells o r R) :
    Tells o (perform .isStopped >>= fun stopped => if stopped then pure x else r) R := by
  refine ((tells_untold hapart (a := .isStopped) trivial trivial).bind
    (S := fun stopped a y b => stopped = false → R a y b) fun stopped => ?_).mono ?_
  · cases stopped with
    | true => exact (tells_pure x).mono fun _ _ _ _ hs => by cases hs
    | false => exact h.mono fun _ _ _ hr _ => hr
  · rintro a y b ⟨stopped, b', ⟨hs, rfl⟩, hr⟩
    exact hr hs

theorem tells_stop (r : StopReason) : Tells o (stop r) fun _ _ _ => False := by
  intro p hp
  refine (tells_untold hapart (a := .giveReason r) trivial trivial p hp).chain fun _ q _ hq => ?_
  have hnot : ¬ q.IsClear := fun hc => (hq.2 hc).2.1
  have hstable : Stable World fun q => Fit o q ∧ ¬ q.IsClear := by
    intro q q' hd hw h
    exact ⟨fit_stable q q' hd hw h.1, fun hc => h.2 (hc.before hd.shared)⟩
  refine keeps_act (f := done) hstable ⟨hq.1, hnot⟩ fun q _ hq => ⟨?_, ?_⟩
  · exact ⟨fun _ => hq.2, fun i h => by cases h⟩
  · refine then_intro fun x l s he q' hd hw => ?_
    have hl : (Node.act .raiseFlag).Leads q ⟨Action.raiseFlag.deed?.toList ++ q.past, l, s⟩ :=
      .act he
    have hnot' : ¬ Position.IsClear ⟨Action.raiseFlag.deed?.toList ++ q.past, l, s⟩ :=
      fun hc => hq.2 (hc.before hl.shared_le)
    exact told_stable _ x _ q' hd hw ⟨hq.1.perform (by simp) he, fun hc => absurd hc hnot'⟩

theorem tells_addRunErrors (n : Nat) : Tells o (addRunErrors n) Same := by
  refine (tells_same hapart (a := .countErrors n) trivial trivial).then fun tally => ?_
  refine tells_ite (fun _ => ?_) fun _ => tells_done _
  exact ((tells_stop hapart _).mono fun _ _ _ h => absurd h id).then fun _ => tells_done _

theorem tells_recordSourceRows (n : Nat) : Tells o (recordSourceRows n) Same := by
  refine (tells_same hapart (a := .countSourceRows n) trivial trivial).then fun tally => ?_
  refine tells_ite (fun _ => ?_) fun _ => tells_done _
  exact ((tells_stop hapart _).mono fun _ _ _ h => absurd h id).then fun _ => tells_done _

theorem tells_addError : Tells o addError Same := by
  have hadd : Tells o (perform (.add .errors 1)) Same :=
    (tells_act hapart (a := .add .errors 1) trivial).mono fun _ _ _ h => h.2
  exact hadd.then fun _ => (tells_addRunErrors hapart 1).then fun _ => tells_done _

theorem tells_closeAll (places : List Nat) : Tells o (closeAll places) Same := by
  induction places with
  | nil => exact tells_done _
  | cons i rest ih => exact (tells_same hapart (a := .close i) trivial trivial).then fun _ => ih

theorem tells_endOutput : Tells o endOutput Same := by
  refine (tells_same hapart (a := .own) trivial trivial).then fun l => ?_
  refine tells_ite (fun _ => tells_done _) fun _ => ?_
  exact (tells_same hapart (a := .endOutput) trivial trivial).then fun _ =>
    tells_closeAll hapart _

end Quiet

def Received : Option Row → Account → Account → Prop
  | none, a, b => b = a
  | some row, a, b =>
    ∃ i, b = { a with takes := (i, row) :: a.takes, readCount := a.readCount + 1 }

/-- The condition on a search that has come to its end: if it came back empty there is
nothing to look at. -/
def Found (o : Local) (p : Position) (x : Option Row) (q : Position) : Prop :=
  Fit o q ∧ (q.IsClear →
    (p.IsClear ∧ Received x p.account q.account) ∧ (x = none → q.own.pending = []))

theorem found_stable (x : Option Row) : Stable World (Found o p x) := by
  intro q q' hd hw h
  refine ⟨fit_stable q q' hd hw h.1, fun hc => ?_⟩
  obtain ⟨b, hb⟩ := hd.own
  rw [Position.account_of_drift hd, hb]
  exact h.2 (hc.before hd.shared)

theorem keeps_receive (hp : Fit o p) :
    (receive .start done).Keeps World guard (Found o p) p := by
  intro q hd hw
  refine ⟨Told o p Same (), told_stable Same () p q hd hw (told_refl hp), ?_⟩
  constructor
  · exact told_stable Same ()
  · exact fun q _ _ => ⟨fun h => by simp at h, fun i h => by simp at h⟩
  · exact fun q _ hq => ⟨⟨hq.1.origin, hq.1.known, hq.1.ended⟩, hq.2⟩
  · refine fun q _ hq _ => ⟨⟨hq.1.origin, hq.1.known, fun hc he => ?_⟩, hq.2⟩
    show q.own.pending.eraseIdx q.own.place = []
    rw [hq.1.ended hc he]
    rfl
  · intro q hw hq hend q' hd hw'
    refine found_stable none q q' hd hw' ⟨hq.1, fun hc => ⟨hq.2 hc, fun _ => ?_⟩⟩
    rcases hend with hstopped | hempty
    · rw [not_stopped hw hc] at hstopped
      cases hstopped
    · exact hempty
  · intro q i row hw hq hi hrow q' hd hw'
    have hl : Node.receive.Leads q ⟨.take i row :: q.past, q.own.taken row, (q.shared.poll i).1⟩ :=
      .take hi hrow
    refine found_stable (some row) _ q' hd hw' ⟨⟨hl.origin.trans hq.1.origin, ?_, ?_⟩, fun hc => ?_⟩
    · intro j hj
      rw [Shared.Le.length hl.shared_le]
      exact hq.1.known j hj
    · intro hc he
      have hnone := hq.1.ended (hc.before hl.shared_le) he
      rw [hnone] at hi
      cases hi
    · obtain ⟨hcp, hsame⟩ := hq.2 (hc.before hl.shared_le)
      refine ⟨⟨hcp, i, ?_⟩, fun h => by cases h⟩
      rw [← show q.account = p.account from hsame]
      rfl

/-- What was found is marked. -/
theorem Found.marked {x : Option Row} (hpq : Told o p Same () q) {r : Position}
    (h : Found o q x r) :
    Told o p (fun a x b => Account.After o .getRow x a b) x
      { r with past := .mark (.got x) :: r.past } := by
  have haccount : Position.account { r with past := .mark (.got x) :: r.past } =
      r.account.note (.mark (.got x)) := account_of_act (a := .mark (.got x)) rfl
  refine ⟨⟨h.1.origin, h.1.known, fun hc he => ?_⟩, fun hc => ?_⟩
  · cases x with
    | none => exact (h.2 hc).2 rfl
    | some row =>
      rw [haccount] at he
      exact h.1.ended hc he
  · obtain ⟨⟨hcq, hr⟩, -⟩ := h.2 hc
    obtain ⟨hcp, hsame⟩ := hpq.2 hcq
    refine ⟨hcp, ?_⟩
    rw [show q.account = p.account from hsame] at hr
    rw [haccount]
    cases x with
    | none =>
      rw [show r.account = p.account from hr]
      rfl
    | some row =>
      obtain ⟨i, hi⟩ := hr
      exact ⟨i, by rw [hi]; rfl⟩

theorem tells_getRow (hapart : Apart o) :
    Tells o getRow fun a x b => Account.After o .getRow x a b := by
  intro p hp
  have hmark : Tells o (perform (.mark .get)) Same :=
    (tells_act hapart (a := .mark .get) trivial).mono fun _ _ _ h => h.2
  refine (hmark p hp).chain fun _ q _ hq => ?_
  refine (keeps_receive hq.1).chain fun x r _ hr => ?_
  refine keeps_act (found_stable x) hr fun r _ hr => ⟨?_, ?_⟩
  · exact ⟨fun h => by simp at h, fun i h => by simp at h⟩
  · refine then_intro fun _ l s he => ?_
    cases he
    exact fun r' hd hw => told_stable _ x _ r' hd hw (hr.marked hq)

def Fed (b : Option Branch) (row : Row) (x y : Account) : Prop :=
  match b with
  | none => y = x
  | some b => ∃ i ∈ b.rowSets, y = x.note (.give i row)

def NoRowFailure (f : Fault) : Prop := ∀ row d, f ≠ .rowFailed row d

theorem noRowFailure_of_offer {s : Shared} {i : Nat} {row : Row} {f : Fault}
    (h : (s.offer i row).2 = .error f) : NoRowFailure f := by
  unfold Shared.offer at h
  split at h
  · cases h
  · next rs _ =>
    unfold RowSet.offer at h
    split at h
    · cases h
      exact fun _ _ h => by cases h
    · split at h
      · cases h
      · split at h
        · cases h
        · split at h
          · cases h
            exact fun _ _ h => by cases h
          · cases h

/-- In a run that goes on no row is discarded: who has left a row set has seen its end. -/
theorem not_discarded (hw : World p.shared) (hc : p.IsClear) {i : Nat} {row : Row}
    (hi : i < p.shared.rowSets.length) : (p.shared.offer i row).2 ≠ .ok .discarded := by
  intro h
  unfold Shared.offer at h
  rw [List.getElem?_eq_getElem hi] at h
  simp only [RowSet.offer] at h
  split at h
  · cases h
  · next hopen =>
    split at h
    · next hleft =>
      have hdone := hw.left hc i _ (List.getElem?_eq_getElem hi) hleft
      simp only [RowSet.isDone, Bool.and_eq_true] at hdone
      exact hopen hdone.1
    · split at h
      · cases h
      · split at h <;> cases h

def Delivered (i : Nat) (row : Row) (a : Account) (x : Except Fault Delivery) (b : Account) :
    Prop :=
  match x with
  | .ok _ => b = a.note (.give i row)
  | .error f => NoRowFailure f ∧ b = a

theorem tells_deliver (i : Nat) (row : Row) :
    Tells o (deliver i row false done) fun a x b => i ∈ o.outlets → Delivered i row a x b := by
  intro p hp q hd hw
  have hq := told_stable Same () p q hd hw (told_refl hp)
  constructor
  · exact ⟨fun h => by simp at h, fun j h => by simp at h⟩
  · intro ha q' hd' hw'
    have hl : (Node.deliver i row).Leads q
        ⟨.give i row :: q.past, q.own, (q.shared.offer i row).1⟩ := .give ha
    refine told_stable _ _ _ q' hd' hw' ⟨⟨hq.1.origin, ?_, ?_⟩, fun hc => ?_⟩
    · intro j hj
      rw [Shared.Le.length hl.shared_le]
      exact hq.1.known j hj
    · exact fun hc he => hq.1.ended (hc.before hl.shared_le) he
    · obtain ⟨hcp, hsame⟩ := hq.2 (hc.before hl.shared_le)
      refine ⟨hcp, fun _ => ?_⟩
      rw [← show q.account = p.account from hsame]
      rfl
  · intro hdiscarded q' hd' hw'
    refine told_stable _ _ q q' hd' hw' ⟨hq.1, fun hc => ⟨(hq.2 hc).1, fun hi => ?_⟩⟩
    exact absurd hdiscarded (not_discarded hw hc (hq.1.known i hi))
  · intro f hf q' hd' hw'
    refine told_stable _ _ q q' hd' hw' ⟨hq.1, fun hc => ⟨(hq.2 hc).1, fun _ => ?_⟩⟩
    exact ⟨noRowFailure_of_offer hf, (hq.2 hc).2⟩
  · intro hstopped q' hd' hw'
    refine told_stable _ _ q q' hd' hw' ⟨hq.1, fun hc => ?_⟩
    rw [not_stopped hw hc] at hstopped
    cases hstopped

theorem mem_outlets_of_branch? {outlet : Outlet} {b : Branch} (hb : o.branch? outlet = some b)
    {i : Nat} (hi : i ∈ b.rowSets) : i ∈ o.outlets := by
  refine List.mem_flatMap.mpr ⟨b, List.mem_append.mpr ?_, hi⟩
  cases outlet with
  | output place => exact .inl (List.mem_of_getElem? hb)
  | error => exact .inr (Option.mem_toList.mpr hb)

def SentTo (o : Local) (outlet : Outlet) (row : Row) (a : Account) (x : Except Fault Unit)
    (b : Account) : Prop :=
  match x with
  | .ok _ => Fed (o.branch? outlet) row a b
  | .error f => NoRowFailure f ∧ b = a

theorem sentTo_none {outlet : Outlet} {row : Row} {a : Account} (h : Chosen o outlet none) :
    SentTo o outlet row a (.ok ()) a := by
  cases hb : o.branch? outlet with
  | none => simp [SentTo, Fed, hb]
  | some b => simp [Chosen, hb] at h

theorem sentTo_some {outlet : Outlet} {row : Row} {a b : Account} {i : Nat}
    {x : Except Fault Delivery} (hi : Chosen o outlet (some i))
    (h : i ∈ o.outlets → Delivered i row a x b) :
    SentTo o outlet row a (x.map fun _ => ()) b := by
  cases hb : o.branch? outlet with
  | none => simp [Chosen, hb] at hi
  | some branch =>
    simp only [Chosen, hb, Option.some.injEq] at hi
    obtain ⟨j, hj, rfl⟩ := hi
    have hdelivered := h (mem_outlets_of_branch? hb hj)
    cases x with
    | ok d => simpa [SentTo, Fed, hb, Except.map] using ⟨i, hj, hdelivered⟩
    | error f => exact hdelivered

section Sends

variable (hapart : Apart o)
include hapart

theorem tells_choose (outlet : Outlet) :
    Tells o (perform (.choose outlet)) fun a x b => Chosen o outlet x ∧ b = a :=
  tells_untold hapart (a := .choose outlet) trivial trivial

theorem tells_sendTo (outlet : Outlet) (row : Row) :
    Tells o (sendTo outlet row) (SentTo o outlet row) := by
  refine ((tells_choose hapart outlet).bind
    (S := fun x a y b => Chosen o outlet x → SentTo o outlet row a y b) fun x => ?_).mono ?_
  · cases x with
    | none =>
      refine (tells_pure _).mono ?_
      rintro a y b ⟨rfl, rfl⟩ hx
      exact sentTo_none hx
    | some i =>
      refine ((tells_deliver i row).bind fun r => tells_pure (r.map fun _ => ())).mono ?_
      rintro a y b ⟨r, b', hr, rfl, rfl⟩ hx
      exact sentTo_some hx hr
  · rintro a y b ⟨x, b', ⟨hx, rfl⟩, hrest⟩
    exact hrest hx

theorem tells_sendError (row : Row) : Tells o (sendError row) (SentTo o .error row) := by
  refine ((tells_choose hapart .error).bind
    (S := fun x a y b => Chosen o .error x → SentTo o .error row a y b) fun x => ?_).mono ?_
  · cases x with
    | none =>
      refine (tells_pure _).mono ?_
      rintro a y b ⟨rfl, rfl⟩ hx
      exact sentTo_none hx
    | some i =>
      refine tells_unlessStopped hapart ?_
      refine ((tells_deliver i row).bind fun r => tells_pure (r.map fun _ => ())).mono ?_
      rintro a y b ⟨r, b', hr, rfl, rfl⟩ hx
      exact sentTo_some hx hr
  · rintro a y b ⟨x, b', ⟨hx, rfl⟩, hrest⟩
    exact hrest hx

end Sends

end Flow
end RowFlow
