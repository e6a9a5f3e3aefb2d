import RowFlow.Proofs.Flow.Account

/-
What a program tells of the account of its copy.  As long as no reason to stop has been
given, the account before and after the program and its result stand in a relation; once
there is a reason nothing is said any more.  The relation of a sequence is the sequence
of the relations, so whole requests are put together from their actions.
-/
namespace RowFlow
namespace Flow

open Program

/-- The flag has a reason; and without one, whatever row set was left had ended before. -/
structure World (s : Shared) : Prop where
  flag : s.control.stopped = true → s.control.reason ≠ none
  left : s.control.reason = none → ∀ (i : Nat) (rs : RowSet), s.rowSets[i]? = some rs →
    rs.detached = true → rs.isDone = true

def guard (n : Node) (p : Position) : Prop :=
  (n = .act .raiseFlag → ¬ p.IsClear) ∧
    ∀ i, n = .act (.detach i) → p.IsClear → p.shared.IsDone i

/-- Every branch leads somewhere, and no two lead to the same row set. -/
structure Apart (o : Local) : Prop where
  nonempty : ∀ b ∈ o.outputs ++ o.errorOutput.toList, b.rowSets ≠ []
  outputs : ∀ (j k : Nat) (b c : Branch), o.outputs[j]? = some b → o.outputs[k]? = some c →
    ∀ i ∈ b.rowSets, i ∈ c.rowSets → j = k
  error : ∀ b ∈ o.outputs, ∀ c ∈ o.errorOutput, ∀ i ∈ b.rowSets, i ∉ c.rowSets

/-- A copy that was made as `o`, whose row sets are there, and that has nothing to look
at any more once it has found that there is nothing more to read. -/
structure Fit (o : Local) (p : Position) : Prop where
  origin : p.own.origin = o
  known : ∀ i ∈ o.outlets, i < p.shared.rowSets.length
  ended : p.IsClear → p.account.ended = true → p.own.pending = []

variable {o : Local} {p q : Position}

theorem fit_stable : Stable World (Fit o) := by
  intro p q hd _ h
  have haccount := Position.account_of_drift hd
  obtain ⟨b, hb⟩ := hd.own
  constructor
  · rw [hb]
    exact h.origin
  · intro i hi
    rw [Shared.Le.length hd.shared]
    exact h.known i hi
  · intro hclear hended
    rw [haccount] at hended
    rw [hb]
    exact h.ended (hclear.before hd.shared) hended

theorem not_stopped (hw : World p.shared) (hc : p.IsClear) : p.shared.control.stopped = false := by
  cases hs : p.shared.control.stopped with
  | false => rfl
  | true => exact absurd hc (hw.flag hs)

section Tells

variable {α β : Type}

def Told (o : Local) (p : Position) (R : Account → α → Account → Prop) (x : α) (q : Position) :
    Prop :=
  Fit o q ∧ (q.IsClear → p.IsClear ∧ R p.account x q.account)

def Tells (o : Local) (r : Program α) (R : Account → α → Account → Prop) : Prop :=
  ∀ p, Fit o p → r.Keeps World guard (Told o p R) p

variable {R R' : Account → α → Account → Prop} {r : Program α}

theorem told_stable (R : Account → α → Account → Prop) (x : α) : Stable World (Told o p R x) := by
  intro q q' hd hw h
  refine ⟨fit_stable q q' hd hw h.1, fun hc => ?_⟩
  rw [Position.account_of_drift hd]
  exact h.2 (hc.before hd.shared)

theorem Tells.mono (h : Tells o r R) (himp : ∀ a x b, R a x b → R' a x b) : Tells o r R' :=
  fun p hp => (h p hp).imp fun _ _ _ hq =>
    ⟨hq.1, fun hc => ⟨(hq.2 hc).1, himp _ _ _ (hq.2 hc).2⟩⟩

theorem tells_pure (x : α) : Tells o (pure x : Program α) fun a y b => y = x ∧ b = a := by
  intro p hp q hd hw
  exact ⟨fit_stable p q hd hw hp, fun hc =>
    ⟨hc.before hd.shared, rfl, Position.account_of_drift hd⟩⟩

theorem Tells.bind {f : α → Program β} {S : α → Account → β → Account → Prop}
    (h : Tells o r R) (hf : ∀ x, Tells o (f x) (S x)) :
    Tells o (r >>= f) fun a y c => ∃ x b, R a x b ∧ S x b y c := by
  intro p hp
  refine (h p hp).chain fun x q _ hq => ?_
  refine (hf x q hq.1).imp fun y q' _ hq' => ⟨hq'.1, fun hc => ?_⟩
  obtain ⟨hc', hs⟩ := hq'.2 hc
  obtain ⟨hc'', hr⟩ := hq.2 hc'
  exact ⟨hc'', x, q.account, hr, hs⟩

theorem tells_ite {c : Prop} [Decidable c] {s : Program α} (h : c → Tells o r R)
    (h' : ¬ c → Tells o s R) : Tells o (if c then r else s) R := by
  split
  · next hc => exact h hc
  · next hc => exact h' hc

end Tells

def Free : Action → Prop
  | .raiseFlag => False
  | .detach _ => False
  | .mark (.got none) => False
  | _ => True

def Chosen (o : Local) (outlet : Outlet) (chosen : Option Nat) : Prop :=
  match o.branch? outlet with
  | none => chosen = none
  | some b => ∃ i ∈ b.rowSets, chosen = some i

def Says (o : Local) : (a : Action) → a.Answer → Prop
  | .own, l => l.origin = o
  | .isStopped, stopped => stopped = false
  | .giveReason _, _ => False
  | .choose outlet, chosen => Chosen o outlet chosen
  | _, _ => True

theorem then_intro {a : Action} {after : a.Answer → Position → Prop}
    (h : ∀ x l s, a.perform p.own p.shared = (some x, l, s) →
      after x ⟨a.deed?.toList ++ p.past, l, s⟩) : a.Then p after := by
  unfold Action.Then
  split
  · next x l s e => exact h x l s e
  · trivial

theorem ended_enter {a : Action} (ha : a ≠ .mark (.got none)) (x : Account) :
    (a.enter x).ended = x.ended := by
  cases a with
  | mark m =>
    cases m with
    | got row =>
      cases row with
      | none => exact absurd rfl ha
      | some row => rfl
    | putDone r => cases r <;> rfl
    | rejectDone r => cases r <;> rfl
    | _ => rfl
  | add counter n => cases counter <;> rfl
  | _ => rfl

theorem pending_of_perform {a : Action} {l l' : Local} {s s' : Shared} {x : a.Answer}
    (h : a.perform l s = (some x, l', s')) (hl : l.pending = []) : l'.pending = [] := by
  cases a with
  | choose b =>
    simp only [Action.perform, Prod.mk.injEq] at h
    obtain ⟨-, rfl, -⟩ := h
    cases b <;> exact hl
  | _ =>
    simp only [Action.perform, Prod.mk.injEq] at h
    obtain ⟨-, rfl, -⟩ := h
    first | exact hl | rfl

theorem told_refl (hp : Fit o p) : Told o p (fun a (_ : Unit) b => b = a) () p :=
  ⟨hp, fun hc => ⟨hc, rfl⟩⟩

theorem Free.ne_got {a : Action} (ha : Free a) : a ≠ .mark (.got none) := by
  rintro rfl
  exact ha

theorem Fit.perform {a : Action} (ha : a ≠ .mark (.got none)) {x : a.Answer} {l : Local}
    {s : Shared} (h : Fit o p) (he : a.perform p.own p.shared = (some x, l, s)) :
    Fit o ⟨a.deed?.toList ++ p.past, l, s⟩ := by
  have hl : (Node.act a).Leads p ⟨a.deed?.toList ++ p.past, l, s⟩ := .act he
  constructor
  · exact hl.origin.trans h.origin
  · intro i hi
    rw [Shared.Le.length hl.shared_le]
    exact h.known i hi
  · intro hc hended
    rw [account_of_act he, ended_enter ha] at hended
    exact pending_of_perform he (h.ended (hc.before hl.shared_le) hended)

theorem exists_current? {b : Branch} (h : b.rowSets ≠ []) :
    ∃ i ∈ b.rowSets, b.current? = some i := by
  have hlt : b.next % b.rowSets.length < b.rowSets.length :=
    Nat.mod_lt _ (List.length_pos_iff.mpr h)
  exact ⟨_, List.getElem_mem hlt, List.getElem?_eq_getElem hlt⟩

theorem Apart.branch_nonempty (h : Apart o) {outlet : Outlet} {b : Branch}
    (hb : o.branch? outlet = some b) : b.rowSets ≠ [] := by
  refine h.nonempty b (List.mem_append.mpr ?_)
  cases outlet with
  | output place => exact .inl (List.mem_of_getElem? hb)
  | error => exact .inr (Option.mem_toList.mpr hb)

/-- A row set belongs to one outlet at most. -/
theorem Apart.outlet_eq (h : Apart o) {outlet outlet' : Outlet} {b c : Branch} {i : Nat}
    (hb : o.branch? outlet = some b) (hc : o.branch? outlet' = some c) (hib : i ∈ b.rowSets)
    (hic : i ∈ c.rowSets) : outlet = outlet' := by
  cases outlet with
  | output j =>
    cases outlet' with
    | output k => rw [h.outputs j k b c hb hc i hib hic]
    | error => exact absurd hic (h.error b (List.mem_of_getElem? hb) c hc i hib)
  | error =>
    cases outlet' with
    | output k => exact absurd hib (h.error c (List.mem_of_getElem? hc) b hb i hic)
    | error => rfl

variable (hapart : Apart o)
include hapart

theorem says_of_perform {a : Action} {x : a.Answer} {l : Local} {s : Shared} (hw : World p.shared)
    (hp : Fit o p) (he : a.perform p.own p.shared = (some x, l, s))
    (hc : s.control.reason = none) : Says o a x := by
  cases a with
  | choose outlet =>
    obtain rfl : (p.own.choose outlet).2 = x := by
      simp only [Action.perform, Prod.mk.injEq, Option.some.injEq] at he
      exact he.1
    have hbranch := p.own.branch?_origin outlet
    rw [hp.origin] at hbranch
    show Chosen o outlet _
    unfold Chosen
    rw [hbranch]
    cases hb : p.own.branch? outlet with
    | none => simp [Local.choose, hb]
    | some b =>
      rw [hb, Option.map_some] at hbranch
      have hsome : b.origin.rowSets ≠ [] := hapart.branch_nonempty hbranch
      rw [Branch.rowSets_origin] at hsome
      obtain ⟨i, hi, hcurrent⟩ := exists_current? hsome
      exact ⟨i, hi, by simpa [Local.choose, hb] using hcurrent⟩
  | own =>
    cases he
    exact hp.origin
  | isStopped =>
    cases he
    exact not_stopped hw hc
  | giveReason r =>
    cases he
    cases hr : p.shared.control.reason <;> simp [Control.giveReason, hr] at hc
  | _ => trivial

theorem tells_act {a : Action} (ha : Free a) :
    Tells o (perform a) fun x y b => Says o a y ∧ b = a.enter x := by
  intro p hp
  refine keeps_act (f := done) (told_stable _ ()) (told_refl hp) fun q hw hq => ⟨?_, ?_⟩
  · refine ⟨fun h => ?_, fun i h => ?_⟩
    · cases h
      exact absurd ha id
    · cases h
      exact absurd ha id
  · refine then_intro fun x l s he q' hd hw' => ?_
    have hl : (Node.act a).Leads q ⟨a.deed?.toList ++ q.past, l, s⟩ := .act he
    refine told_stable _ x _ q' hd hw' ⟨hq.1.perform ha.ne_got he, fun hc => ?_⟩
    obtain ⟨hcp, hsame⟩ := hq.2 (hc.before hl.shared_le)
    exact ⟨hcp, says_of_perform hapart hw hq.1 he hc, by rw [account_of_act he, hsame]⟩

end Flow
end RowFlow
