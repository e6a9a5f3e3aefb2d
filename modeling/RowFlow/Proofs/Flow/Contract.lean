import RowFlow.Proofs.Flow.Seams

/-
The contract of a copy that keeps an account.  At each seam of its life the account
follows a history of the operator.  A copy that has come to its end by itself has seen
the end of all its inputs before it leaves them; this is why no row is discarded.
-/
namespace RowFlow
namespace Flow

open Program

variable {o : Local} {p q : Position} {op : Operator} {α : Type}

/-- Nothing can come from the inputs any more. -/
def Dry (p : Position) : Prop := ∀ i ∈ p.own.inputs, p.shared.IsDone i

def Follows (histories : List Reply → Prop) (p : Position) : Prop :=
  p.IsClear → ∃ replies, histories replies ∧ Account.Walk p.own.origin replies {} p.account

structure Sound (op : Operator) (p : Position) : Prop where
  tidy : Progress.Tidy p
  apart : Apart p.own.origin
  fit : Fit p.own.origin p
  drains : p.own.inputs = [] ∨ op.Drains

theorem origin_of_drift (h : p.Drift q) : q.own.origin = p.own.origin :=
  (Progress.later_of_drift h).origin

theorem Dry.later (h : Dry p) (hl : p.Later q) : Dry q := by
  intro i hi
  rw [Local.inputs_of_origin hl.origin] at hi
  exact (h i hi).later hl.shared

theorem follows_stable (histories : List Reply → Prop) : Stable World (Follows histories) := by
  intro p q hd _ h hc
  rw [origin_of_drift hd, Position.account_of_drift hd]
  exact h (hc.before hd.shared)

/-- A copy that is fit and tidy after a program is sound if it was so before. -/
theorem Sound.next (h : Sound op p) (hfit : Fit p.own.origin q) (htidy : Progress.Tidy q) :
    Sound op q := by
  have horigin := hfit.origin
  refine ⟨htidy, ?_, ?_, ?_⟩
  · rw [horigin]
    exact h.apart
  · rw [horigin]
    exact hfit
  · rw [Local.inputs_of_origin horigin]
    exact h.drains

theorem sound_stable : Stable World (Sound op) := fun p q hd hw h =>
  h.next (fit_stable p q hd hw h.fit) (Progress.tidy_stable p q hd hw h.tidy)

/-- What was told of a program continues the histories. -/
theorem Follows.next {histories histories' : List Reply → Prop} (h : Follows histories p) {x : α}
    {R : Account → α → Account → Prop} (ht : Told p.own.origin p R x q)
    (hr : ∀ replies, histories replies → ∀ a b, R a x b →
      ∃ more, histories' (replies ++ more) ∧ Account.Walk p.own.origin more a b) :
    Follows histories' q := by
  intro hc
  obtain ⟨hcp, htold⟩ := ht.2 hc
  obtain ⟨replies, hh, hw⟩ := h hcp
  obtain ⟨more, hmore, hw'⟩ := hr replies hh _ _ htold
  rw [ht.1.origin]
  exact ⟨replies ++ more, hmore, hw.append hw'⟩

/-- When there was nothing more to read, the inputs have ended. -/
theorem dry_of_ended (hw : World p.shared) (h : Sound op p) {m : op.State}
    (hf : Follows (op.Ended · m) p) (hc : p.IsClear) : Dry p := by
  rcases h.drains with hnone | hdrains
  · intro i hi
    rw [hnone] at hi
    cases hi
  · obtain ⟨replies, hended, hwalk⟩ := hf hc
    obtain ⟨r, hr, hend⟩ := hdrains replies m hended
    have hempty := h.fit.ended hc (hwalk.ended hr hend)
    intro i hi
    rcases h.tidy.active.reads.rest i hi with hpending | hdone | hleft
    · rw [hempty] at hpending
      cases hpending
    · exact hdone
    · exact fun rs hrs => hw.left hc i rs hrs (hleft rs hrs)

section Programs

theorem trans_same {x : α} (h : Told o p Same () q) {R : Account → α → Account → Prop}
    {r : Position} (h' : Told o q R x r) : Told o p R x r := by
  refine ⟨h'.1, fun hc => ?_⟩
  obtain ⟨hcq, hr⟩ := h'.2 hc
  obtain ⟨hcp, hsame⟩ := h.2 hcq
  rw [show q.account = p.account from hsame] at hr
  exact ⟨hcp, hr⟩

theorem told_act {a : Action} (hu : Untold a) (hp : Fit o p) {x : a.Answer} {l : Local}
    {s : Shared} (he : a.perform p.own p.shared = (some x, l, s)) :
    Told o p Same () ⟨a.deed?.toList ++ p.past, l, s⟩ := by
  have hle : p.shared ≤ s := (Node.Leads.act he).shared_le
  have hne : a ≠ .mark (.got none) := by
    rintro rfl
    exact hu
  refine ⟨hp.perform hne he, fun hc => ⟨hc.before hle, ?_⟩⟩
  show _ = _
  rw [account_of_act he]
  cases a <;> first | rfl | exact absurd hu id

/-- Inputs may be left that have ended. -/
theorem keeps_detachAll {places : List Nat} (hp : Fit o p)
    (hdone : p.IsClear → ∀ i ∈ places, p.shared.IsDone i) :
    (detachAll places).Keeps World guard (Told o p Same) p := by
  induction places generalizing p with
  | nil => exact tells_done () p hp
  | cons i rest ih =>
    refine keeps_perform fun q hd hw => ?_
    have hq := told_stable Same () p q hd hw (told_refl hp)
    have hdone' : q.IsClear → ∀ j ∈ i :: rest, q.shared.IsDone j := fun hc j hj =>
      (hdone (hc.before hd.shared) j hj).later hd.shared
    refine ⟨⟨by simp, ?_⟩, then_intro fun _ l s he => ?_⟩
    · intro j hj hc
      cases hj
      exact hdone' hc i List.mem_cons_self
    · have hle : q.shared ≤ s := (Node.Leads.act he).shared_le
      have hsame : Told o q Same () ⟨q.past, l, s⟩ := told_act (a := .detach i) trivial hq.1 he
      refine (ih hsame.1 fun hc j hj => ?_).imp fun _ _ _ hr =>
        trans_same hq (trans_same hsame hr)
      exact (hdone' (hc.before hle) j (List.mem_cons_of_mem i hj)).later hle

variable (hapart : Apart o)
include hapart

theorem keeps_detachInputs (hp : Fit o p) (hdry : p.IsClear → Dry p) :
    detachInputs.Keeps World guard (Told o p Same) p := by
  refine keeps_perform fun q hd hw => ⟨⟨by simp, by simp⟩, ?_⟩
  have hq := told_stable Same () p q hd hw (told_refl hp)
  have hdone : q.IsClear → ∀ i ∈ q.own.inputs, q.shared.IsDone i := fun hc =>
    (hdry (hc.before hd.shared)).later (Progress.later_of_drift hd)
  refine (keeps_detachAll hq.1 hdone).chain fun _ r _ hr => ?_
  exact (tells_same hapart (a := .leaveInputs) trivial trivial r hr.1).imp
    fun _ _ _ hlast => trans_same (trans_same hq hr) hlast

theorem keeps_leave (hp : Fit o p) (hdry : p.IsClear → Dry p) (m : op.State) (e : Outcome) :
    (leave op m e).Keeps World guard (Told o p fun a _ b => ∃ more m' e,
      (op.dispose m).Course more (m', e) ∧ Account.Walk o more a b) p := by
  have hlater : ∀ q, p.Later q → q.IsClear → Dry q := fun q hl hc =>
    (hdry (hc.before hl.shared)).later hl
  refine ((tells_endOutput hapart p hp).also (keeps_lasting hlater)).chain fun _ q _ hq => ?_
  refine (keeps_detachInputs hapart hq.1.1 hq.2).chain fun _ r _ hr => ?_
  have hrest : Tells o (do
      perform (.settle e)
      perform (.publish e.state)
      dispose op m) fun a _ b => ∃ more m' e,
        (op.dispose m).Course more (m', e) ∧ Account.Walk o more a b := by
    refine ((tells_same hapart (a := .settle e) trivial trivial).bind fun _ =>
      (tells_same hapart (a := .publish e.state) trivial trivial).bind fun _ =>
        tells_dispose hapart m).mono ?_
    rintro a x b ⟨-, _, rfl, -, _, rfl, h⟩
    exact h
  exact (hrest r hr.1).imp fun _ _ _ hlast =>
    trans_same (trans_same hq.1 hr) hlast

theorem tells_abandon (m : op.State) : Tells o (abandon op m) fun _ _ _ => True := by
  have hgiveUp : Tells o (do endOutput; dispose op m) fun _ _ _ => True :=
    ((tells_endOutput hapart).bind fun _ => tells_dispose hapart m).mono fun _ _ _ _ => trivial
  refine tells_own hapart fun l => ?_
  split
  · refine ((tells_same hapart (a := .settle .stopped) trivial trivial).bind fun _ =>
      (tells_same hapart (a := .publish .stopped) trivial trivial).bind fun _ => hgiveUp).mono ?_
    exact fun _ _ _ _ _ => trivial
  · exact hgiveUp.mono fun _ _ _ _ _ => trivial

end Programs

def contract (op : Operator) : Contract World op where
  guard _ := guard
  made p := Sound op p ∧ Follows (· = []) p
  ready m p := Sound op p ∧ Follows (op.History · m) p
  refused _ := Sound op
  idle m p := Sound op p ∧ Follows (op.History · m) p
  leaving m _ p := Sound op p ∧ Follows (op.Ended · m) p
  gone atWork p := atWork = true → Follows op.Spent p ∧ (p.IsClear → Dry p)

theorem stands_stable (histories : List Reply → Prop) :
    Stable World fun p => Sound op p ∧ Follows histories p := fun p q hd hw h =>
  ⟨sound_stable p q hd hw h.1, follows_stable histories p q hd hw h.2⟩

theorem asks_any (op : Operator) : op.Asks fun q => False → q ≠ .hold :=
  op.asks_all.mono fun _ _ => False.elim

theorem keeps_begin (h : Sound op p) (hf : Follows (· = []) p) :
    (begin op op.start).Keeps World guard (contract op).begun p := by
  refine ((tells_begin h.apart op.start p h.fit).also
    (Progress.steady_begin (asks_any op) op.start p h.tidy)).imp ?_
  rintro ⟨m, r⟩ q - ⟨htold, htidy⟩
  have hq := h.next htold.1 htidy
  cases r with
  | error f => exact hq
  | ok u =>
    refine ⟨hq, hf.next htold ?_⟩
    rintro replies rfl a b hr
    obtain ⟨more, hcourse, hwalk⟩ := hr u rfl
    exact ⟨more, .start hcourse, hwalk⟩

theorem keeps_round {m : op.State} (h : Sound op p) (hf : Follows (op.History · m) p) :
    (round op m).Keeps World guard (contract op).turned p := by
  refine ((tells_round h.apart m p h.fit).also
    (Progress.steady_round (asks_any op) m p h.tidy)).imp ?_
  rintro ⟨m', t⟩ q - ⟨htold, htidy⟩
  have hq := h.next htold.1 htidy
  cases t with
  | again =>
    refine ⟨hq, hf.next htold ?_⟩
    rintro replies hh a b ⟨more, hround, hwalk⟩
    exact ⟨more, .again hh hround, hwalk⟩
  | leave e =>
    refine ⟨hq, hf.next htold ?_⟩
    rintro replies hh a b ⟨more, hround, hwalk⟩
    cases hround with
    | finished hc => exact ⟨more, ⟨hh, .finished hc⟩, hwalk⟩

theorem lawful_contract (op : Operator) : (contract op).Lawful where
  made := stands_stable _
  ready _ := stands_stable _
  refused _ := sound_stable
  idle _ := stands_stable _
  gone _ := by
    intro p q hd hw h hwork
    refine ⟨follows_stable _ p q hd hw (h hwork).1, fun hc => ?_⟩
    exact ((h hwork).2 (hc.before hd.shared)).later (Progress.later_of_drift hd)
  begin p _ h := keeps_begin h.1 h.2
  start m p _ h := by
    have htold : Told p.own.origin p Same () _ :=
      told_act (a := .publish .running) trivial h.1.fit rfl
    refine ⟨⟨by simp, by simp⟩, h.1.next htold.1 ?_, h.2.next htold ?_⟩
    · exact h.1.tidy.later ⟨rfl, le_refl _⟩ rfl (by simp [Status.set]) rfl
    · rintro replies hh a b rfl
      exact ⟨[], by rwa [List.append_nil], rfl⟩
  round m p _ h := keeps_round h.1 h.2
  leave m e p hw h := by
    have hdry := dry_of_ended hw h.1 h.2
    have hlasting : ∀ q, p.Later q → q.IsClear → Dry q := fun q hl hc =>
      (hdry (hc.before hl.shared)).later hl
    refine ((keeps_leave h.1.apart h.1.fit hdry m e).also (keeps_lasting hlasting)).imp ?_
    rintro _ q - ⟨htold, hq⟩ -
    refine ⟨h.2.next htold ?_, hq⟩
    rintro replies hh a b ⟨more, m', e, hcourse, hwalk⟩
    exact ⟨more, ⟨hh, hcourse⟩, hwalk⟩
  abandon m p _ h := by
    have hsound : Sound op p := h.elim And.left id
    refine (tells_abandon hsound.apart m p hsound.fit).imp ?_
    rintro _ q - - hwork
    cases hwork

section Leads

variable {n : Node} {s : Shared} {i j : Nat} {rs rs' : RowSet}

theorem stopped_of_leads (hl : n.Leads p q) (h : q.shared.control.stopped = true) :
    p.shared.control.stopped = true ∨ n = .act .raiseFlag := by
  cases hl with
  | @act a p x l s ha =>
    cases a with
    | raiseFlag => exact .inr rfl
    | close i =>
      cases ha
      rw [Shared.control_close] at h
      exact .inl h
    | _ =>
      simp only [Action.perform, Prod.mk.injEq] at ha
      obtain ⟨-, -, rfl⟩ := ha
      exact .inl h
  | pass => exact .inl h
  | drop _ => exact .inl h
  | take _ _ =>
    rw [Shared.control_poll] at h
    exact .inl h
  | give _ =>
    rw [Shared.control_offer] at h
    exact .inl h

def IsLeft (s : Shared) (i : Nat) : Prop := ∃ rs, s.rowSets[i]? = some rs ∧ rs.detached = true

theorem isLeft_set (hrs : s.rowSets[j]? = some rs) (hsame : rs'.detached = rs.detached)
    (h : IsLeft { s with rowSets := s.rowSets.set j rs' } i) : IsLeft s i := by
  obtain ⟨x, hx, hd⟩ := h
  by_cases hij : j = i
  · subst hij
    obtain rfl : x = rs' := by
      have hlt := (List.getElem?_eq_some_iff.mp hrs).1
      simpa [List.getElem?_set_self hlt] using hx.symm
    exact ⟨rs, hrs, hsame ▸ hd⟩
  · simp only [List.getElem?_set_ne hij] at hx
    exact ⟨x, hx, hd⟩

theorem isLeft_poll (h : IsLeft (s.poll j).1 i) : IsLeft s i := by
  unfold Shared.poll at h
  split at h
  · exact h
  · next rs hrs =>
    refine isLeft_set hrs ?_ h
    unfold RowSet.poll
    split <;> rfl

theorem isLeft_offer {row : Row} (h : IsLeft (s.offer j row).1 i) : IsLeft s i := by
  unfold Shared.offer at h
  split at h
  · exact h
  · next rs hrs =>
    refine isLeft_set hrs ?_ h
    unfold RowSet.offer
    repeat' split
    all_goals rfl

theorem isLeft_close (h : IsLeft (s.close j).1 i) : IsLeft s i := by
  unfold Shared.close at h
  split at h
  · exact h
  · next rs hrs =>
    refine isLeft_set hrs ?_ h
    unfold RowSet.close
    split <;> rfl

theorem isLeft_of_leads (hl : n.Leads p q) (h : IsLeft q.shared i) :
    IsLeft p.shared i ∨ n = .act (.detach i) := by
  cases hl with
  | @act a p x l s ha =>
    cases a with
    | detach j =>
      by_cases hij : j = i
      · subst hij
        exact .inr rfl
      · cases ha
        obtain ⟨x, hx, hd⟩ := h
        simp only [Shared.detach, List.getElem?_modify, hij, if_false, id_map'] at hx
        exact .inl ⟨x, hx, hd⟩
    | close j =>
      cases ha
      exact .inl (isLeft_close h)
    | _ =>
      simp only [Action.perform, Prod.mk.injEq] at ha
      obtain ⟨-, -, rfl⟩ := ha
      exact .inl h
  | pass => exact .inl h
  | drop _ => exact .inl h
  | take _ _ => exact .inl (isLeft_poll h)
  | give _ => exact .inl (isLeft_offer h)

theorem World.leads (hw : World p.shared) (hg : guard n p) (hl : n.Leads p q) :
    World q.shared := by
  have hle := hl.shared_le
  constructor
  · intro hs hc
    have hcp : p.IsClear := Position.IsClear.before (q := q) hc hle
    rcases stopped_of_leads hl hs with hs | rfl
    · exact hw.flag hs hcp
    · exact hg.1 rfl hcp
  · intro hc i rs' hrs' hd
    have hcp : p.IsClear := Position.IsClear.before (q := q) hc hle
    have hdone : p.shared.IsDone i := by
      rcases isLeft_of_leads hl ⟨rs', hrs', hd⟩ with ⟨rs, hrs, hd'⟩ | rfl
      · intro rs₁ hrs₁
        exact hw.left hcp i rs₁ hrs₁ (Option.some.inj (hrs.symm.trans hrs₁) ▸ hd')
      · exact hg.2 i rfl hcp
    exact hdone.later hle rs' hrs'

end Leads

def agreement : Agreement where
  world := World
  fits _ := True
  contract op _ := contract op

theorem world_giveReason (s : Shared) (r : StopReason) :
    World { s with control := s.control.giveReason r } := by
  have hsome : (s.control.giveReason r).reason ≠ none := by
    cases h : s.control.reason <;> simp [Control.giveReason, h]
  exact ⟨fun _ => hsome, fun hc => absurd hc hsome⟩

theorem lawful_agreement : agreement.Lawful where
  contract op _ := lawful_contract op
  leads _ _ _ _ _ _ hw hg hl := hw.leads hg hl
  external s _ := world_giveReason s _
  raise _ _ hr := ⟨fun _ => hr, fun hc => absurd hc hr⟩
  refusal _ _ _ _ _ _ _ := world_giveReason _ _

end Flow
end RowFlow
