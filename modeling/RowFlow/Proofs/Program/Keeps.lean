import RowFlow.Proofs.Growth

/-
What holds all the way through a program, whatever other copies do between its
actions.

`p.Keeps W G Q pos` says of the program `p` of a copy that stands at `pos`: whenever
it has its turn, the guard `G` holds for what it is about to do, and if it comes to
its end with the value `a` then `Q a` holds.  Between two actions of the copy its
position drifts: what is shared goes up in the order of `Shared.Le`, and stays
inside `W`, which all parties of a run keep together.  Since the drift is built into
the definition, `Keeps` itself is stable under it.

The definition follows the program tree.  A search for a row may go around its loop
any number of times, so there it asks for an invariant of the loop.  The rules for
composing programs are `Keeps.bind`, `Keeps.mono` and `Keeps.and`, and `Keeps.step`
says that a step of the program leaves a program that keeps the same.
-/
namespace RowFlow

/-- What can be told of an action afterwards: a mark was passed, a row was taken from
a row set, or a row was given to one and accepted. -/
inductive Deed where
  | mark (m : Mark)
  | take (rowSet : Nat) (row : Row)
  | give (rowSet : Nat) (row : Row)

/-- Where a copy stands: what it has done, the latest first, what is its own, and what
it shares with others. -/
structure Position where
  past : List Deed
  own : Local
  shared : Shared

namespace Position

/-- What others may have changed when a copy has its turn again. -/
structure Drift (p q : Position) : Prop where
  past : q.past = p.past
  own : ∃ b, q.own = { p.own with cancelled := b }
  shared : p.shared ≤ q.shared

theorem Drift.refl (p : Position) : p.Drift p := ⟨rfl, ⟨p.own.cancelled, rfl⟩, le_refl _⟩

theorem Drift.trans {p q r : Position} (h : p.Drift q) (h' : q.Drift r) : p.Drift r := by
  obtain ⟨b, hb⟩ := h.own
  obtain ⟨b', hb'⟩ := h'.own
  exact ⟨h'.past.trans h.past, ⟨b', by rw [hb', hb]⟩, le_trans h.shared h'.shared⟩

end Position

/-- A condition on positions that others cannot break. -/
def Stable (W : Shared → Prop) (P : Position → Prop) : Prop :=
  ∀ p q : Position, p.Drift q → W q.shared → P p → P q

inductive Node where
  | act (a : Action)
  | receive
  | deliver (rowSet : Nat) (row : Row)

namespace Action

def deed? : Action → Option Deed
  | mark m => some (.mark m)
  | _ => none

end Action

namespace Program

variable {α β : Type}

def node? : Program α → Option Node
  | done _ => none
  | act a _ => some (.act a)
  | receive _ _ => some .receive
  | deliver i row _ _ => some (.deliver i row)

def lookDeed? (l : Local) (s : Shared) : Option Deed :=
  match l.pending[l.place]?, (look l s).2 with
  | some i, .row row => some (.take i row)
  | _, _ => none

def deed? (p : Program α) (l : Local) (s : Shared) : Option Deed :=
  match p with
  | act a _ => a.deed?
  | receive .start _ => none
  | receive _ _ => lookDeed? l s
  | deliver i row false _ =>
    match (s.offer i row).2 with
    | .ok .accepted => some (.give i row)
    | _ => none
  | _ => none

end Program

section Conditions

variable (W : Shared → Prop) (G : Node → Position → Prop)

/-- A search for a row, with `J` as the invariant of its loop: `atEnd` holds when it ends
without a row, and `onRow` when it has taken one. -/
structure Searches (J atEnd : Position → Prop) (onRow : Row → Position → Prop) : Prop where
  stable : Stable W J
  guard : ∀ p, W p.shared → J p → G .receive p
  pass : ∀ p, W p.shared → J p → J { p with own := p.own.pass }
  drop : ∀ p, W p.shared → J p →
    (∀ i, p.own.pending[p.own.place]? = some i → (p.shared.poll i).2 = .done) →
    J { p with own := p.own.drop }
  ended : ∀ p, W p.shared → J p → p.shared.control.stopped = true ∨ p.own.pending = [] → atEnd p
  row : ∀ p i row, W p.shared → J p → p.own.pending[p.own.place]? = some i →
    (p.shared.poll i).2 = .row row →
    onRow row ⟨.take i row :: p.past, p.own.taken row, (p.shared.poll i).1⟩

structure Delivers (i : Nat) (row : Row) (p : Position)
    (after : Except Fault Delivery → Position → Prop) : Prop where
  guard : G (.deliver i row) p
  accepted : (p.shared.offer i row).2 = .ok .accepted →
    after (.ok .accepted) ⟨.give i row :: p.past, p.own, (p.shared.offer i row).1⟩
  discarded : (p.shared.offer i row).2 = .ok .discarded → after (.ok .discarded) p
  refused : ∀ f, (p.shared.offer i row).2 = .error f → after (.error f) p
  dropped : p.shared.control.stopped = true → after (.ok .dropped) p

def Action.Then (a : Action) (p : Position) (after : a.Answer → Position → Prop) : Prop :=
  match a.perform p.own p.shared with
  | (some x, l, s) => after x ⟨a.deed?.toList ++ p.past, l, s⟩
  | (none, _, _) => True

def Program.Keeps {α : Type} (Q : α → Position → Prop) : Program α → Position → Prop
  | .done a, p => ∀ q, p.Drift q → W q.shared → Q a q
  | .act a next, p => ∀ q, p.Drift q → W q.shared →
    G (.act a) q ∧ a.Then q fun x q => (next x).Keeps Q q
  | .receive _ next, p => ∀ q, p.Drift q → W q.shared →
    ∃ J, J q ∧ Searches W G J (fun q => (next none).Keeps Q q) fun row q =>
      (next (some row)).Keeps Q q
  | .deliver i row _ next, p => ∀ q, p.Drift q → W q.shared →
    Delivers G i row q fun r q => (next r).Keeps Q q

end Conditions

theorem Searches.mono {W : Shared → Prop} {G G' : Node → Position → Prop}
    {J atEnd atEnd' : Position → Prop} {onRow onRow' : Row → Position → Prop}
    (h : Searches W G J atEnd onRow) (hG : ∀ n p, W p.shared → G n p → G' n p)
    (hend : ∀ p, atEnd p → atEnd' p) (hrow : ∀ row p, onRow row p → onRow' row p) :
    Searches W G' J atEnd' onRow' where
  stable := h.stable
  guard p hw hj := hG _ p hw (h.guard p hw hj)
  pass := h.pass
  drop := h.drop
  ended p hw hj he := hend p (h.ended p hw hj he)
  row p i row hw hj hi hr := hrow row _ (h.row p i row hw hj hi hr)

theorem Searches.and {W : Shared → Prop} {G G' : Node → Position → Prop}
    {J J' atEnd atEnd' : Position → Prop} {onRow onRow' : Row → Position → Prop}
    (h : Searches W G J atEnd onRow) (h' : Searches W G' J' atEnd' onRow') :
    Searches W (fun n p => G n p ∧ G' n p) (fun p => J p ∧ J' p) (fun p => atEnd p ∧ atEnd' p)
      (fun row p => onRow row p ∧ onRow' row p) where
  stable p q hd hw hj := ⟨h.stable p q hd hw hj.1, h'.stable p q hd hw hj.2⟩
  guard p hw hj := ⟨h.guard p hw hj.1, h'.guard p hw hj.2⟩
  pass p hw hj := ⟨h.pass p hw hj.1, h'.pass p hw hj.2⟩
  drop p hw hj hd := ⟨h.drop p hw hj.1 hd, h'.drop p hw hj.2 hd⟩
  ended p hw hj he := ⟨h.ended p hw hj.1 he, h'.ended p hw hj.2 he⟩
  row p i row hw hj hi hr := ⟨h.row p i row hw hj.1 hi hr, h'.row p i row hw hj.2 hi hr⟩

theorem Delivers.mono {G G' : Node → Position → Prop} {i : Nat} {row : Row} {p : Position}
    {after after' : Except Fault Delivery → Position → Prop} (h : Delivers G i row p after)
    (hG : G (.deliver i row) p → G' (.deliver i row) p)
    (hafter : ∀ r q, after r q → after' r q) : Delivers G' i row p after' where
  guard := hG h.guard
  accepted ha := hafter _ _ (h.accepted ha)
  discarded hd := hafter _ _ (h.discarded hd)
  refused f hf := hafter _ _ (h.refused f hf)
  dropped hs := hafter _ _ (h.dropped hs)

theorem Delivers.and {G G' : Node → Position → Prop} {i : Nat} {row : Row} {p : Position}
    {after after' : Except Fault Delivery → Position → Prop} (h : Delivers G i row p after)
    (h' : Delivers G' i row p after') :
    Delivers (fun n p => G n p ∧ G' n p) i row p (fun r q => after r q ∧ after' r q) where
  guard := ⟨h.guard, h'.guard⟩
  accepted ha := ⟨h.accepted ha, h'.accepted ha⟩
  discarded hd := ⟨h.discarded hd, h'.discarded hd⟩
  refused f hf := ⟨h.refused f hf, h'.refused f hf⟩
  dropped hs := ⟨h.dropped hs, h'.dropped hs⟩

namespace Action

theorem then_own {p : Position} {after : Local → Position → Prop} :
    Action.own.Then p after ↔ after p.own p := Iff.rfl

theorem then_isStopped {p : Position} {after : Bool → Position → Prop} :
    Action.isStopped.Then p after ↔ after p.shared.control.stopped p := Iff.rfl

variable {a : Action} {p : Position} {after after' : a.Answer → Position → Prop}

theorem Then.mono (h : a.Then p after) (hafter : ∀ x q, after x q → after' x q) :
    a.Then p after' := by
  unfold Then at h ⊢
  split
  · next x l s e => rw [e] at h; exact hafter _ _ h
  · trivial

theorem Then.and (h : a.Then p after) (h' : a.Then p after') :
    a.Then p fun x q => after x q ∧ after' x q := by
  unfold Then at h h' ⊢
  split
  · next x l s e => rw [e] at h h'; exact ⟨h, h'⟩
  · trivial

end Action

namespace Program

variable {α β : Type} {W : Shared → Prop} {G G' : Node → Position → Prop}
  {Q Q' : α → Position → Prop} {p : Program α} {pos pos' : Position}

theorem Keeps.drift (h : p.Keeps W G Q pos) (hd : pos.Drift pos') : p.Keeps W G Q pos' := by
  cases p with
  | done a => exact fun q hq => h q (hd.trans hq)
  | act a next => exact fun q hq => h q (hd.trans hq)
  | receive scan next => exact fun q hq => h q (hd.trans hq)
  | deliver i row refused next => exact fun q hq => h q (hd.trans hq)

/-- What is kept wherever others have led is kept here. -/
theorem Keeps.of_drift (h : ∀ q, pos.Drift q → W q.shared → p.Keeps W G Q q) :
    p.Keeps W G Q pos := by
  cases p with
  | done a => exact fun q hd hw => h q hd hw q (.refl q) hw
  | act a next => exact fun q hd hw => h q hd hw q (.refl q) hw
  | receive scan next => exact fun q hd hw => h q hd hw q (.refl q) hw
  | deliver i row refused next => exact fun q hd hw => h q hd hw q (.refl q) hw

theorem Keeps.mono (h : p.Keeps W G Q pos) (hG : ∀ n q, W q.shared → G n q → G' n q)
    (hQ : ∀ a q, W q.shared → Q a q → Q' a q) : p.Keeps W G' Q' pos := by
  induction p generalizing pos with
  | done a => exact fun q hd hw => hQ a q hw (h q hd hw)
  | act a next ih =>
    intro q hd hw
    obtain ⟨hg, hthen⟩ := h q hd hw
    exact ⟨hG _ q hw hg, hthen.mono fun x q hx => ih x hx⟩
  | receive scan next ih =>
    intro q hd hw
    obtain ⟨J, hj, hs⟩ := h q hd hw
    exact ⟨J, hj, hs.mono hG (fun q hq => ih none hq) fun row q hq => ih (some row) hq⟩
  | deliver i row refused next ih =>
    intro q hd hw
    exact (h q hd hw).mono (hG _ q hw) fun r q hr => ih r hr

theorem Keeps.imp (h : p.Keeps W G Q pos) (hQ : ∀ a q, W q.shared → Q a q → Q' a q) :
    p.Keeps W G Q' pos :=
  h.mono (fun _ _ _ hg => hg) hQ

theorem Keeps.and (h : p.Keeps W G Q pos) (h' : p.Keeps W G' Q' pos) :
    p.Keeps W (fun n q => G n q ∧ G' n q) (fun a q => Q a q ∧ Q' a q) pos := by
  induction p generalizing pos with
  | done a => exact fun q hd hw => ⟨h q hd hw, h' q hd hw⟩
  | act a next ih =>
    intro q hd hw
    obtain ⟨hg, hthen⟩ := h q hd hw
    obtain ⟨hg', hthen'⟩ := h' q hd hw
    exact ⟨⟨hg, hg'⟩, (hthen.and hthen').mono fun x q hx => ih x hx.1 hx.2⟩
  | receive scan next ih =>
    intro q hd hw
    obtain ⟨J, hj, hs⟩ := h q hd hw
    obtain ⟨J', hj', hs'⟩ := h' q hd hw
    exact ⟨_, ⟨hj, hj'⟩, (hs.and hs').mono (fun _ _ _ hg => hg) (fun q hq => ih none hq.1 hq.2)
      fun row q hq => ih (some row) hq.1 hq.2⟩
  | deliver i row refused next ih =>
    intro q hd hw
    exact ((h q hd hw).and (h' q hd hw)).mono id fun r q hr => ih r hr.1 hr.2

/-- The same with one guard. -/
theorem Keeps.also (h : p.Keeps W G Q pos) (h' : p.Keeps W G' Q' pos) :
    p.Keeps W G (fun a q => Q a q ∧ Q' a q) pos :=
  (h.and h').mono (fun _ _ _ hg => hg.1) fun _ _ _ hq => hq

theorem Keeps.bind {f : α → Program β} {R : β → Position → Prop}
    (h : p.Keeps W G (fun a => (f a).Keeps W G R) pos) : (p.bind f).Keeps W G R pos := by
  induction p generalizing pos with
  | done a => exact .of_drift h
  | act a next ih =>
    intro q hd hw
    obtain ⟨hg, hthen⟩ := h q hd hw
    exact ⟨hg, hthen.mono fun x q hx => ih x hx⟩
  | receive scan next ih =>
    intro q hd hw
    obtain ⟨J, hj, hs⟩ := h q hd hw
    exact ⟨J, hj, hs.mono (fun _ _ _ hg => hg) (fun q hq => ih none hq) fun row q hq =>
      ih (some row) hq⟩
  | deliver i row refused next ih =>
    intro q hd hw
    exact (h q hd hw).mono id fun r q hr => ih r hr

/-- A condition that follows from the guard, and at the end from `Q`, holds now. -/
theorem Keeps.now {I : Position → Prop} (h : p.Keeps W G Q pos) (hw : W pos.shared)
    (hG : ∀ n q, G n q → I q) (hQ : ∀ a q, Q a q → I q) : I pos := by
  cases p with
  | done a => exact hQ a pos (h pos (.refl pos) hw)
  | act a next => exact hG _ pos (h pos (.refl pos) hw).1
  | receive scan next =>
    obtain ⟨J, hj, hs⟩ := h pos (.refl pos) hw
    exact hG _ pos (hs.guard pos hw hj)
  | deliver i row refused next => exact hG _ pos (h pos (.refl pos) hw).guard

/-- The guard holds for what the program is about to do. -/
theorem Keeps.guard (h : p.Keeps W G Q pos) (hw : W pos.shared) {n : Node}
    (hn : p.node? = some n) : G n pos := by
  cases p with
  | done a => simp [node?] at hn
  | act a next => cases hn; exact (h pos (.refl pos) hw).1
  | receive scan next =>
    cases hn
    obtain ⟨J, hj, hs⟩ := h pos (.refl pos) hw
    exact hs.guard pos hw hj
  | deliver i row refused next => cases hn; exact (h pos (.refl pos) hw).guard

/-- What one look at an input comes to. -/
theorem look_cases (l : Local) (s : Shared) :
    (∃ i row, l.pending[l.place]? = some i ∧ (s.poll i).2 = .row row ∧
      look l s = ((s.poll i).1, .row row)) ∨
    (look l s = (s, .done) ∧ ∀ i, l.pending[l.place]? = some i → (s.poll i).2 = .done) ∨
    look l s = (s, .pending) := by
  unfold look
  split
  · next i hi =>
    have hsame : (∀ row, (s.poll i).2 ≠ .row row) → (s.poll i).1 = s := Shared.poll_of_ne_row
    rcases hp : s.poll i with ⟨t, r⟩
    rw [hp] at hsame
    cases r with
    | row row => exact .inl ⟨i, row, hi, by rw [hp], by rw [hp]⟩
    | done =>
      refine .inr (.inl ⟨by rw [show t = s from hsame (by simp)], fun j hj => ?_⟩)
      rw [hi] at hj
      cases hj
      rw [hp]
    | pending => exact .inr (.inr (by rw [show t = s from hsame (by simp)]))
  · next hi => exact .inr (.inl ⟨rfl, fun i hj => by rw [hi] at hj; cases hj⟩)

theorem lookDeed?_of_row {l : Local} {s t : Shared} {i : Nat} {row : Row}
    (hi : l.pending[l.place]? = some i) (h : look l s = (t, .row row)) :
    lookDeed? l s = some (.take i row) := by
  simp [lookDeed?, hi, h]

theorem lookDeed?_of_ne_row {l : Local} {s t : Shared} {r : Poll} (h : look l s = (t, r))
    (hr : ∀ row, r ≠ .row row) : lookDeed? l s = none := by
  unfold lookDeed?
  rw [h]
  split
  · next i row _ e => exact absurd e (hr row)
  · rfl

section Search

variable {J atEnd : Position → Prop} {onRow : Row → Position → Prop} {l : Local} {s : Shared}
  {past : List Deed} {next : Option Row → Program α}

/-- Wherever a search goes on after a look, it is in its loop or at its end. -/
theorem keeps_scanOn (hs : Searches W G J (fun q => (next none).Keeps W G Q q)
    fun row q => (next (some row)).Keeps W G Q q) {seen : Nat} (hw : W s)
    (hj : J ⟨past, l, s⟩) : (scanOn seen l next).Keeps W G Q ⟨past, l, s⟩ := by
  unfold scanOn
  split
  · exact fun q hd hw => ⟨J, hs.stable _ _ hd hw hj, hs⟩
  · split
    · next he => exact hs.ended _ hw hj (.inr (List.isEmpty_iff.mp he))
    · exact fun q hd hw => ⟨J, hs.stable _ _ hd hw hj, hs⟩

end Search

theorem Keeps.step_receive {scan : Scan} {next : Option Row → Program α} {past : List Deed}
    {l : Local} {s : Shared} (h : (receive scan next).Keeps W G Q ⟨past, l, s⟩) (hw : W s) :
    ((receive scan next).step l s).1.Keeps W G Q
      ⟨((receive scan next).deed? l s).toList ++ past, ((receive scan next).step l s).2.1,
        ((receive scan next).step l s).2.2⟩ := by
  obtain ⟨J, hj, hs⟩ := h _ (.refl _) hw
  have again : ∀ (scan : Scan) (l : Local), J ⟨past, l, s⟩ →
      (Program.receive scan next).Keeps W G Q ⟨past, l, s⟩ :=
    fun scan l hj q hd hw => ⟨J, hs.stable _ _ hd hw hj, hs⟩
  cases scan with
  | start =>
    simp only [Program.step]
    split
    · next he =>
      refine hs.ended _ hw hj ?_
      simpa using he
    · exact again _ _ hj
  | looking seen =>
    rcases look_cases l s with ⟨i, row, hi, hr, hl⟩ | ⟨hl, hd⟩ | hl
    · simp only [Program.step, deed?, hl, lookDeed?_of_row hi hl]
      exact hs.row _ i row hw hj hi hr
    · simp only [Program.step, deed?, hl, lookDeed?_of_ne_row hl (by simp)]
      exact keeps_scanOn hs hw (hs.drop _ hw hj hd)
    · simp only [Program.step, deed?, hl, lookDeed?_of_ne_row hl (by simp)]
      exact keeps_scanOn hs hw (hs.pass _ hw hj)
  | waiting =>
    rcases look_cases l s with ⟨i, row, hi, hr, hl⟩ | ⟨hl, hd⟩ | hl
    · simp only [Program.step, deed?, hl, lookDeed?_of_row hi hl]
      exact hs.row _ i row hw hj hi hr
    · simp only [Program.step, deed?, hl, lookDeed?_of_ne_row hl (by simp)]
      exact again _ _ (hs.drop _ hw hj hd)
    · simp only [Program.step, deed?, hl, lookDeed?_of_ne_row hl (by simp)]
      exact again _ _ hj

theorem Keeps.step_deliver {i : Nat} {row : Row} {refused : Bool}
    {next : Except Fault Delivery → Program α} {past : List Deed} {l : Local} {s : Shared}
    (h : (deliver i row refused next).Keeps W G Q ⟨past, l, s⟩) (hw : W s) :
    ((deliver i row refused next).step l s).1.Keeps W G Q
      ⟨((deliver i row refused next).deed? l s).toList ++ past,
        ((deliver i row refused next).step l s).2.1,
        ((deliver i row refused next).step l s).2.2⟩ := by
  have ho := h _ (.refl _) hw
  cases refused with
  | true =>
    simp only [Program.step]
    split
    · next hs => exact ho.dropped hs
    · exact h
  | false =>
    have hsame : (s.offer i row).2 ≠ .ok .accepted → (s.offer i row).1 = s :=
      Shared.offer_of_ne_accepted
    have hback : ∀ back, (s.offer i row).2 = .ok (.full back) → back = row :=
      fun _ => Shared.eq_of_offer_full
    have haccepted := ho.accepted
    have hdiscarded := ho.discarded
    have hrefused := ho.refused
    simp only [Program.step, deed?]
    revert hsame hback haccepted hdiscarded hrefused
    rcases s.offer i row with ⟨t, r⟩
    intro hsame hback haccepted hdiscarded hrefused
    cases r with
    | error f =>
      cases hsame (by simp)
      exact hrefused f rfl
    | ok answer =>
      cases answer with
      | accepted => exact haccepted rfl
      | discarded =>
        cases hsame (by simp)
        exact hdiscarded rfl
      | full back =>
        cases hsame (by simp)
        cases hback _ rfl
        exact h

/-- What a program keeps it keeps after a step of its own. -/
theorem Keeps.step {past : List Deed} {l : Local} {s : Shared}
    (h : p.Keeps W G Q ⟨past, l, s⟩) (hw : W s) :
    (p.step l s).1.Keeps W G Q
      ⟨(p.deed? l s).toList ++ past, (p.step l s).2.1, (p.step l s).2.2⟩ := by
  cases p with
  | done a => exact h
  | act a next =>
    obtain ⟨-, hthen⟩ := h _ (.refl _) hw
    unfold Action.Then at hthen
    cases a with
    | hold =>
      simp only [Program.step, Action.perform]
      simp only [Action.perform] at hthen
      split <;> simp_all [deed?, Action.deed?]
    | _ => exact hthen
  | receive scan next => exact h.step_receive hw
  | deliver i row refused next => exact h.step_deliver hw

end Program
end RowFlow
