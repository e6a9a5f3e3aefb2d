import RowFlow.Proofs.Program.Runs

/-
What a program does at a step.  Most steps do one thing, and `doing?` says which; the
others only go on with a search, wait, or find that there is no space for a row.

`Goes` lists the steps by their shape.  What holds of every step is read off it: where
a step leads by what was done (`Doing.Leads`), and that nothing but a search has moved
on where nothing was done.
-/
namespace RowFlow

namespace Program

variable {α : Type}

def doing? (p : Program α) (l : Local) (s : Shared) : Option Doing :=
  match p with
  | done _ => none
  | act a _ => (a.perform l s).1.map (.act a)
  | receive .start _ => if s.control.stopped || l.pending.isEmpty then some .dry else none
  | receive (.looking _) _ =>
    match (look l s).2 with
    | .row row => some (.took row)
    | .done => if l.drop.pending.isEmpty then some .dry else none
    | .pending => if l.pending.isEmpty then some .dry else none
  | receive .waiting _ =>
    match (look l s).2 with
    | .row row => some (.took row)
    | _ => none
  | deliver i row false _ =>
    match (s.offer i row).2 with
    | .ok .accepted => some (.delivered i row (.ok .accepted))
    | .ok .discarded => some (.delivered i row (.ok .discarded))
    | .ok (.full _) => none
    | .error f => some (.delivered i row (.error f))
  | deliver i row true _ =>
    if s.control.stopped then some (.delivered i row (.ok .dropped)) else none

inductive Goes (l : Local) (s : Shared) :
    Program α → Option Doing → Option Deed → Program α → Local → Shared → Prop
  | done (a : α) : Goes l s (.done a) none none (.done a) l s
  | act {a : Action} {next : a.Answer → Program α} {x : a.Answer} {l' : Local} {s' : Shared}
      (h : a.perform l s = (some x, l', s')) :
      Goes l s (.act a next) (some (.act a x)) a.deed? (next x) l' s'
  | wait {next : Unit → Program α} : Goes l s (.act .hold next) none none (.act .hold next) l s
  | enter {next : Option Row → Program α} (h : s.control.stopped = false) :
      Goes l s (.receive .start next) none none (.receive (.looking 0) next) l s
  | search {scan scan' : Scan} {next : Option Row → Program α} (pending : List Nat) (cursor : Nat)
      (h : scan ≠ .start) :
      Goes l s (.receive scan next) none none (.receive scan' next) (l.seeking pending cursor) s
  | dry {scan : Scan} {next : Option Row → Program α} (pending : List Nat) (cursor : Nat) :
      Goes l s (.receive scan next) (some .dry) none (next none) (l.seeking pending cursor) s
  | took {scan : Scan} {next : Option Row → Program α} {i : Nat} {row : Row} (h : scan ≠ .start)
      (hi : l.pending[l.place]? = some i) (hrow : (s.poll i).2 = .row row) :
      Goes l s (.receive scan next) (some (.took row)) (some (.take i row)) (next (some row))
        (l.taken row) (s.poll i).1
  | again {i : Nat} {row : Row} {refused refused' : Bool}
      {next : Except Fault Delivery → Program α} :
      Goes l s (.deliver i row refused next) none none (.deliver i row refused' next) l s
  | gave {i : Nat} {row : Row} {refused : Bool} {next : Except Fault Delivery → Program α}
      (h : (s.offer i row).2 = .ok .accepted) :
      Goes l s (.deliver i row refused next) (some (.delivered i row (.ok .accepted)))
        (some (.give i row)) (next (.ok .accepted)) l (s.offer i row).1
  | kept {i : Nat} {row : Row} {refused : Bool} {next : Except Fault Delivery → Program α}
      {r : Except Fault Delivery} (h : r ≠ .ok .accepted) :
      Goes l s (.deliver i row refused next) (some (.delivered i row r)) none (next r) l s

theorem goes_act (a : Action) (next : a.Answer → Program α) (l : Local) (s : Shared) :
    (act a next).Goes l s ((act a next).doing? l s) ((act a next).deed? l s)
      ((act a next).step l s).1 ((act a next).step l s).2.1 ((act a next).step l s).2.2 := by
  rcases hp : a.perform l s with ⟨x?, l', s'⟩
  cases x? with
  | some x =>
    simp only [step, doing?, deed?, hp, Option.map_some]
    exact .act hp
  | none =>
    cases a with
    | hold =>
      simp only [Action.perform, Prod.mk.injEq] at hp
      simp only [step, doing?, deed?, Action.deed?, Action.perform, hp.1, Option.map_none]
      exact .wait
    | _ => simp [Action.perform] at hp

/-- A search that goes on after a look, or ends without a row. -/
theorem goes_scanOn {scan : Scan} (hscan : scan ≠ .start) (next : Option Row → Program α)
    (l : Local) (s : Shared) (pending : List Nat) (cursor seen : Nat) :
    Goes l s (.receive scan next) (if pending.isEmpty then some .dry else none) none
      (scanOn seen (l.seeking pending cursor) next) (l.seeking pending cursor) s := by
  by_cases hempty : pending = []
  · subst hempty
    exact .dry [] cursor
  · have hsome : (l.seeking pending cursor).pending.isEmpty = false := by
      simpa [Local.seeking] using hempty
    have hfalse : pending.isEmpty = false := by simpa using hempty
    simp only [scanOn, hsome, hfalse, Bool.false_eq_true, if_false]
    split <;> exact .search pending cursor hscan

theorem goes_receive (scan : Scan) (next : Option Row → Program α) (l : Local) (s : Shared) :
    (receive scan next).Goes l s ((receive scan next).doing? l s) ((receive scan next).deed? l s)
      ((receive scan next).step l s).1 ((receive scan next).step l s).2.1
      ((receive scan next).step l s).2.2 := by
  cases scan with
  | start =>
    simp only [step, doing?, deed?]
    split
    · exact .dry l.pending l.cursor
    · next h =>
      refine .enter ?_
      simp only [Bool.or_eq_true, not_or, Bool.not_eq_true] at h
      exact h.1
  | looking seen =>
    have hscan : Scan.looking seen ≠ .start := by simp
    rcases look_cases l s with ⟨i, row, hi, hr, hl⟩ | ⟨hl, -⟩ | hl
    · simp only [step, doing?, deed?, hl, lookDeed?_of_row hi hl]
      exact .took hscan hi hr
    · simp only [step, doing?, deed?, hl, lookDeed?_of_ne_row hl (by simp)]
      exact goes_scanOn hscan next l s l.drop.pending l.drop.cursor seen
    · simp only [step, doing?, deed?, hl, lookDeed?_of_ne_row hl (by simp)]
      exact goes_scanOn hscan next l s l.pass.pending l.pass.cursor (seen + 1)
  | waiting =>
    have hscan : Scan.waiting ≠ .start := by simp
    rcases look_cases l s with ⟨i, row, hi, hr, hl⟩ | ⟨hl, -⟩ | hl
    · simp only [step, doing?, deed?, hl, lookDeed?_of_row hi hl]
      exact .took hscan hi hr
    · simp only [step, doing?, deed?, hl, lookDeed?_of_ne_row hl (by simp)]
      exact .search l.drop.pending l.drop.cursor hscan
    · simp only [step, doing?, deed?, hl, lookDeed?_of_ne_row hl (by simp)]
      exact .search l.pending l.cursor hscan

theorem goes_deliver (i : Nat) (row : Row) (refused : Bool)
    (next : Except Fault Delivery → Program α) (l : Local) (s : Shared) :
    (deliver i row refused next).Goes l s ((deliver i row refused next).doing? l s)
      ((deliver i row refused next).deed? l s) ((deliver i row refused next).step l s).1
      ((deliver i row refused next).step l s).2.1 ((deliver i row refused next).step l s).2.2 := by
  cases refused with
  | true =>
    simp only [step, doing?, deed?]
    split
    · exact .kept (by simp)
    · exact .again
  | false =>
    have hsame : (s.offer i row).2 ≠ .ok .accepted → (s.offer i row).1 = s :=
      Shared.offer_of_ne_accepted
    have hback : ∀ back, (s.offer i row).2 = .ok (.full back) → back = row :=
      fun _ => Shared.eq_of_offer_full
    have hgave := @Goes.gave α l s i row false next
    simp only [step, doing?, deed?]
    revert hsame hback hgave
    rcases s.offer i row with ⟨t, f | accepted | discarded | back⟩ <;> intro hsame hback hgave
    · cases hsame (by simp)
      exact .kept (by simp)
    · exact hgave rfl
    · cases hsame (by simp)
      exact .kept (by simp)
    · cases hsame (by simp)
      cases hback _ rfl
      exact .again

/-- Every step of a program is one of these. -/
theorem goes_step (p : Program α) (l : Local) (s : Shared) :
    p.Goes l s (p.doing? l s) (p.deed? l s) (p.step l s).1 (p.step l s).2.1 (p.step l s).2.2 := by
  cases p with
  | done a => exact .done a
  | act a next => exact goes_act a next l s
  | receive scan next => exact goes_receive scan next l s
  | deliver i row refused next => exact goes_deliver i row refused next l s

end Program

inductive Doing.Leads : Doing → Position → Position → Prop
  | act {a : Action} {p : Position} {x : a.Answer} {l : Local} {s : Shared}
      (h : a.perform p.own p.shared = (some x, l, s)) :
      Leads (.act a x) p ⟨a.deed?.toList ++ p.past, l, s⟩
  | dry {p : Position} (pending : List Nat) (cursor : Nat) :
      Leads .dry p { p with own := p.own.seeking pending cursor }
  | took {p : Position} {i : Nat} {row : Row} (hi : p.own.pending[p.own.place]? = some i)
      (hrow : (p.shared.poll i).2 = .row row) :
      Leads (.took row) p ⟨.take i row :: p.past, p.own.taken row, (p.shared.poll i).1⟩
  | gave {p : Position} {i : Nat} {row : Row} (h : (p.shared.offer i row).2 = .ok .accepted) :
      Leads (.delivered i row (.ok .accepted)) p
        ⟨.give i row :: p.past, p.own, (p.shared.offer i row).1⟩
  | kept {p : Position} {i : Nat} {row : Row} {r : Except Fault Delivery}
      (h : r ≠ .ok .accepted) : Leads (.delivered i row r) p p

/-- Nothing that a copy does changes what it is wired to. -/
theorem Doing.Leads.origin {d : Doing} {p q : Position} (h : d.Leads p q) :
    q.own.origin = p.own.origin := by
  cases h with
  | act h => exact (Node.Leads.act h).origin
  | _ => rfl

theorem Doing.Leads.perform {a : Action} {v : a.Answer} {p q : Position}
    (h : Doing.Leads (.act a v) p q) :
    a.perform p.own p.shared = (some v, q.own, q.shared) ∧ q.past = a.deed?.toList ++ p.past := by
  cases h with
  | act h => exact ⟨h, rfl⟩

theorem Doing.Leads.dried {p q : Position} (h : Doing.Leads .dry p q) : q.past = p.past := by
  cases h
  rfl

/-- What was done stays done. -/
theorem Doing.Leads.suffix {d : Doing} {p q : Position} (h : d.Leads p q) : p.past <:+ q.past := by
  cases h with
  | act h => exact List.suffix_append _ _
  | took hi hrow => exact List.suffix_cons _ _
  | gave h => exact List.suffix_cons _ _
  | _ => exact List.suffix_refl _

theorem Doing.Leads.shared_le {d : Doing} {p q : Position} (h : d.Leads p q) :
    p.shared ≤ q.shared := by
  cases h with
  | act h => exact (Node.Leads.act h).shared_le
  | took hi hrow => exact Shared.le_poll _ _
  | gave h => exact Shared.le_offer _ _ _
  | _ => exact le_refl _

/-- A copy that has done nothing, but may have gone on with a search; its work may have been
cancelled meanwhile. -/
def Local.Rests (l l' : Local) : Prop :=
  ∃ pending cursor b, l' = (l.seeking pending cursor).withCancelled b

namespace Local

variable {l l' : Local}

theorem Rests.refl (l : Local) : l.Rests l := ⟨l.pending, l.cursor, l.cancelled, rfl⟩

theorem Rests.counts (h : l.Rests l') : l'.counts = l.counts := by
  obtain ⟨_, _, _, rfl⟩ := h
  rfl

theorem Rests.outcome (h : l.Rests l') : l'.outcome = l.outcome := by
  obtain ⟨_, _, _, rfl⟩ := h
  rfl

theorem Rests.origin (h : l.Rests l') : l'.origin = l.origin := by
  obtain ⟨_, _, _, rfl⟩ := h
  rfl

end Local

namespace Program

variable {α : Type} {p p' : Program α} {l l' : Local} {s s' : Shared} {deed : Option Deed}

/-- A step that does something leads where that leads. -/
theorem Goes.leads {d : Doing} (h : p.Goes l s (some d) deed p' l' s') (past : List Deed) :
    d.Leads ⟨past, l, s⟩ ⟨deed.toList ++ past, l', s'⟩ := by
  cases h with
  | act h => exact .act h
  | dry pending cursor => exact .dry pending cursor
  | took h hi hrow => exact .took hi hrow
  | gave h => exact .gave h
  | kept h => exact .kept h

/-- Another step leaves everything as it is. -/
theorem Goes.rests (h : p.Goes l s none deed p' l' s') :
    deed = none ∧ l.Rests l' ∧ s' = s := by
  cases h with
  | search pending cursor h => exact ⟨rfl, ⟨pending, cursor, l.cancelled, rfl⟩, rfl⟩
  | _ => exact ⟨rfl, .refl l, rfl⟩

/-- A row is refused only where there is a row set that refuses it. -/
def Honest (d : Option Doing) : Prop :=
  ∀ i row f, d = some (.delivered i row (.error f)) → ∃ rs : RowSet, (rs.offer row).2 = .error f

theorem honest_doing? (p : Program α) (l : Local) (s : Shared) : Honest (p.doing? l s) := by
  intro i row f h
  cases p with
  | done a => cases h
  | act a next =>
    obtain ⟨x, -, hx⟩ := Option.map_eq_some_iff.mp h
    cases hx
  | receive scan next =>
    cases scan <;> simp only [doing?] at h <;> split at h <;> simp_all
  | deliver j row' refused next =>
    cases refused with
    | true =>
      simp only [doing?] at h
      split at h <;> cases h
    | false =>
      simp only [doing?] at h
      split at h
      all_goals cases h
      next ho => exact exists_offer_error ho

/-- What a step does comes before what is left to do. -/
theorem Goes.runs {d : Option Doing} {es : List Doing} {v : α} {m : Local}
    (hg : p.Goes l s d deed p' l' s') (hd : Honest d) (h : p'.Runs l' es v m) :
    p.Runs l (d.toList ++ es) v m := by
  cases hg with
  | done a => exact h
  | act ha => exact .act (b := l.cancelled) ha h
  | wait => exact h
  | enter _ => exact h.search
  | search pending cursor _ => exact h.search
  | dry pending cursor => exact .dry h
  | took _ _ _ => exact .took h
  | again =>
    cases h with
    | delivered r hf hr => exact .delivered r hf hr
  | gave _ => exact .delivered_ok _ h
  | kept _ => exact .delivered _ (fun f hf => hd _ _ f (by rw [hf])) h

end Program

end RowFlow
