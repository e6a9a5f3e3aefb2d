import RowFlow.Proofs.Determinacy.Solo
import RowFlow.Proofs.Program.Frame

/-
What a program has done once it has come to its end.  `p.Runs l ds a m` says that `p`,
begun by a copy at `l`, can do `ds` one after the other and end with `a` at `m`.  Other
copies do what they like in between, so every action finds what is shared in a state of
its own, and the work of the copy may have been cancelled meanwhile.

A step of a program puts one thing more in front of what is left (`exists_doing`).  So
what a copy in the middle of a program has done is told by the ends that it can still come
to, and nothing needs to be said about how far the program has come.
-/
namespace RowFlow

inductive Doing where
  | act (a : Action) (answer : a.Answer)
  | took (row : Row)
  /-- A search for a row ended without one. -/
  | dry
  | delivered (rowSet : Nat) (row : Row) (result : Except Fault Delivery)

namespace Doing

def note? : Doing → Option Note
  | act (.note n) _ => some n
  | _ => none

def row? : Doing → Option Row
  | took row => some row
  | _ => none

def node : Doing → Node
  | act a _ => .act a
  | took _ => .receive
  | dry => .receive
  | delivered i row _ => .deliver i row

def notes (ds : List Doing) : List Note := ds.filterMap note?

def rows (ds : List Doing) : List Row := ds.filterMap row?

@[simp] theorem notes_nil : notes [] = [] := rfl

@[simp] theorem rows_nil : rows [] = [] := rfl

@[simp] theorem notes_append (ds es : List Doing) : notes (ds ++ es) = notes ds ++ notes es :=
  List.filterMap_append

@[simp] theorem rows_append (ds es : List Doing) : rows (ds ++ es) = rows ds ++ rows es :=
  List.filterMap_append

@[simp] theorem notes_cons (d : Doing) (ds : List Doing) :
    notes (d :: ds) = d.note?.toList ++ notes ds := by
  cases h : d.note? <;> simp [notes, h]

@[simp] theorem rows_cons (d : Doing) (ds : List Doing) :
    rows (d :: ds) = d.row?.toList ++ rows ds := by
  cases h : d.row? <;> simp [rows, h]

@[simp] theorem note?_mark (m : Mark) (x : Unit) : (act (.mark m) x).note? = none := rfl

@[simp] theorem note?_own (x : Local) : (act .own x).note? = none := rfl

@[simp] theorem row?_act (a : Action) (x : a.Answer) : (act a x).row? = none := rfl

@[simp] theorem notes_toList (d : Option Doing) : notes d.toList = (d.bind note?).toList := by
  cases d <;> simp

@[simp] theorem rows_toList (d : Option Doing) : rows d.toList = (d.bind row?).toList := by
  cases d <;> simp

structure Agree (ds es : List Doing) : Prop where
  notes : notes ds = notes es
  rows : rows ds = rows es

theorem Agree.trans {ds es fs : List Doing} (h : Agree ds es) (h' : Agree es fs) : Agree ds fs :=
  ⟨h.notes.trans h'.notes, h.rows.trans h'.rows⟩

end Doing

namespace Node

/-- The action neither notes anything nor asks for a row. -/
def Silent : Node → Prop
  | act (.note _) => False
  | receive => False
  | _ => True

def Quiet (n : Node) : Prop := n.Inner ∧ n.Silent

def Leaving : Node → Prop
  | act .own => True
  | act (.detach _) => True
  | act .leaveInputs => True
  | _ => False

/-- The action does not settle whether rows may be rejected. -/
def Fixed : Node → Prop
  | act (.allowErrors _) => False
  | _ => True

theorem Signal.quiet {n : Node} (h : n.Signal) : n.Quiet := by
  refine ⟨h.plain.inner, ?_⟩
  cases n with
  | act a => cases a <;> trivial
  | receive => exact h
  | deliver i row => trivial

theorem Leaving.silent {n : Node} (h : n.Leaving) : n.Silent := by
  cases n with
  | act a => cases a <;> trivial
  | receive => exact h
  | deliver i row => trivial

theorem Leaving.fixed {n : Node} (h : n.Leaving) : n.Fixed := by
  cases n with
  | act a => cases a <;> trivial
  | _ => trivial

theorem Inner.fixed {n : Node} (h : n.Inner) : n.Fixed := by
  cases n with
  | act a => cases a <;> trivial
  | _ => trivial

end Node

theorem Counts.errors_le_add (c : Counts) (n : Nat) (k : Counter) :
    c.errors ≤ (c.add n k).errors := by
  cases k with
  | errors => exact Nat.le_add_right _ _
  | _ => exact Nat.le_refl _

namespace Local

def withCancelled (l : Local) (b : Bool) : Local := { l with cancelled := b }

def seeking (l : Local) (pending : List Nat) (cursor : Nat) : Local := { l with pending, cursor }

@[simp] theorem info_withCancelled (l : Local) (b : Bool) : (l.withCancelled b).info = l.info := rfl

@[simp] theorem counts_withCancelled (l : Local) (b : Bool) :
    (l.withCancelled b).counts = l.counts := rfl

@[simp] theorem errorHandling_withCancelled (l : Local) (b : Bool) :
    (l.withCancelled b).errorHandling = l.errorHandling := rfl

end Local

namespace Program

variable {α β : Type}

inductive Runs : Program α → Local → List Doing → α → Local → Prop
  | done (a : α) (l : Local) (b : Bool) : Runs (.done a) l [] a (l.withCancelled b)
  | act {a : Action} {next : a.Answer → Program α} {l l' m : Local} {b : Bool} {s s' : Shared}
      {x : a.Answer} {ds : List Doing} {v : α}
      (h : a.perform (l.withCancelled b) s = (some x, l', s')) (hr : Runs (next x) l' ds v m) :
      Runs (.act a next) l (.act a x :: ds) v m
  | took {scan : Scan} {next : Option Row → Program α} {l m : Local} {pending : List Nat}
      {cursor : Nat} {row : Row} {ds : List Doing} {v : α}
      (hr : Runs (next (some row)) ((l.seeking pending cursor).taken row) ds v m) :
      Runs (.receive scan next) l (.took row :: ds) v m
  | dry {scan : Scan} {next : Option Row → Program α} {l m : Local} {pending : List Nat}
      {cursor : Nat} {ds : List Doing} {v : α}
      (hr : Runs (next none) (l.seeking pending cursor) ds v m) :
      Runs (.receive scan next) l (.dry :: ds) v m
  | delivered {i : Nat} {row : Row} {refused : Bool} {next : Except Fault Delivery → Program α}
      {l m : Local} {ds : List Doing} {v : α} (r : Except Fault Delivery)
      (hf : ∀ f, r = .error f → ∃ s : RowSet, (s.offer row).2 = .error f)
      (hr : Runs (next r) l ds v m) :
      Runs (.deliver i row refused next) l (.delivered i row r :: ds) v m

def Ends (P : α → Prop) : Program α → Prop
  | done a => P a
  | act _ next => ∀ x, (next x).Ends P
  | receive _ next => ∀ x, (next x).Ends P
  | deliver _ _ _ next => ∀ x, (next x).Ends P

theorem ends_bind {P : β → Prop} (p : Program α) {f : α → Program β} (h : ∀ a, (f a).Ends P) :
    (p >>= f).Ends P := by
  show (p.bind f).Ends P
  induction p with
  | done a => exact h a
  | act a next ih => exact ih
  | receive scan next ih => exact ih
  | deliver i row refused next ih => exact ih

theorem Ends.bind {P : α → Prop} {Q : β → Prop} {p : Program α} {f : α → Program β}
    (h : p.Ends P) (hf : ∀ a, P a → (f a).Ends Q) : (p >>= f).Ends Q := by
  show (p.bind f).Ends Q
  induction p with
  | done a => exact hf a h
  | act a next ih => exact fun x => ih x (h x)
  | receive scan next ih => exact fun x => ih x (h x)
  | deliver i row refused next ih => exact fun x => ih x (h x)

namespace Runs

variable {p : Program α} {f : α → Program β} {l m : Local} {ds : List Doing} {v : α} {w : β}

/-- A row was delivered without a fault. -/
theorem delivered_ok {i : Nat} {row : Row} {refused : Bool}
    {next : Except Fault Delivery → Program α} (x : Delivery) (hr : (next (.ok x)).Runs l ds v m) :
    (Program.deliver i row refused next).Runs l (.delivered i row (.ok x) :: ds) v m :=
  .delivered (.ok x) (fun f h => by cases h) hr

theorem here (a : α) (l : Local) : Runs (.done a) l [] a l := .done a l l.cancelled

/-- Only the value is another one. -/
theorem map (g : α → β) (h : p.Runs l ds v m) :
    (p.bind fun a => .done (g a)).Runs l ds (g v) m := by
  induction h with
  | done a l b => exact .done _ l b
  | act h _ ih => exact .act h ih
  | took _ ih => exact .took ih
  | dry _ ih => exact .dry ih
  | delivered r hf _ ih => exact .delivered r hf ih

/-- It makes no difference whether the work was cancelled before, -/
theorem before {b : Bool} (h : p.Runs (l.withCancelled b) ds v m) : p.Runs l ds v m := by
  induction p generalizing l ds with
  | done a =>
    cases h with
    | done _ _ b' => exact .done _ l b'
  | act a next ih =>
    cases h with
    | act h hr => exact .act h hr
  | receive scan next ih =>
    cases h with
    | took hr => exact .took (ih _ hr)
    | dry hr => exact .dry (ih _ hr)
  | deliver i row refused next ih =>
    cases h with
    | delivered r hf hr => exact .delivered r hf (ih r hr)

/-- nor whether it is cancelled after. -/
theorem after (h : p.Runs l ds v m) (b : Bool) : p.Runs l ds v (m.withCancelled b) := by
  induction h with
  | done a l b' => exact .done a l b
  | act h _ ih => exact .act h ih
  | took _ ih => exact .took ih
  | dry _ ih => exact .dry ih
  | delivered r hf _ ih => exact .delivered r hf ih

theorem bind (h : (p.bind f).Runs l ds w m) :
    ∃ es v l' es', p.Runs l es v l' ∧ (f v).Runs l' es' w m ∧ ds = es ++ es' := by
  induction p generalizing l ds with
  | done a => exact ⟨[], a, l, ds, .here a l, h, rfl⟩
  | act a next ih =>
    cases h with
    | act h hr =>
      obtain ⟨es, v, l', es', hes, hes', rfl⟩ := ih _ hr
      exact ⟨_, v, l', es', .act h hes, hes', rfl⟩
  | receive scan next ih =>
    cases h with
    | took hr =>
      obtain ⟨es, v, l', es', hes, hes', rfl⟩ := ih _ hr
      exact ⟨_, v, l', es', .took hes, hes', rfl⟩
    | dry hr =>
      obtain ⟨es, v, l', es', hes, hes', rfl⟩ := ih _ hr
      exact ⟨_, v, l', es', .dry hes, hes', rfl⟩
  | deliver i row refused next ih =>
    cases h with
    | delivered r hf hr =>
      obtain ⟨es, v, l', es', hes, hes', rfl⟩ := ih r hr
      exact ⟨_, v, l', es', .delivered r hf hes, hes', rfl⟩

/-- One program goes on where another one has come to its end. -/
theorem followed {l' : Local} {es : List Doing} (h : p.Runs l ds v l')
    (h' : (f v).Runs l' es w m) : (p.bind f).Runs l (ds ++ es) w m := by
  induction h with
  | done a l b => exact h'.before
  | act h _ ih => exact .act h (ih h')
  | took _ ih => exact .took (ih h')
  | dry _ ih => exact .dry (ih h')
  | delivered r hf _ ih => exact .delivered r hf (ih h')

theorem perform {a : Action} {f : a.Answer → Program β} {w : β}
    (h : (Program.perform a >>= f).Runs l ds w m) :
    ∃ b s x l' s' es, a.perform (l.withCancelled b) s = (some x, l', s') ∧ (f x).Runs l' es w m ∧
      ds = .act a x :: es := by
  cases h with
  | act hl hr => exact ⟨_, _, _, _, _, _, hl, hr, rfl⟩

/-- What is the copy's own is as it was left by its last action. -/
theorem own {next : Local → Program α} (h : (Program.act Action.own next).Runs l ds v m) :
    ∃ b es, (next (l.withCancelled b)).Runs l es v m ∧
      ds = .act Action.own (l.withCancelled b) :: es := by
  cases h with
  | act hl hr =>
    cases hl
    exact ⟨_, _, hr.before, rfl⟩

/-- Before and after its two marks a program finds the copy as it is. -/
theorem marked {before : Mark} {after : α → Mark} (h : (marked before after p).Runs l ds v m) :
    ∃ es, p.Runs l es v m ∧ ds = .act (.mark before) () :: (es ++ [.act (.mark (after v)) ()]) := by
  cases h with
  | act hbefore hr =>
    cases hbefore
    obtain ⟨es, w, l', es', hp, hlast, rfl⟩ := Runs.bind (p := p) hr
    cases hlast with
    | act hafter hlast =>
      cases hafter
      cases hlast with
      | done _ _ b => exact ⟨es, (hp.after b).before, rfl⟩

theorem ends {P : α → Prop} (h : p.Runs l ds v m) (hp : p.Ends P) : P v := by
  induction h with
  | done a l b => exact hp
  | act _ _ ih => exact ih (hp _)
  | took _ ih => exact ih (hp _)
  | dry _ ih => exact ih (hp _)
  | delivered r _ _ ih => exact ih (hp r)

/-- All that is done is such, if all that the program may do is. -/
theorem nodes {allowed : Node → Prop} (h : p.Runs l ds v m) (hp : p.Within allowed) :
    ∀ e ∈ ds, allowed e.node := by
  induction h with
  | done a l b => exact fun e he => absurd he List.not_mem_nil
  | act _ _ ih => exact List.forall_mem_cons.mpr ⟨hp.1, ih (hp.2 _)⟩
  | took _ ih => exact List.forall_mem_cons.mpr ⟨hp.1, ih (hp.2 _)⟩
  | dry _ ih => exact List.forall_mem_cons.mpr ⟨hp.1, ih (hp.2 _)⟩
  | delivered r _ _ ih => exact List.forall_mem_cons.mpr ⟨hp.1, ih (hp.2 _)⟩

/-- Nothing is heard of a program that neither notes anything nor asks for a row. -/
theorem silent (h : p.Runs l ds v m) (hp : p.Within Node.Silent) : Doing.Agree ds [] := by
  have hnone : ∀ e ∈ ds, e.note? = none ∧ e.row? = none := by
    intro e he
    have hnode := h.nodes hp e he
    cases e with
    | act a x =>
      cases a with
      | note n => exact absurd hnode id
      | _ => exact ⟨rfl, rfl⟩
    | took row => exact absurd hnode id
    | dry => exact ⟨rfl, rfl⟩
    | delivered i row r => exact ⟨rfl, rfl⟩
  exact ⟨List.filterMap_eq_nil_iff.mpr fun e he => (hnone e he).1,
    List.filterMap_eq_nil_iff.mpr fun e he => (hnone e he).2⟩

/-- The errors of a copy never become fewer. -/
theorem errors_le (h : p.Runs l ds v m) : l.counts.errors ≤ m.counts.errors := by
  induction h with
  | done a l b => exact Nat.le_refl _
  | @act a _ _ _ _ _ _ _ _ _ _ h _ ih =>
    refine Nat.le_trans ?_ ih
    cases a with
    | add counter n =>
      cases h
      exact Counts.errors_le_add _ _ _
    | choose outlet =>
      cases h
      cases outlet <;> exact Nat.le_refl _
    | hold =>
      rw [(Prod.mk.inj (Prod.mk.inj h).2).1.symm]
      exact Nat.le_refl _
    | _ =>
      cases h
      exact Nat.le_refl _
  | took _ ih => exact Nat.le_trans (Counts.errors_le_add _ 1 .read) ih
  | dry _ ih => exact ih
  | delivered r hf _ ih => exact ih

/-- What is heard of a program that begins in silence is heard of the rest. -/
theorem skip (h : (p >>= f).Runs l ds w m) (hp : p.Within Node.Silent) :
    ∃ v l' es, (f v).Runs l' es w m ∧ Doing.Agree ds es ∧
      l.counts.errors ≤ l'.counts.errors := by
  obtain ⟨es, v, l', es', hes, hes', rfl⟩ := h.bind
  have hsilent := hes.silent hp
  exact ⟨v, l', es', hes', ⟨by simp [hsilent.notes], by simp [hsilent.rows]⟩, hes.errors_le⟩

/-- Nothing changes what the copy is wired to, -/
theorem origin (h : p.Runs l ds v m) : m.origin = l.origin := by
  induction h with
  | done a l b => rfl
  | @act a _ l _ _ b s _ _ _ _ h _ ih =>
    exact ih.trans (Node.Leads.act (p := ⟨[], l.withCancelled b, s⟩) h).origin
  | took _ ih => exact ih
  | dry _ ih => exact ih
  | delivered r _ _ ih => exact ih

/-- nor which copy it is, -/
theorem info (h : p.Runs l ds v m) : m.info = l.info := Local.info_of_origin h.origin

/-- and what hooks ask for changes nothing of what is out of their reach. -/
theorem core (h : p.Runs l ds v m) (hp : p.Within Node.Inner) : m.core = l.core := by
  induction h with
  | done a l b => rfl
  | @act a _ l _ _ b s _ _ _ _ h _ ih =>
    exact (ih (hp.2 _)).trans ((Node.Leads.act (p := ⟨[], l.withCancelled b, s⟩) h).core hp.1)
  | took _ ih => exact ih (hp.2 _)
  | dry _ ih => exact ih (hp.2 _)
  | delivered r _ _ ih => exact ih (hp.2 _)

/-- Whether rows may be rejected is settled by one action only. -/
theorem errorHandling (h : p.Runs l ds v m) (hp : p.Within Node.Fixed) :
    m.errorHandling = l.errorHandling := by
  induction h with
  | done a l b => rfl
  | @act a _ _ _ _ _ _ _ _ _ _ h _ ih =>
    rw [ih (hp.2 _)]
    cases a with
    | allowErrors allowed => exact absurd hp.1 id
    | choose outlet =>
      cases h
      cases outlet <;> rfl
    | hold =>
      rw [← (Prod.mk.inj (Prod.mk.inj h).2).1]
      rfl
    | _ =>
      cases h
      rfl
  | took _ ih => exact ih (hp.2 _)
  | dry _ ih => exact ih (hp.2 _)
  | delivered r _ _ ih => exact ih (hp.2 _)

end Runs

/-- What there is new in the journal after an action. -/
theorem journal_perform (a : Action) (l : Local) (s : Shared) {x : a.Answer}
    (h : (a.perform l s).1 = some x) :
    (a.perform l s).2.2.journal =
      (((Doing.act a x).note?.map fun n => ⟨l.info.name, l.info.copy, n⟩).toList ++ s.journal) := by
  cases a with
  | close i =>
    show (s.close i).1.journal = s.journal
    unfold Shared.close
    split <;> rfl
  | _ => rfl

theorem journal_look (l : Local) (s : Shared) : (look l s).1.journal = s.journal := by
  unfold look
  split
  · unfold Shared.poll
    split <;> rfl
  · rfl

theorem journal_offer (s : Shared) (i : Nat) (row : Row) :
    (s.offer i row).1.journal = s.journal := by
  unfold Shared.offer
  split <;> rfl

/-- Only a row set that there is refuses a row. -/
theorem exists_offer_error {s : Shared} {i : Nat} {row : Row} {f : Fault}
    (h : (s.offer i row).2 = .error f) : ∃ rs : RowSet, (rs.offer row).2 = .error f := by
  unfold Shared.offer at h
  split at h
  · cases h
  · exact ⟨_, h⟩

/-- What a copy at `l` does when `s` becomes `s'` and it has this trade, if it does anything. -/
structure Does (l : Local) (s : Shared) (d : Option Doing) (t : Option Trade) (s' : Shared) :
    Prop where
  journal : s'.journal =
    ((d.bind Doing.note?).map fun n => ⟨l.info.name, l.info.copy, n⟩).toList ++ s.journal
  row : d.bind Doing.row? = t.bind Trade.taken?

theorem does_nothing (l : Local) (s : Shared) : Does l s none none s := ⟨rfl, rfl⟩

section Search

variable {l m : Local} {ds : List Doing} {v : α} {next : Option Row → Program α}
  {pending : List Nat} {cursor : Nat}

/-- How far a search has come makes no difference. -/
theorem Runs.search {scan scan' : Scan}
    (h : (receive scan next).Runs (l.seeking pending cursor) ds v m) :
    (receive scan' next).Runs l ds v m := by
  cases h with
  | took hr => exact .took hr
  | dry hr => exact .dry hr

/-- A search that goes on, or ends without a row. -/
theorem runs_scanOn (scan : Scan) (next : Option Row → Program α) (l : Local)
    (pending : List Nat) (cursor seen : Nat) {s s' : Shared} (hs : s'.journal = s.journal) :
    ∃ d : Option Doing, Does l s d none s' ∧ ∀ ds v m,
      (scanOn seen (l.seeking pending cursor) next).Runs (l.seeking pending cursor) ds v m →
        (receive scan next).Runs l (d.toList ++ ds) v m := by
  unfold scanOn
  split
  · exact ⟨none, ⟨hs, rfl⟩, fun ds v m h => h.search⟩
  · split
    · exact ⟨some .dry, ⟨hs, rfl⟩, fun ds v m h => .dry h⟩
    · exact ⟨none, ⟨hs, rfl⟩, fun ds v m h => h.search⟩

end Search

theorem exists_doing_act (a : Action) (next : a.Answer → Program α) (l : Local) (s : Shared) :
    ∃ d, Does l s d ((act a next).trade? l s) ((act a next).step l s).2.2 ∧ ∀ ds v m,
      ((act a next).step l s).1.Runs ((act a next).step l s).2.1 ds v m →
        (act a next).Runs l (d.toList ++ ds) v m := by
  have htrade : a.trade?.bind Trade.taken? = none := by cases a <;> rfl
  have hjournal := fun x => journal_perform a l s (x := x)
  have hwait : (a.perform l s).1 = none → (a.perform l s).2 = (l, s) := by
    intro hnone
    cases a with
    | hold => rfl
    | _ => cases hnone
  rcases ha : a.perform l s with ⟨x?, l', s'⟩
  simp only [step, trade?, ha]
  simp only [ha] at hjournal hwait
  cases x? with
  | none =>
    obtain ⟨rfl, rfl⟩ := Prod.mk.inj (hwait rfl)
    exact ⟨none, ⟨rfl, htrade.symm⟩, fun ds v m h => h⟩
  | some x =>
    refine ⟨some (.act a x), ⟨hjournal x rfl, htrade.symm⟩, fun ds v m h => ?_⟩
    exact .act (b := l.cancelled) ha h

theorem exists_doing_receive (scan : Scan) (next : Option Row → Program α) (l : Local)
    (s : Shared) :
    ∃ d, Does l s d ((receive scan next).trade? l s) ((receive scan next).step l s).2.2 ∧
      ∀ ds v m, ((receive scan next).step l s).1.Runs ((receive scan next).step l s).2.1 ds v m →
        (receive scan next).Runs l (d.toList ++ ds) v m := by
  have hjournal := journal_look l s
  cases scan with
  | start =>
    simp only [step, trade?]
    split
    · exact ⟨some .dry, ⟨rfl, rfl⟩, fun ds v m h => .dry h⟩
    · exact ⟨none, ⟨rfl, rfl⟩, fun ds v m h => h.search⟩
  | looking seen =>
    rcases hl : look l s with ⟨s', row | _ | _⟩
    all_goals
      simp only [step, trade?, hl]
      rw [hl] at hjournal
    · exact ⟨some (.took row), ⟨hjournal, rfl⟩, fun ds v m h => .took h⟩
    · exact runs_scanOn _ next l l.pending _ _ hjournal
    · exact runs_scanOn _ next l _ l.cursor _ hjournal
  | waiting =>
    rcases hl : look l s with ⟨s', row | _ | _⟩
    all_goals
      simp only [step, trade?, hl]
      rw [hl] at hjournal
    · exact ⟨some (.took row), ⟨hjournal, rfl⟩, fun ds v m h => .took h⟩
    · exact ⟨none, ⟨hjournal, rfl⟩, fun ds v m h => h.search⟩
    · exact ⟨none, ⟨hjournal, rfl⟩, fun ds v m h => h.search⟩

/-- A step of a program puts one thing in front of what is left to do, or nothing. -/
theorem exists_doing (p : Program α) (l : Local) (s : Shared) :
    ∃ d, Does l s d (p.trade? l s) (p.step l s).2.2 ∧ ∀ ds v m,
      (p.step l s).1.Runs (p.step l s).2.1 ds v m → p.Runs l (d.toList ++ ds) v m := by
  cases p with
  | done a => exact ⟨none, ⟨rfl, rfl⟩, fun ds v m h => h⟩
  | act a next => exact exists_doing_act a next l s
  | receive scan next => exact exists_doing_receive scan next l s
  | deliver i row refused next =>
    have hjournal := journal_offer s i row
    have hback : ∀ back, (s.offer i row).2 = .ok (.full back) → back = row :=
      fun _ => Shared.eq_of_offer_full
    cases refused with
    | true =>
      simp only [step, trade?]
      split
      · exact ⟨some (.delivered i row (.ok .dropped)), ⟨rfl, rfl⟩, fun ds v m h =>
          .delivered_ok _ h⟩
      · refine ⟨none, ⟨rfl, rfl⟩, fun ds v m h => ?_⟩
        cases h with
        | delivered r hf hr => exact .delivered r hf hr
    | false =>
      rcases ho : s.offer i row with ⟨s', f | accepted | discarded | back⟩
      all_goals
        simp only [step, trade?, ho]
        simp only [ho] at hjournal hback
      · refine ⟨some (.delivered i row (.error f)), ⟨hjournal, rfl⟩, fun ds v m h =>
          .delivered _ ?_ h⟩
        rintro f' ⟨rfl⟩
        exact exists_offer_error (by rw [ho])
      · exact ⟨some (.delivered i row (.ok .accepted)), ⟨hjournal, rfl⟩, fun ds v m h =>
          .delivered_ok _ h⟩
      · exact ⟨some (.delivered i row (.ok .discarded)), ⟨hjournal, rfl⟩, fun ds v m h =>
          .delivered_ok _ h⟩
      · obtain rfl := hback back rfl
        refine ⟨none, ⟨hjournal, rfl⟩, fun ds v m h => ?_⟩
        cases h with
        | delivered r hf hr => exact .delivered r hf hr

end Program
end RowFlow
