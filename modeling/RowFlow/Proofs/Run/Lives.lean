import RowFlow.Proofs.Copy.Lives
import RowFlow.Proofs.Determinacy.Ledger
import RowFlow.Proofs.Plan.Ends

/-
The lives of the copies of a run.  The journal of a run is written by its copies and by
nobody else, each entry by the copy whose name and number it bears, and no two copies bear
the same.  So at any time the notes of a copy in the journal, and the rows that its ledger
says it has taken, are those of its own life (`lives_after`).
-/
namespace RowFlow

namespace Journal

theorem notesOf_cons (e : Entry) (j : Journal) (step : String) (copy : Nat) :
    notesOf (e :: j) step copy =
      notesOf j step copy ++ if e.step = step ∧ e.copy = copy then [e.note] else [] := by
  by_cases h : e.step = step ∧ e.copy = copy
  · simp [notesOf, h]
  · have hkey : (e.step == step && e.copy == copy) = false := by simpa using h
    simp [notesOf, hkey, h]

end Journal

namespace Program.Does

variable {l : Local} {s s' : Shared} {d : Option Doing} {t : Option Trade} {step : String}
  {copy : Nat}

theorem notesOf_self (h : Does l s d t s') : s'.journal.notesOf l.info.name l.info.copy =
    s.journal.notesOf l.info.name l.info.copy ++ (d.bind Doing.note?).toList := by
  rw [h.journal]
  cases d.bind Doing.note? with
  | none => simp
  | some n => simp [Journal.notesOf_cons]

theorem notesOf_other (h : Does l s d t s') (hne : ¬ (l.info.name = step ∧ l.info.copy = copy)) :
    s'.journal.notesOf step copy = s.journal.notesOf step copy := by
  rw [h.journal]
  cases d.bind Doing.note? with
  | none => simp
  | some n => simp [Journal.notesOf_cons, hne]

end Program.Does

/-- The notes in the journal and the rows in the log are those of the life of the copy that
was made as `c₀`. -/
def Copy.Told (c₀ : Copy) (j : Journal) (log : List Trade) (c : Copy) : Prop :=
  c.own.info = c₀.own.info ∧ ∃ ds, c.task.Stands c₀.own ds c.own ∧
    j.notesOf c₀.own.info.name c₀.own.info.copy = Doing.notes ds ∧ rowsTaken log = Doing.rows ds

namespace Copy.Told

variable {c₀ c c' : Copy} {s s' : Shared} {log : List Trade} {t : Option Trade}

theorem strides (h : c₀.Told s.journal log c) (hs : Strides s c t c' s') :
    c₀.Told s'.journal (log ++ t.toList) c' := by
  obtain ⟨hinfo, ds, hstands, hnotes, hrows⟩ := h
  obtain ⟨d, hd, hstands'⟩ := hs.stands hstands
  refine ⟨(Local.info_of_origin hs.becomes.origin).trans hinfo, ds ++ d.toList, hstands', ?_, ?_⟩
  · rw [Doing.notes_append, Doing.notes_toList, ← hnotes, ← hinfo, hd.notesOf_self]
  · have htaken : rowsTaken t.toList = (t.bind Trade.taken?).toList := by
      cases t with
      | none => rfl
      | some t => cases ht : t.taken? <;> simp [rowsTaken, ht]
    rw [Doing.rows_append, Doing.rows_toList, ← hrows, hd.row, ← htaken, rowsTaken, rowsTaken,
      rowsTaken, List.filterMap_append]

/-- What another copy does is told of that one. -/
theorem other (h : c₀.Told s.journal log c) {l : Local} {d : Option Doing} {t : Option Trade}
    (hd : Program.Does l s d t s')
    (hne : ¬ (l.info.name = c₀.own.info.name ∧ l.info.copy = c₀.own.info.copy)) :
    c₀.Told s'.journal log c := by
  obtain ⟨hinfo, ds, hstands, hnotes, hrows⟩ := h
  exact ⟨hinfo, ds, hstands, (hd.notesOf_other hne).trans hnotes, hrows⟩

theorem toAbandon {j : Journal} (h : c₀.Told j log c) : c₀.Told j log c.toAbandon := by
  obtain ⟨hinfo, ds, hstands, hnotes, hrows⟩ := h
  refine ⟨by rw [c.own_toAbandon]; exact hinfo, ds, ?_, hnotes, hrows⟩
  rw [c.own_toAbandon]
  exact stands_toAbandon hstands

theorem cancelled {j : Journal} (h : c₀.Told j log c) :
    c₀.Told j log { c with own := { c.own with cancelled := true } } := by
  obtain ⟨hinfo, ds, hstands, hnotes, hrows⟩ := h
  exact ⟨hinfo, ds, hstands.cancelled true, hnotes, hrows⟩

end Copy.Told

namespace Run

def Distinct (r : Run) : Prop :=
  ∀ (a b : Nat) (c c' : Copy), r.net.copies[a]? = some c → r.net.copies[b]? = some c' →
    c.own.info.name = c'.own.info.name ∧ c.own.info.copy = c'.own.info.copy → a = b

theorem Made.distinct {d : Definition} {registry : Registry} {config : Config} {plan : Plan}
    {r : Run} (h : Made d registry config plan r) : r.Distinct := by
  obtain ⟨steps, -, hc, -, rfl⟩ := Plan.ofDefinition_ok h.planned
  rintro a b c c' ha hb ⟨hname, hcopy⟩
  obtain ⟨x, hx, hplaced⟩ := h.isPlaced [] ha
  obtain ⟨y, hy, hplaced'⟩ := h.isPlaced [] hb
  rw [hplaced.info, hplaced'.info] at hname hcopy
  exact Plan.place_unique hc hx hy hname hcopy

/-- Only copies write the journal. -/
theorem journal_happen {r : Run} {e : Event} (h : ∀ place, e ≠ .copy place) :
    (r.happen e).net.shared.journal = r.net.shared.journal := by
  have he := r.effect_happen e
  generalize r.happen e = r' at he
  cases he with
  | copy place => exact absurd rfl (h place)
  | _ => rfl

end Run

namespace Ledger

def Lives (r₀ : Run) (t : Ledger) : Prop :=
  ∀ (place : Nat) (c : Copy), t.run.net.copies[place]? = some c →
    ∃ c₀, r₀.net.copies[place]? = some c₀ ∧ c₀.Told t.run.net.shared.journal (t.log place) c

variable {r₀ : Run} {t : Ledger}

theorem Lives.happen_copy (hdistinct : r₀.Distinct) (h : t.Lives r₀) (moved : Nat) :
    (t.happen (.copy moved)).Lives r₀ := by
  intro place c' hc'
  cases hm : t.run.net.copies[moved]? with
  | none =>
    have hnet : (t.happen (.copy moved)).run.net = t.run.net := by
      show t.run.net.step moved = t.run.net
      simp [Net.step, hm]
    have hlog : (t.happen (.copy moved)).log = t.log := by
      rw [log_copy, trade?, hm]
      exact entered_none
    rw [hnet] at hc' ⊢
    rw [hlog]
    exact h place c' hc'
  | some m =>
    have hstrides := m.strides_step t.run.net.shared
    have hlog : (t.happen (.copy moved)).log =
        entered t.log moved (m.trade? t.run.net.shared) := by
      rw [log_copy, trade?, hm]
      rfl
    have hshared : (t.happen (.copy moved)).run.net.shared = (m.step t.run.net.shared).2 := by
      show (t.run.net.step moved).shared = _
      simp [Net.step, hm]
    obtain ⟨m₀, hm₀, hinfo, ds, hstands, hrest⟩ := h moved m hm
    rw [hlog, hshared]
    obtain ⟨c, hc, ⟨hne, rfl⟩ | ⟨rfl, rfl⟩⟩ := Run.Staged.getElem?_copies_step hc'
    · obtain ⟨c₀, hc₀, htold⟩ := h place _ hc
      obtain ⟨d, hd, -⟩ := hstrides.stands hstands
      rw [entered_of_ne hne]
      refine ⟨c₀, hc₀, htold.other hd fun hsame => hne ?_⟩
      rw [hinfo] at hsame
      exact (hdistinct moved place m₀ c₀ hm₀ hc₀ hsame).symm
    · obtain rfl := Option.some.inj (hm.symm.trans hc)
      rw [entered_self]
      exact ⟨m₀, hm₀, Copy.Told.strides ⟨hinfo, ds, hstands, hrest⟩ hstrides⟩

theorem Lives.happen (hdistinct : r₀.Distinct) (h : t.Lives r₀) (e : Run.Event) :
    (t.happen e).Lives r₀ := by
  by_cases hcopy : ∃ moved, e = .copy moved
  · obtain ⟨moved, rfl⟩ := hcopy
    exact h.happen_copy hdistinct moved
  have hne : ∀ moved, e ≠ .copy moved := fun moved he => hcopy ⟨moved, he⟩
  intro place c' hc'
  have hjournal : (t.happen e).run.net.shared.journal = t.run.net.shared.journal :=
    Run.journal_happen hne
  rw [log_of_not_copy hne, hjournal]
  have htold : ∀ {c : Copy}, t.run.net.copies[place]? = some c → ∃ c₀,
      r₀.net.copies[place]? = some c₀ ∧ c₀.Told t.run.net.shared.journal (t.log place) c :=
    fun hc => h place _ hc
  -- A change of task that is no step leaves all that is shared as it is.
  have hturn : ∀ {c c₁ : Copy}, Copy.Strides t.run.net.shared c none c₁ t.run.net.shared →
      t.run.net.copies[place]? = some c → ∃ c₀, r₀.net.copies[place]? = some c₀ ∧
        c₀.Told t.run.net.shared.journal (t.log place) c₁ := by
    intro c c₁ hs hc
    obtain ⟨c₀, hc₀, hc⟩ := htold hc
    have hnow := hc.strides hs
    rw [Option.toList_none, List.append_nil] at hnow
    exact ⟨c₀, hc₀, hnow⟩
  have he := t.run.effect_happen e
  have hc'' : (t.run.happen e).net.copies[place]? = some c' := hc'
  generalize t.run.happen e = r' at he hc''
  cases he with
  | prepare _ =>
    obtain ⟨c, hc, rfl⟩ := Run.Staged.getElem?_modifyAll hc''
    exact hturn (c.strides_toBegin _) hc
  | start _ =>
    obtain ⟨c, hc, rfl⟩ := Run.Staged.getElem?_modifyAll hc''
    exact hturn (c.strides_toWork _) hc
  | copy moved => exact absurd rfl (hne moved)
  | abandon _ _ _ =>
    obtain ⟨c, hc, rfl | ⟨-, rfl⟩⟩ := Run.Staged.getElem?_modify hc''
    · exact htold hc
    · obtain ⟨c₀, hc₀, hc⟩ := htold hc
      exact ⟨c₀, hc₀, hc.toAbandon⟩
  | stopCancel _ =>
    obtain ⟨c, hc, rfl | ⟨-, rfl⟩⟩ := Run.Staged.getElem?_modify hc''
    · exact htold hc
    · obtain ⟨c₀, hc₀, hc⟩ := htold hc
      exact ⟨c₀, hc₀, hc.cancelled⟩
  | _ => exact htold hc''

theorem Lives.after (hdistinct : r₀.Distinct) (h : t.Lives r₀) (events : List Run.Event) :
    (t.after events).Lives r₀ := by
  induction events generalizing t with
  | nil => exact h
  | cons e rest ih => exact ih (h.happen hdistinct e)

end Ledger

namespace Run

variable {d : Definition} {registry : Registry} {config : Config} {plan : Plan} {r : Run}

theorem lives_after (h : Made d registry config plan r) (events : List Event) :
    (r.ledger events).Lives r := by
  refine Ledger.Lives.after h.distinct (fun place c hc => ⟨c, hc, rfl, [], ?_, ?_, rfl⟩) events
  · have hkind := (h.isMade (List.mem_of_getElem? hc)).choose_spec.kind
    obtain ⟨op, own, task⟩ := c
    cases task with
    | created => exact .created own.cancelled
    | _ => cases hkind
  · show Journal.notesOf r.net.shared.journal _ _ = _
    rw [h.shared]
    rfl

/-- A copy that is gone has had such a life, from before anything had happened. -/
theorem lives_of_gone (h : Made d registry config plan r) {events : List Event} {place : Nat}
    {op : Operator} {own : Local}
    (hc : (r.after events).net.copies[place]? = some ⟨op, own, .gone⟩) :
    ∃ o ds, op.Lives o .gone ds own ∧ o.outcome = none ∧
      (r.after events).net.shared.journal.notesOf own.info.name own.info.copy =
        Doing.notes ds ∧ rowsTaken ((r.ledger events).log place) = Doing.rows ds := by
  have hrun : (r.ledger events).run = r.after events := Ledger.run_after _ events
  have hlives := lives_after h events place ⟨op, own, .gone⟩
  rw [hrun] at hlives
  obtain ⟨c₀, hc₀, hinfo, ds, hstands, hnotes, hrows⟩ := hlives hc
  obtain ⟨_, _, _, _, hfresh⟩ := h.own_fresh (List.mem_of_getElem? hc₀)
  rw [← hinfo] at hnotes
  exact ⟨c₀.own, ds, hstands, by rw [hfresh]; rfl, hnotes, hrows⟩

/-- Such a copy has departed from its life. -/
theorem departs_of_gone (h : Made d registry config plan r) {events : List Event} {place : Nat}
    {op : Operator} {own : Local}
    (hc : (r.after events).net.copies[place]? = some ⟨op, own, .gone⟩) :
    ∃ ds s, op.Departs ds own s ∧
      (r.after events).net.shared.journal.notesOf own.info.name own.info.copy =
        Doing.notes ds ∧ rowsTaken ((r.ledger events).log place) = Doing.rows ds := by
  obtain ⟨o, ds, hlives, -, htold⟩ := lives_of_gone h hc
  obtain ⟨s, hdeparts⟩ := hlives.gone rfl
  exact ⟨ds, s, hdeparts, htold⟩

/-- A copy that is gone has the operator that it was made with. -/
theorem exists_gone {r : Run} {events : List Event} {place : Nat} {op : Operator}
    (hgone : (r.after events).net.copies[place]?.map (·.isGone) = some true)
    (hop : r.net.copies[place]?.map (·.op) = some op) :
    ∃ c, (r.after events).net.copies[place]? = some c ∧ c.isGone = true ∧ c.op = op := by
  obtain ⟨c, hc, hgone⟩ := Option.map_eq_some_iff.mp hgone
  obtain ⟨c₀, hc₀, hbecomes⟩ := becomes_after events hc
  rw [hc₀, Option.map_some, Option.some.injEq] at hop
  exact ⟨c, hc, hgone, hbecomes.op.trans hop⟩

def rounds (copies n : Nat) : List Event :=
  (List.replicate n ((List.range copies).map .copy)).flatten

end Run
end RowFlow
