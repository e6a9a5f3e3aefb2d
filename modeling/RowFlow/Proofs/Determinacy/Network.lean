import RowFlow.Proofs.Determinacy.Wires

/-
Copies of a run and the same copies on their own.  `Wires.Ties` says of a copy in the
midst of a run: whatever rows may still come to it, on its own it comes to the same end
from where it is as from where it began.  What the copy does keeps this, and so does what
others do (`Fits.stride`, `Fits.drift`).
-/
namespace RowFlow

namespace Wires

variable (w : Wires) (log : Nat → List Trade) (xs : List RowSet)

/-- From where a copy began and from where it is, it comes to the same on its own. -/
def Ties (place : Nat) (c₀ c : Copy) : Prop :=
  ∃ k, ∀ rows rest n, w.Feeds log xs place rows → rows = rowsTaken (log place) ++ rest →
    c₀.alone w.names (n + k) ⟨c₀.own.still, rows, []⟩ =
      c.alone w.names n ⟨c.own.still, rest, log place⟩

structure Fits (place : Nat) (c₀ c : Copy) : Prop where
  made : c.op = c₀.op
  op : c.op.Secluded
  inputs : c.own.inputs = w.inputs place
  outlets : c.own.outlets = w.outlets place
  pending : c.own.pending.Sublist c.own.inputs
  secluded : c.task.Secluded c.own.origin
  parted : ∀ i ∈ w.inputs place, ∀ rs, xs[i]? = some rs → rs.detached = true →
    c.own.pending = [] ∨ c.task.Parting
  ended : c.own.outputDone = true → ∀ i ∈ w.outlets place,
    c.task.Closing i ∨ .ended i ∈ log place
  late : c.task.Late ∨ c.own.outputDone = true
  strict : c₀.op.HandsBack → c.task.Strict
  fate : c.task.Doomed ∨ w.Ties log xs place c₀ c

end Wires

namespace Wires

variable {w : Wires} {log : Nat → List Trade} {xs xs' : List RowSet} {place : Nat}
  {d : Option Trade} {parts : Prop} {c₀ c c' : Copy} {s s' : Shared}

theorem not_parting_of_receive (h : c.node? = some .receive) : ¬ c.task.Parting := by
  have hprogram : ∀ {α : Type} {p : Program α}, p.node? = some .receive → ¬ p.Parting := by
    intro α p hp hparting
    cases p with
    | receive scan next => exact hparting
    | _ => simp [Program.node?] at hp
  obtain ⟨op, own, task⟩ := c
  cases task with
  | beginning p => exact hprogram h
  | working p => exact hprogram h
  | leaving p => exact hprogram h
  | _ => exact id

/-- A copy that finds its input at its end has taken all rows that could come to it. -/
theorem Fits.dry (h : w.Fits log s.rowSets place c₀ c) (hb : w.Books log s.rowSets)
    {rows rest : List Row} (hfeeds : w.Feeds log s.rowSets place rows)
    (hrows : rows = rowsTaken (log place) ++ rest) : Copy.Strides.Dry c s rest := by
  intro i hpending hnode hdone
  have hi : i ∈ w.inputs place := by
    rw [← h.inputs]
    refine h.pending.subset ?_
    rw [hpending]
    exact List.mem_singleton_self i
  obtain ⟨a, -, ha⟩ := w.source hi
  obtain ⟨rs, hrs, -⟩ := hb.found ha
  obtain ⟨lost, hqueue, hlost⟩ := hb.queue ha hi hrs
  have hisDone := Shared.isDone_of_poll hdone rs hrs
  simp only [RowSet.isDone, Bool.and_eq_true, List.isEmpty_iff] at hisDone
  -- A copy that has left its input is giving up all of them, and takes no look at any.
  have hstay : rs.detached = false := by
    refine Bool.eq_false_iff.mpr fun hleft => ?_
    rcases h.parted i hi rs hrs hleft with hnone | hparting
    · simp [hpending] at hnone
    · exact not_parting_of_receive hnode hparting
  have hall := (hfeeds ha hi hrs).2 hisDone.1
  rw [hqueue, hisDone.2, hlost hstay, hrows] at hall
  simpa using hall.symm

/-- What others do does not matter to a copy. -/
theorem Fits.drift {b : Nat} (h : w.Fits log xs b c₀ c) (hne : b ≠ place)
    (hb : w.Books log xs)
    (ht : Program.Touches (w.inputs place) (w.outlets place) parts xs d xs') :
    w.Fits (entered log place d) xs' b c₀ c := by
  refine { h with parted := ?_, ended := ?_, fate := ?_ }
  · intro i hi rs' hrs' hleft
    obtain ⟨a, -, ha⟩ := w.source hi
    obtain ⟨rs, hrs, -⟩ := hb.found ha
    obtain ⟨rs'', hrs'', hf⟩ := ht.fares (w.lone place) hrs
    obtain rfl := Option.some.inj (hrs'.symm.trans hrs'')
    refine h.parted i hi rs hrs (Bool.of_not_eq_false fun hstay => ?_)
    exact hne (w.reader hi (hf.parts_of_detached hstay hleft).1)
  · rw [entered_of_ne hne]
    exact h.ended
  · refine h.fate.imp id ?_
    rintro ⟨k, htie⟩
    refine ⟨k, fun rows rest n hfeeds hrows => ?_⟩
    rw [entered_of_ne hne] at hrows ⊢
    exact htie rows rest n (hfeeds.before ht) hrows

section Stride

variable (h : w.Fits log s.rowSets place c₀ c) (hb : w.Books log s.rowSets)
  (hc : Copy.Strides s c d c' s')
include h hb hc

theorem Fits.touches :
    Program.Touches (w.inputs place) (w.outlets place) c'.task.Parting s.rowSets d s'.rowSets := by
  have ht := hc.touches h.secluded (fun i hi => h.pending.subset hi) ?_
  · rwa [h.inputs, h.outlets] at ht
  · intro i hi
    rw [h.inputs, h.outlets] at hi
    rcases hi with hi | hi
    · obtain ⟨a, -, ha⟩ := w.source hi
      exact (hb.found ha).imp fun _ hrs => hrs.1
    · exact (hb.found hi).imp fun _ hrs => hrs.1

theorem Fits.ties_stride (hdown : s'.control.stopped = false)
    (hclash : ∀ x, d = some x → ¬ x.Clash) (hdoomed : ¬ c'.task.Doomed)
    (htie : w.Ties log s.rowSets place c₀ c) :
    w.Ties (entered log place d) s'.rowSets place c₀ c' := by
  obtain ⟨k, htie⟩ := htie
  have hpending : c.own.pending.length ≤ 1 :=
    h.pending.length_le.trans (h.inputs ▸ w.lone place)
  have hknown : ∀ i ∈ c.own.outlets, Program.Known w.names s.rowSets (log place) i :=
    fun i hi => hb.found (h.outlets ▸ hi)
  obtain ⟨j, halone⟩ := hc.alone h.secluded hdown hpending hknown hclash hdoomed
  refine ⟨j + k, fun rows rest n hfeeds hrows => ?_⟩
  rw [entered_self] at hrows ⊢
  have hbefore : w.Feeds log s.rowSets place rows := hfeeds.before (h.touches hb hc)
  -- A row taken in this step is the first of those that the copy has still had to read.
  have hsplit : rows = rowsTaken (log place) ++ (rowsTaken d.toList ++ rest) := by
    rw [hrows, rowsTaken_append, List.append_assoc]
  have hdry : Copy.Strides.Dry c s rest := fun i hi hnode hdone =>
    (List.append_eq_nil_iff.mp (h.dry hb hbefore hsplit i hi hnode hdone)).2
  rw [← Nat.add_assoc, htie rows _ (n + j) hbefore hsplit]
  exact halone rest hdry n

/-- Where nothing goes on after a refusal, nothing but a stop comes of one. -/
theorem Fits.doomed_of_clash (hop : c₀.op.HandsBack) {x : Trade} (hd : d = some x)
    (hclash : x.Clash) : c'.task.Doomed := by
  refine hc.doomed_of_clash (h.strict hop) h.secluded h.late (fun hdone i hi => ?_) hd hclash
  rw [h.outlets] at hi
  refine (h.ended hdone i hi).imp id fun hlog => ?_
  obtain ⟨rs, hrs, -, hclosed⟩ := hb.found hi
  exact ⟨rs, hrs, hclosed.mpr hlog⟩

/-- What a copy does itself. -/
theorem Fits.stride (hdown : s'.control.stopped = false)
    (hclash : c₀.op.HandsBack ∨ ∀ x, d = some x → ¬ x.Clash) :
    w.Fits (entered log place d) s'.rowSets place c₀ c' := by
  have hbecomes := hc.becomes
  have hinputs := Local.inputs_of_origin hbecomes.origin
  constructor
  case made => exact hbecomes.op.trans h.made
  case op => exact hbecomes.op ▸ h.op
  case inputs => exact hinputs.trans h.inputs
  case outlets => exact (Local.outlets_of_origin hbecomes.origin).trans h.outlets
  case pending => exact hinputs ▸ hc.pending.trans h.pending
  case secluded => exact hbecomes.origin ▸ hc.secluded h.op h.secluded
  case parted =>
    intro i hi rs' hrs' hleft
    obtain ⟨a, -, ha⟩ := w.source hi
    obtain ⟨rs, hrs, -⟩ := hb.found ha
    obtain ⟨rs'', hrs'', hf⟩ := (h.touches hb hc).fares (w.lone place) hrs
    obtain rfl := Option.some.inj (hrs'.symm.trans hrs'')
    cases hstay : rs.detached with
    | false => exact .inr (hf.parts_of_detached hstay hleft).2
    | true =>
      rcases h.parted i hi rs hrs hstay with hnone | hparting
      · exact .inl (List.sublist_nil.mp (hnone ▸ hc.pending))
      · exact (hc.parting hparting).symm
  case ended =>
    intro hdone i hi
    rw [entered_self, List.mem_append, Option.mem_toList]
    cases hbefore : c.own.outputDone with
    | false => exact .inl (hc.closing_of_outputDone h.secluded hbefore hdone (h.outlets ▸ hi))
    | true =>
      rcases h.ended hbefore i hi with hclosing | hlog
      · exact (hc.closing hclosing).imp id .inr
      · exact .inr (.inl hlog)
  case late => exact hc.late h.late
  case strict => exact fun hop => hc.strict (h.made ▸ hop) (h.strict hop)
  case fate =>
    -- In what follows nothing has come up that only a stop can come of.
    by_cases hdoomed : c'.task.Doomed
    · exact .inl hdoomed
    refine .inr ?_
    have hfits : ∀ x, d = some x → ¬ x.Clash := fun x hd hx =>
      hclash.elim (fun hop => hdoomed (h.doomed_of_clash hb hc hop hd hx)) fun hno => hno x hd hx
    rcases h.fate with hdoom | htie
    · exact absurd (hc.doomed hdown hdoom) hdoomed
    · exact h.ties_stride hb hc hdown hfits hdoomed htie

end Stride

end Wires
end RowFlow
