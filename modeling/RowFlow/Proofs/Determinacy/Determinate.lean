import Mathlib.Order.Filter.AtTopBot.Basic
import Mathlib.Order.Filter.Finite
import RowFlow.Proofs.Determinacy.Operators
import RowFlow.Proofs.Determinacy.Start

/-
Runs that come to one end in whatever order their copies take turns, and however much
space their row sets have (`Run.determinate`).  At the end of a run each copy has come to
what it comes to on its own on the rows that were put for it; by induction on the order of
the plan these are the rows of the copies on their own.

A copy that goes on after a row of its own was refused for its layout is left out, and has
to be: a row is not refused any more when its reader has left, and this is a matter of
turns (`Run.indeterminate_careless`).
-/
namespace RowFlow

def logsBefore (log : Nat → List Trade) (place : Nat) : List Trade :=
  (List.range place).flatMap log

theorem logsBefore_succ (log : Nat → List Trade) (place : Nat) :
    logsBefore log (place + 1) = logsBefore log place ++ log place := by
  simp [logsBefore, List.range_succ]

/-- The copies on their own, if it is known of each what it comes to on the trades of
those before it. -/
theorem evaluate_of_each {names : Nat → String} {rounds : Nat} {log : Nat → List Trade}
    (own : Nat → Option Local) (cs : List Copy) (place : Nat)
    (h : ∀ (k : Nat) (c : Copy), cs[k]? = some c → ∃ l rest, own (place + k) = some l ∧
      c.alone names rounds
        { own := c.own.still, rows := rowsPut c.own.inputs (logsBefore log (place + k)) } =
          some ⟨l, rest, log (place + k)⟩) :
    ∃ results, evaluate names rounds cs (logsBefore log place) = some results ∧
      results.length = cs.length ∧ ∀ (k : Nat) (x : Solo), results[k]? = some x →
        own (place + k) = some x.own ∧ x.log = log (place + k) := by
  induction cs generalizing place with
  | nil => exact ⟨[], rfl, rfl, by simp⟩
  | cons c cs ih =>
    have hshift : ∀ k, place + (k + 1) = place + 1 + k := fun k => by omega
    obtain ⟨l, rest, hl, hc⟩ := h 0 c rfl
    obtain ⟨results, heval, hlen, hresults⟩ := ih (place + 1) fun k c hk => by
      rw [← hshift]
      exact h (k + 1) c hk
    refine ⟨⟨l, rest, log place⟩ :: results, ?_, by simp [hlen], fun k x hx => ?_⟩
    · rw [logsBefore_succ] at heval
      simp only [Nat.add_zero] at hc
      simp [evaluate, hc, heval]
    · cases k with
      | zero =>
        cases hx
        exact ⟨hl, rfl⟩
      | succ k =>
        rw [hshift]
        exact hresults k x hx

namespace Wires

variable {w : Wires} {log : Nat → List Trade} {xs : List RowSet}

/-- All that was put on a row set was put by its writer. -/
theorem Books.rowsPut_logsBefore (h : w.Books log xs) {a i place : Nat} (ha : i ∈ w.outlets a)
    (hlt : a < place) : rowsPut [i] (logsBefore log place) = rowsPut [i] (log a) := by
  have hflat : rowsPut [i] (logsBefore log place) =
      (List.range place).flatMap fun q => rowsPut [i] (log q) := List.filterMap_flatMap
  rw [hflat]
  refine Plan.flatMap_of_unique List.nodup_range (List.mem_range.mpr hlt) fun q _ hne => ?_
  exact h.elsewhere fun hq => hne (w.writer hq ha)

/-- What the copies before it have put for a copy is what could come to it in the end. -/
theorem Books.feeds_logsBefore (h : w.Books log xs) (place : Nat) :
    w.Feeds log xs place (rowsPut (w.inputs place) (logsBefore log place)) ∧
      ∃ rest, rowsPut (w.inputs place) (logsBefore log place) = rowsTaken (log place) ++ rest := by
  match hin : w.inputs place, w.lone place with
  | [], _ =>
    refine ⟨fun ha hb _ => ?_, [], ?_⟩
    · rw [hin] at hb
      cases hb
    · rw [rowsPut_nil_rowSets, h.sources hin]
      rfl
  | [i], _ =>
    have hi : i ∈ w.inputs place := hin ▸ List.mem_singleton_self i
    obtain ⟨a, hlt, ha⟩ := w.source hi
    obtain ⟨rs, hrs, -⟩ := h.found ha
    obtain ⟨lost, hqueue, -⟩ := h.queue ha hi hrs
    rw [h.rowsPut_logsBefore ha hlt]
    refine ⟨fun {a' j rs'} ha' hj _ => ?_, _, hqueue⟩
    rw [hin] at hj
    obtain rfl := List.mem_singleton.mp hj
    obtain rfl := w.writer ha ha'
    exact ⟨List.prefix_refl _, fun _ => rfl⟩

/-- A copy at its end is at the end of the copy on its own. -/
theorem Fits.alone_of_gone {place : Nat} {c₀ c : Copy} (hb : w.Books log xs)
    (h : w.Fits log xs place c₀ c) (hgone : c.kind = .gone) :
    ∃ k, ∀ n, k ≤ n → ∃ rest, c₀.alone w.names n
      { own := c₀.own.still, rows := rowsPut (w.inputs place) (logsBefore log place) } =
        some ⟨c.own.still, rest, log place⟩ := by
  obtain ⟨hfeeds, rest, hrows⟩ := hb.feeds_logsBefore place
  obtain ⟨op, own, task⟩ := c
  cases task with
  | gone =>
    rcases h.fate with hdoomed | ⟨k, htie⟩
    · exact absurd hdoomed id
    · refine ⟨k, fun n hn => ⟨rest, ?_⟩⟩
      rw [← Nat.sub_add_cancel hn]
      exact htie _ rest (n - k) hfeeds hrows
  | _ => cases hgone

end Wires

/-- A run at its end has come to what its copies come to on their own. -/
theorem Ledger.Agrees.evaluate {w : Wires} {r₀ : Run} {t : Ledger} (h : t.Agrees w r₀)
    (hlen : t.run.net.copies.length = r₀.net.copies.length)
    (hinputs : ∀ (place : Nat) (c : Copy), r₀.net.copies[place]? = some c →
      c.own.inputs = w.inputs place)
    (hgone : ∀ c ∈ t.run.net.copies, c.kind = .gone) :
    ∃ k, ∀ n ≥ k, ∃ results, RowFlow.evaluate w.names n r₀.net.copies [] = some results ∧
      t.shares = results.map Solo.share := by
  let own (place : Nat) : Option Local := t.run.net.copies[place]?.map (·.own.still)
  have heach : ∀ place ∈ Finset.range r₀.net.copies.length, ∃ k, ∀ n ≥ k, ∀ c₀,
      r₀.net.copies[place]? = some c₀ → ∃ l rest, own place = some l ∧ c₀.alone w.names n
        { own := c₀.own.still, rows := rowsPut c₀.own.inputs (logsBefore t.log place) } =
          some ⟨l, rest, t.log place⟩ := by
    intro place hplace
    have hlt : place < t.run.net.copies.length := hlen ▸ Finset.mem_range.mp hplace
    have hc := List.getElem?_eq_getElem hlt
    obtain ⟨c₀, hc₀, hfits⟩ := h.copies place _ hc
    obtain ⟨k, hk⟩ := hfits.alone_of_gone h.books (hgone _ (List.getElem_mem hlt))
    refine ⟨k, fun n hn c₁ hc₁ => ?_⟩
    obtain rfl := Option.some.inj (hc₀.symm.trans hc₁)
    obtain ⟨rest, hrest⟩ := hk n hn
    refine ⟨_, rest, congrArg (Option.map _) hc, ?_⟩
    rw [hinputs place c₀ hc₀]
    exact hrest
  -- So many rounds are enough for all copies.
  obtain ⟨k, hk⟩ := Filter.eventually_atTop.mp ((Filter.eventually_all_finset _).mpr
    fun place hplace => Filter.eventually_atTop.mpr (heach place hplace))
  refine ⟨k, fun n hn => ?_⟩
  obtain ⟨results, heval, hlength, hresults⟩ :=
    evaluate_of_each own r₀.net.copies 0 fun place c hc => by
      rw [Nat.zero_add]
      exact hk n hn place (Finset.mem_range.mpr (List.getElem?_eq_some_iff.mp hc).1) c hc
  refine ⟨results, heval, List.ext_getElem? fun place => ?_⟩
  rw [Ledger.shares, List.getElem?_map, List.getElem?_zipIdx, List.getElem?_map]
  cases hx : results[place]? with
  | none =>
    have hge := List.getElem?_eq_none_iff.mp hx
    rw [List.getElem?_eq_none (by rw [hlen, ← hlength]; exact hge)]
    rfl
  | some x =>
    obtain ⟨hown, hlog⟩ := hresults place x hx
    rw [Nat.zero_add] at hown hlog
    obtain ⟨c, hc, hstill⟩ := Option.map_eq_some_iff.mp hown
    rw [hc]
    simp only [Option.map_some, Nat.zero_add, Solo.share, ← hstill, hlog]
    rfl

namespace Run

variable {d : Definition} {registry : Registry} {config config' : Config} {r r' : Run}

/-- A run that has ended without a stop has come to what its copies come to on their own. -/
theorem evaluate_of_isOver (h : make d registry config = .ok r)
    (hlone : ∀ c ∈ r.net.copies, c.own.inputs.length ≤ 1)
    (hops : ∀ c ∈ r.net.copies, c.op.Secluded) (events : List Event)
    (hclash : ∀ place c, r.net.copies[place]? = some c →
      c.op.HandsBack ∨ (r.ledger events).Unrefused place)
    (hover : (r.after events).IsOver) (hdown : (r.after events).control.stopped = false) :
    ∃ k, ∀ n ≥ k, ∃ results, evaluate r.nameOf n r.net.copies [] = some results ∧
      (r.ledger events).shares = results.map Solo.share := by
  obtain ⟨plan, hmade⟩ := made_of_make h
  have hrun : (r.ledger events).run = r.after events := Ledger.run_after _ events
  have hagrees : (r.ledger events).Agrees (hmade.wires hlone) r :=
    (hmade.agrees hlone hops).after (hrun.symm ▸ hdown) hclash
  refine hagrees.evaluate ?_ (fun place c hc => (inputsAt_of_getElem? hc).symm) fun c hc => ?_
  · rw [hrun, length_copies_after]
  · rw [hrun] at hc
    exact (hmade.staged.after events).gone_of_isOver hover hc

/-- Whatever the order of turns and the space in row sets, a run without a stop has one
end, if no copy has more than one input: the end of its copies one after the other, each
on its own. -/
theorem determinate (h : make d registry config = .ok r) (h' : make d registry config' = .ok r')
    (hlone : ∀ c ∈ r.net.copies, c.own.inputs.length ≤ 1)
    (hops : ∀ c ∈ r.net.copies, c.op.Secluded) (events events' : List Event)
    (hclash : ∀ place c, r.net.copies[place]? = some c → c.op.HandsBack ∨
      (r.ledger events).Unrefused place ∧ (r'.ledger events').Unrefused place)
    (hover : (r.after events).IsOver) (hover' : (r'.after events').IsOver)
    (hdown : (r.after events).control.stopped = false)
    (hdown' : (r'.after events').control.stopped = false) :
    ∃ rounds results, evaluate r.nameOf rounds r.net.copies [] = some results ∧
      (r.ledger events).shares = results.map Solo.share ∧
      (r'.ledger events').shares = results.map Solo.share := by
  obtain ⟨hcopies, hnames⟩ := make_config h h'
  obtain ⟨k, hk⟩ := evaluate_of_isOver h hlone hops events
    (fun place c hc => (hclash place c hc).imp id And.left) hover hdown
  obtain ⟨k', hk'⟩ := evaluate_of_isOver h' (hcopies.symm ▸ hlone) (hcopies.symm ▸ hops) events'
    (fun place c hc => (hclash place c (hcopies ▸ hc)).imp id And.right) hover' hdown'
  obtain ⟨results, heval, hshares⟩ := hk (max k k') (le_max_left k k')
  obtain ⟨results', heval', hshares'⟩ := hk' (max k k') (le_max_right k k')
  rw [hcopies, hnames, heval] at heval'
  cases heval'
  exact ⟨_, results, heval, hshares, hshares'⟩

def narrowRun : Run :=
  ((make counting .builtins { queueSize := 1 }).toOption).getD
    { name := "", config := {}, net := { copies := [] } }

theorem make_narrow : make counting .builtins { queueSize := 1 } = .ok narrowRun := rfl

theorem determinate_counting :
    (narrowRun.after countingCourse).net.shared ≠ (countingRun.after countingCourse).net.shared ∧
    ∃ rounds results, evaluate countingRun.nameOf rounds countingRun.net.copies [] = some results ∧
      (countingRun.ledger countingCourse).shares = results.map Solo.share ∧
      (narrowRun.ledger countingCourse).shares = results.map Solo.share := by
  refine ⟨by decide +kernel, determinate make_counting make_narrow ?_ ?_ _ _ ?_ isOver_counting
    (.inl (by decide +kernel)) (by decide +kernel) (by decide +kernel)⟩
  · exact forall_counting (P := fun _ inputs => inputs.length ≤ 1) (Nat.zero_le 1) (Nat.le_refl 1)
  · exact forall_counting (P := fun op _ => op.Secluded) (Sequence.secluded_operator _)
      Operator.secluded_passThrough
  · have hops := forall_counting (P := fun op _ => op.HandsBack) (Sequence.handsBack_operator _)
      Operator.handsBack_passThrough
    exact fun place c hc => .inl (hops c (List.mem_of_getElem? hc))

/-- A step that gives three rows, of which the last does not fit to the others, whether
they are taken or not, and a step that takes one row. -/
def giver : Script where
  scenes := [{
    acts := [(Sequence.mk "id" 1 2).row, (Sequence.mk "id" 2 1).row,
      ⟨⟨[{ name := "id", type := .string }]⟩, [.string "three"], rfl⟩].map fun row =>
        .putRow (.given (.ok row))
    ending := .result false }]

def taker : Script where
  scenes := [{ acts := [.getRow], ending := .result false }]

def careless : Definition where
  name := "careless"
  steps := [{ name := "giver", plugin := "giver" }, { name := "taker", plugin := "taker" }]
  hops := [{ source := "giver", target := "taker" }]

def carelessRegistry : Registry :=
  KeyMap.ofList [
    ("giver", Recipe.make (.script giver)),
    ("taker", Recipe.make (.script taker))]

def carelessRun (size : UInt64) : Run :=
  ((make careless carelessRegistry { queueSize := size }).toOption).getD
    { name := "", config := {}, net := { copies := [] } }

def carelessCourse : List Event :=
  .prepare :: (turns 12 ++ [.chief, .start] ++ List.replicate 40 (.copy 0) ++ turns 60 ++ [.finish])

theorem secluded_careless : ∀ c ∈ (carelessRun 1).net.copies, c.op.Secluded := by
  intro c hc
  have hops : (carelessRun 1).net.copies.map (·.op) = [giver.operator, taker.operator] := rfl
  have hmem : c.op ∈ (carelessRun 1).net.copies.map (·.op) := List.mem_map_of_mem hc
  rw [hops] at hmem
  rcases List.mem_cons.mp hmem with hop | hmem
  · rw [hop]
    exact giver.secluded_operator
  · rw [List.mem_singleton.mp hmem]
    exact taker.secluded_operator

/-- Where there is space for three rows the last one is looked at while the taker is there,
and is refused.  Where there is space for one only, the taker has left by then, and no row
is looked at any more. -/
theorem indeterminate_careless :
    make careless carelessRegistry { queueSize := 1 } = .ok (carelessRun 1) ∧
    make careless carelessRegistry { queueSize := 3 } = .ok (carelessRun 3) ∧
    (∀ c ∈ (carelessRun 1).net.copies, c.own.inputs.length ≤ 1) ∧
    (∀ c ∈ (carelessRun 1).net.copies, c.op.Secluded) ∧
    ((carelessRun 1).after carelessCourse).IsOver ∧
    ((carelessRun 3).after carelessCourse).IsOver ∧
    ((carelessRun 1).after carelessCourse).control.stopped = false ∧
    ((carelessRun 3).after carelessCourse).control.stopped = false ∧
    ((carelessRun 1).ledger carelessCourse).shares.map (·.counts.written) = [3, 0] ∧
    ((carelessRun 3).ledger carelessCourse).shares.map (·.counts.written) = [2, 0] :=
  ⟨rfl, rfl, by decide +kernel, secluded_careless, .inl (by decide +kernel),
    .inl (by decide +kernel), by decide +kernel, by decide +kernel, by decide +kernel,
    by decide +kernel⟩

end Run
end RowFlow
