import RowFlow.Proofs.Determinacy.Strict
import RowFlow.Proofs.Progress.Release
import RowFlow.Proofs.RowSet.Fifo

/-
What one action comes to on its own.  As long as the run is not stopped, what a secluded
program does in the midst of others it does on its own as well (`alone_step`), unless it
has seen that the run is going to be stopped.
-/
namespace RowFlow

def Trade.Clash : Trade → Prop
  | refused _ _ f => f.Clash
  | _ => False

section Still

variable {l : Local}

@[simp] theorem Local.pending_still (l : Local) : l.still.pending = l.pending := rfl

theorem Local.still_drop {i : Nat} (h : l.pending = [i]) :
    l.drop.still = { l.still with pending := [] } := by
  have hplace : l.place = 0 := by simp [Local.place, h, Nat.mod_one]
  simp [Local.drop, Local.still, h, hplace]

end Still

namespace Action

theorem says_perform {a : Action} {l : Local} {s : Shared} {x : a.Answer}
    (h : (a.perform l s).1 = some x) : a.Says l.origin x := by
  cases a with
  | own =>
    cases h
    rfl
  | choose outlet =>
    cases h
    intro i hi
    rw [Local.outlets_origin]
    exact Progress.mem_outlets_of_choose hi
  | _ => trivial

/-- An action of a copy in a run, and of the copy on its own. -/
structure Mirrors (a : Action) (l : Local) (s : Shared) : Prop where
  raises : a.raises = false
  own : (a.perform l.still {}).2.1 = (a.perform l s).2.1.still
  answer : ((a.perform l s).1 = none ∧ (a.perform l s).2.1 = l ∧ (a.perform l.still {}).1 = none) ∨
    ∃ x y, (a.perform l s).1 = some x ∧ (a.perform l.still {}).1 = some y ∧
      (a.Alike x y ∨ a.Alarm x)

theorem mirrors_tally {limit : Option Nat} {n : Nat} (m : Nat) :
    Control.reaches limit n = Control.reaches none m ∨ Control.reaches limit n = true := by
  cases Control.reaches limit n
  · exact .inl rfl
  · exact .inr rfl

theorem mirrors {a : Action} {l : Local} {s : Shared}
    (hdown : (a.perform l s).2.2.control.stopped = false) : a.Mirrors l s := by
  cases a with
  | isStopped => exact ⟨rfl, rfl, .inr ⟨_, _, rfl, rfl, .inl hdown⟩⟩
  | choose outlet =>
    refine ⟨rfl, by cases outlet <;> rfl, .inr ⟨_, _, rfl, rfl, .inl ?_⟩⟩
    cases outlet <;> rfl
  | close i => exact ⟨rfl, rfl, .inr ⟨_, _, rfl, rfl, .inl trivial⟩⟩
  | countErrors n => exact ⟨rfl, rfl, .inr ⟨_, _, rfl, rfl, mirrors_tally 0⟩⟩
  | countSourceRows n => exact ⟨rfl, rfl, .inr ⟨_, _, rfl, rfl, mirrors_tally 0⟩⟩
  | raiseFlag => cases hdown
  | hold =>
    refine ⟨rfl, rfl, ?_⟩
    cases hc : l.cancelled
    · exact .inl ⟨by simp [perform, hc], rfl, by simp [perform, Local.still, hc]⟩
    · exact .inr ⟨(), (), by simp [perform, hc], by simp [perform, Local.still, hc], .inl rfl⟩
  | _ => exact ⟨rfl, rfl, .inr ⟨_, _, rfl, rfl, .inl rfl⟩⟩

end Action

namespace Program

variable {α : Type} {o l : Local} {s : Shared} {names : Nat → String}

theorem step_act_some {a : Action} {next : a.Answer → Program α} {x : a.Answer}
    (h : (a.perform l s).1 = some x) : (act a next).step l s = (next x, (a.perform l s).2) := by
  rcases hp : a.perform l s with ⟨y, l', s'⟩
  rw [hp] at h
  cases h
  simp [step, hp]

theorem step_act_none {a : Action} {next : a.Answer → Program α}
    (h : (a.perform l s).1 = none) : (act a next).step l s = (act a next, (a.perform l s).2) := by
  rcases hp : a.perform l s with ⟨y, l', s'⟩
  rw [hp] at h
  cases h
  simp [step, hp]

theorem snd_step_act (a : Action) (next : a.Answer → Program α) :
    ((act a next).step l s).2 = (a.perform l s).2 := by
  cases h : (a.perform l s).1 with
  | none => rw [step_act_none h]
  | some x => rw [step_act_some h]

theorem alone_act_some {a : Action} {next : a.Answer → Program α} {x : Solo} {y : a.Answer}
    (hraises : a.raises = false) (h : (a.perform x.own {}).1 = some y) :
    (act a next).alone names x = (next y).alone names (x.acts a) := by
  simp [alone, hraises, h]

theorem alone_act_none {a : Action} {next : a.Answer → Program α} {x : Solo}
    (h : (a.perform x.own {}).1 = none) : (act a next).alone names x = none := by
  simp [alone, h]

theorem alone_step_act {a : Action} {next : a.Answer → Program α}
    (hp : (act a next).Secluded o) (ho : l.origin = o)
    (hdown : ((act a next).step l s).2.2.control.stopped = false) (rows : List Row)
    (log : List Trade) :
    ((act a next).step l s).1.Doomed (fun _ => False) ∨
      (act a next).alone names ⟨l.still, rows, log⟩ = ((act a next).step l s).1.alone names
        ⟨((act a next).step l s).2.1.still, rows, log ++ a.trade?.toList⟩ := by
  rw [snd_step_act] at hdown
  obtain ⟨hraises, hown, ⟨hx, hsame, hy⟩ | ⟨x, y, hx, hy, hxy⟩⟩ := Action.mirrors hdown
  · refine .inr ?_
    rw [step_act_none hx, hsame, alone_act_none hy, alone_act_none hy]
  · rw [step_act_some hx]
    -- The program cannot tell the answers apart, unless one is that a limit was reached.
    obtain ⟨halike, halarm, -⟩ := hp.2.2 x (ho ▸ Action.says_perform hx)
    rcases hxy with hxy | halert
    · refine .inr ?_
      rw [alone_act_some hraises hy, halike y hxy]
      simp only [Solo.acts, hown]
    · exact .inl (halarm halert)

/-- A flag that is down after a step was down before it. -/
theorem down_before_step {p : Program α} (h : (p.step l s).2.2.control.stopped = false) :
    s.control.stopped = false := by
  by_contra hup
  have hup' := Control.Le.stopped (Shared.Le.control (p.le_step l s)) (Bool.of_not_eq_false hup)
  rw [h] at hup'
  cases hup'

section Receive

variable {scan : Scan} {next : Option Row → Program α} {x : Solo}

theorem alone_receive_nil (h : x.own.pending = []) :
    (receive scan next).alone names x = (next none).alone names x := by
  simp [alone, h]

theorem alone_receive_dry (h : x.own.pending ≠ []) (hrows : x.rows = []) :
    (receive scan next).alone names x = (next none).alone names x.dries := by
  simp [alone, h, hrows]

theorem alone_receive_row {row : Row} {rest : List Row} (h : x.own.pending ≠ [])
    (hrows : x.rows = row :: rest) :
    (receive scan next).alone names x = (next (some row)).alone names (x.takes row rest) := by
  simp [alone, h, hrows]

theorem alone_receive (scan scan' : Scan) :
    (receive scan next).alone names x = (receive scan' next).alone names x := by
  simp only [alone]

theorem look_of_pending {i : Nat} (h : l.pending = [i]) : look l s = s.poll i := by
  simp [look, Local.place, h, Nat.mod_one]

theorem scanOn_nil {seen : Nat} (h : l.pending = []) : scanOn seen l next = next none := by
  simp [scanOn, h]

theorem alone_scanOn {seen : Nat} (scan : Scan) (h : l.pending ≠ []) :
    (scanOn seen l next).alone names x = (receive scan next).alone names x := by
  unfold scanOn
  split
  · exact alone_receive _ _
  · rw [if_neg (by simpa using h)]
    exact alone_receive _ _

theorem trade?_receive (hscan : scan ≠ .start) :
    (receive scan next).trade? l s =
      match (look l s).2 with
      | .row row => some (.took row)
      | _ => none := by
  cases scan with
  | start => exact absurd rfl hscan
  | _ => rfl

/-- A look at the only input, in a run and by the copy on its own. -/
theorem alone_look {i : Nat} (hi : l.pending = [i]) (hscan : scan ≠ .start) {rows : List Row}
    (log : List Trade) (hdry : (s.poll i).2 = .done → rows = []) :
    (receive scan next).alone names
        ⟨l.still, rowsTaken ((receive scan next).trade? l s).toList ++ rows, log⟩ =
      ((receive scan next).step l s).1.alone names ⟨((receive scan next).step l s).2.1.still, rows,
        log ++ ((receive scan next).trade? l s).toList⟩ := by
  have hne : l.still.pending ≠ [] := by simp [hi]
  have hdrop : l.drop.pending = [] := congrArg Local.pending (Local.still_drop hi)
  rw [trade?_receive hscan, look_of_pending hi]
  rcases hpoll : s.poll i with ⟨t, found⟩
  have hlook : look l s = (t, found) := (look_of_pending hi).trans hpoll
  rw [hpoll] at hdry
  cases found with
  | row row =>
    have hstep : (receive scan next).step l s = (next (some row), l.taken row, t) := by
      cases scan <;> first | exact absurd rfl hscan | simp [step, hlook]
    rw [hstep]
    exact alone_receive_row hne rfl
  | done =>
    -- The copy on its own has nothing to read either; the search may end at once or later.
    cases hdry rfl
    have hfirst : (receive scan next).alone names ⟨l.still, [], log⟩ =
        (next none).alone names ⟨l.drop.still, [], log⟩ := by
      rw [Local.still_drop hi]
      exact alone_receive_dry hne rfl
    cases scan with
    | start => exact absurd rfl hscan
    | looking seen => simpa [step, hlook, rowsTaken, scanOn_nil hdrop] using hfirst
    | waiting =>
      have hnone : (receive .start next).alone names ⟨l.drop.still, [], log⟩ =
          (next none).alone names ⟨l.drop.still, [], log⟩ := alone_receive_nil hdrop
      simpa [step, hlook, rowsTaken, hnone] using hfirst
  | pending =>
    cases scan with
    | start => exact absurd rfl hscan
    | looking seen =>
      have hpass : l.pass.pending ≠ [] := hne
      have hsearch : (receive (.looking seen) next).alone names ⟨l.still, rows, log⟩ =
          (scanOn (seen + 1) l.pass next).alone names ⟨l.pass.still, rows, log⟩ :=
        (alone_scanOn _ hpass).symm
      simpa [step, hlook, rowsTaken] using hsearch
    | waiting => simpa [step, hlook, rowsTaken] using alone_receive _ _

/-- A search where no input is left. -/
theorem alone_search_nil (names : Nat → String) (s : Shared) (scan : Scan)
    (next : Option Row → Program α) (hl : l.pending = []) (rows : List Row)
    (log : List Trade) :
    (receive scan next).trade? l s = none ∧
      (receive scan next).alone names ⟨l.still, rows, log⟩ =
        ((receive scan next).step l s).1.alone names
          ⟨((receive scan next).step l s).2.1.still, rows, log⟩ := by
  have hlook : look l s = (s, .done) := by simp [look, hl]
  have hdrop : l.drop = l := by
    obtain ⟨⟩ := l
    cases hl
    rfl
  have hnone : (receive scan next).alone names ⟨l.still, rows, log⟩ =
      (next none).alone names ⟨l.still, rows, log⟩ := alone_receive_nil hl
  cases scan with
  | start => exact ⟨rfl, by simpa [step, hl] using hnone⟩
  | looking seen =>
    refine ⟨by simp [trade?, hlook], ?_⟩
    simpa [step, hlook, hdrop, scanOn_nil hl] using hnone
  | waiting =>
    refine ⟨by simp [trade?, hlook], ?_⟩
    simpa [step, hlook, hdrop] using alone_receive _ _

theorem alone_step_receive (hpending : l.pending.length ≤ 1)
    (hdown : ((receive scan next).step l s).2.2.control.stopped = false) {rows : List Row}
    (log : List Trade)
    (hdry : ∀ i, l.pending = [i] → (s.poll i).2 = .done → rows = []) :
    (receive scan next).alone names
        ⟨l.still, rowsTaken ((receive scan next).trade? l s).toList ++ rows, log⟩ =
      ((receive scan next).step l s).1.alone names ⟨((receive scan next).step l s).2.1.still, rows,
        log ++ ((receive scan next).trade? l s).toList⟩ := by
  match hl : l.pending with
  | [] =>
    obtain ⟨htrade, hstep⟩ := alone_search_nil names s scan next hl rows log
    simpa [htrade, rowsTaken] using hstep
  | [i] =>
    by_cases hscan : scan = .start
    · subst hscan
      have hflag := down_before_step hdown
      simpa [step, trade?, hflag, hl, rowsTaken] using alone_receive _ _
    · exact alone_look hl hscan log (hdry i hl)
  | _ :: _ :: _ => simp [hl] at hpending

end Receive

/-- What is known of a row set that a copy writes to: it has ended when the copy has ended
it. -/
def Known (names : Nat → String) (xs : List RowSet) (log : List Trade) (i : Nat) : Prop :=
  ∃ rs, xs[i]? = some rs ∧ rs.name = names i ∧ (rs.closed = true ↔ .ended i ∈ log)

inductive Offered (s : Shared) (i : Nat) (row : Row) (rs : RowSet) :
    Shared × Except Fault Offer → Prop
  | ended (h : rs.closed = true) : Offered s i row rs (s, .error (.rowSetClosed rs.name))
  | discarded (hopen : rs.closed = false) (hleft : rs.detached = true) :
      Offered s i row rs (s, .ok .discarded)
  | full (hopen : rs.closed = false) : Offered s i row rs (s, .ok (.full row))
  | clash (reason : String) (hopen : rs.closed = false) :
      Offered s i row rs (s, .error (.incompatible rs.name reason))
  | accepted (layout : Option Schema) (hopen : rs.closed = false)
      (hstay : rs.detached = false) :
      Offered s i row rs
        ({ s with rowSets :=
          s.rowSets.set i { rs with buffer := rs.buffer ++ [row], layout := layout } },
          .ok .accepted)

theorem offered {i : Nat} {rs : RowSet} (hrs : s.rowSets[i]? = some rs) (row : Row) :
    Offered s i row rs (s.offer i row) := by
  have hoffer : s.offer i row =
      ({ s with rowSets := s.rowSets.set i (rs.offer row).1 }, (rs.offer row).2) := by
    simp [Shared.offer, hrs]
  have hsame : { s with rowSets := s.rowSets.set i rs } = s := Shared.set_self hrs
  rw [hoffer]
  cases hopen : rs.closed with
  | true =>
    rw [RowSet.offer_of_closed hopen, hsame]
    exact .ended hopen
  | false =>
    unfold RowSet.offer
    rw [hopen, if_neg (by simp)]
    split
    · next hleft =>
      rw [hsame]
      exact .discarded hopen hleft
    · next hstay =>
      split
      · rw [hsame]
        exact .full hopen
      · split
        · rw [hsame]
          exact .clash _ hopen
        · rw [← hopen]
          exact .accepted _ hopen (Bool.of_not_eq_true hstay)

section Deliver

variable {i : Nat} {row : Row} {next : Except Fault Delivery → Program α}

theorem alone_deliver_ended {x : Solo} {refused : Bool} (h : .ended i ∈ x.log) :
    (deliver i row refused next).alone names x =
      (next (.error (.rowSetClosed (names i)))).alone names
        (x.trades (.refused i row (.rowSetClosed (names i)))) := by
  simp [alone, h]

theorem alone_deliver_open {x : Solo} {refused : Bool} (h : .ended i ∉ x.log) :
    (deliver i row refused next).alone names x =
      (next (.ok .accepted)).alone names (x.trades (.put i row)) := by
  simp [alone, h]

theorem alone_deliver {x : Solo} (refused refused' : Bool) :
    (deliver i row refused next).alone names x =
      (deliver i row refused' next).alone names x := by
  simp only [alone]

/-- An offer, in a run and by the copy on its own. -/
theorem alone_offer {log : List Trade} (hknown : Known names s.rowSets log i)
    (hsame : next (.ok .discarded) = next (.ok .accepted)) (rows : List Row)
    (hclash : ∀ name reason, (s.offer i row).2 ≠ .error (.incompatible name reason)) :
    (deliver i row false next).alone names ⟨l.still, rows, log⟩ =
      ((deliver i row false next).step l s).1.alone names
        ⟨((deliver i row false next).step l s).2.1.still, rows,
          log ++ ((deliver i row false next).trade? l s).toList⟩ := by
  obtain ⟨rs, hrs, hname, hended⟩ := hknown
  have hput (hopen : rs.closed = false) :
      (deliver i row false next).alone names ⟨l.still, rows, log⟩ =
        (next (.ok .accepted)).alone names ⟨l.still, rows, log ++ [.put i row]⟩ :=
    alone_deliver_open fun h => by simp [hended.mpr h] at hopen
  have ho := offered hrs row
  generalize hoffer : s.offer i row = answer at ho hclash
  cases ho with
  | ended hclosed =>
    have hlog := hended.mp hclosed
    have hrefused : (deliver i row false next).alone names ⟨l.still, rows, log⟩ = _ :=
      alone_deliver_ended hlog
    simpa [step, trade?, hoffer, hname, Solo.trades] using hrefused
  | discarded hopen hleft =>
    simpa [step, trade?, hoffer, hsame, Solo.trades] using hput hopen
  | full hopen => simpa [step, trade?, hoffer] using alone_deliver _ _
  | clash reason hopen => exact absurd rfl (hclash rs.name reason)
  | accepted layout hopen hstay =>
    simpa [step, trade?, hoffer, Solo.trades] using hput hopen

end Deliver

/-- A step of a program that keeps to itself is a step of the program on its own, unless
the run is going to be stopped. -/
theorem alone_step {p : Program α} {log : List Trade} {rows : List Row} (hp : p.Secluded o)
    (ho : l.origin = o) (hdown : (p.step l s).2.2.control.stopped = false)
    (hpending : l.pending.length ≤ 1) (hknown : ∀ i ∈ o.outlets, Known names s.rowSets log i)
    (hclash : ∀ d, p.trade? l s = some d → ¬ d.Clash)
    (hdry : ∀ i, l.pending = [i] → p.node? = some .receive → (s.poll i).2 = .done → rows = []) :
    (p.step l s).1.Doomed (fun _ => False) ∨
      p.alone names ⟨l.still, rowsTaken (p.trade? l s).toList ++ rows, log⟩ =
        (p.step l s).1.alone names
          ⟨(p.step l s).2.1.still, rows, log ++ (p.trade? l s).toList⟩ := by
  cases p with
  | done a => exact .inr (by simp [trade?, rowsTaken])
  | act a next =>
    have hrows : rowsTaken ((act a next).trade? l s).toList = [] := by cases a <;> rfl
    rw [hrows, List.nil_append]
    exact alone_step_act hp ho hdown rows log
  | receive scan next =>
    exact .inr (alone_step_receive hpending hdown log fun i hi => hdry i hi rfl)
  | deliver i row refused next =>
    refine .inr ?_
    cases refused with
    | true =>
      have hflag := down_before_step hdown
      simpa [step, trade?, hflag, rowsTaken] using alone_deliver _ _
    | false =>
      have hrows : rowsTaken ((deliver i row false next).trade? l s).toList = [] := by
        simp only [trade?]
        split <;> rfl
      rw [hrows, List.nil_append]
      refine alone_offer (hknown i hp.1) hp.2.1 rows fun name reason ho => ?_
      exact hclash (.refused i row (.incompatible name reason)) (by simp [trade?, ho]) trivial

end Program
end RowFlow
