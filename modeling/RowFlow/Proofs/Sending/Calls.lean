import RowFlow.Proofs.Program.Amid

/-
What a call that sends a row can come to.  A row goes to one row set of each output, in their
order, until one of them refuses it (`Answered`); a rejected row goes to one row set of the
error output.  `Puts` and `Rejects` list the ways in which the two calls end, each with the
rows that were sent, with what was counted, and with the turns that have passed.

Everything that is proved of these calls is read off the two lists.
-/
namespace RowFlow

/-- The row sets whose turn it is, one for each output that has any. -/
def chosen (bs : List Branch) : List Nat := bs.filterMap Branch.current?

theorem chosen_cons (b : Branch) (bs : List Branch) :
    chosen (b :: bs) = b.current?.toList ++ chosen bs := by
  cases h : b.current? <;> simp [chosen, h]

namespace Doing

/-- A row is sent, or the flag is looked at for that. -/
def sends : Doing → Bool
  | act .isStopped _ => true
  | delivered _ _ _ => true
  | _ => false

/-- While the flag is down whenever a row is sent, it is not seen to be up. -/
theorem not_mem_looks {os : List Nat} {hs : List Happening} {s t : Shared}
    (h : s.Passes os hs t)
    (hdown : ∀ x ∈ hs, x.doing.sends = true → x.found.control.stopped = false) :
    true ∉ looks (Happening.doings hs) := by
  intro hmem
  obtain ⟨x, hx, hd⟩ := List.mem_map.mp (mem_looks.mp hmem)
  obtain ⟨u, -, hfinds, -⟩ := h.finds hx
  have hup := hdown x hx (by rw [hd]; rfl)
  rw [hd] at hfinds
  rw [hfinds.stopped] at hup
  cases hup

structure Uncounted (l : Local) (ds : List Doing) (m : Local) : Prop where
  counts : m.counts = l.counts
  told : ∀ k, told k ds = 0

theorem Uncounted.trans {l l' m : Local} {ds es : List Doing} (h : Uncounted l ds l')
    (h' : Uncounted l' es m) : Uncounted l (ds ++ es) m where
  counts := h'.counts.trans h.counts
  told k := by rw [told_append, h.told, h'.told]

/-- More was done, but nothing was sent or counted, and the flag was not looked at. -/
structure Frames (es ds : List Doing) : Prop where
  sendings : sendings ds = sendings es
  told : ∀ k, told k ds = told k es
  looks : looks ds = looks es

theorem frames_marked (before after : Mark) (o : Local) (es : List Doing) :
    Frames es (.act (.mark before) () :: (.act .own o :: es ++ [.act (.mark after) ()])) where
  sendings := by simp
  told k := by simp [amount, counted?]
  looks := by simp [look?]

theorem Frames.uncounted {l m : Local} {es ds : List Doing} (h : Frames es ds)
    (hc : Uncounted l es m) : Uncounted l ds m :=
  ⟨hc.counts, fun k => (h.told k).trans (hc.told k)⟩

end Doing

namespace Program

open Doing

/-- The answers to a row that is sent to one row set after the other; a fault ends it. -/
inductive Answered (row : Row) : List Nat → List Sending → Except Fault Unit → Prop
  | all : Answered row [] [] (.ok ())
  | next {i : Nat} {is : List Nat} {xs : List Sending} {r : Except Fault Unit} (x : Delivery)
      (h : Answered row is xs r) : Answered row (i :: is) (⟨i, row, .ok x⟩ :: xs) r
  | fault {i : Nat} {is : List Nat} (f : Fault) :
      Answered row (i :: is) [⟨i, row, .error f⟩] (.error f)

namespace Answered

variable {row : Row} {is js : List Nat} {xs ys : List Sending} {r : Except Fault Unit} {f : Fault}

theorem append (h : Answered row is xs (.ok ())) (h' : Answered row js ys r) :
    Answered row (is ++ js) (xs ++ ys) r := by
  generalize hr : Except.ok () = r' at h
  induction h with
  | all => exact h'
  | next x _ ih => exact .next x (ih hr)
  | fault f => cases hr

/-- Nothing is sent after a fault. -/
theorem stop (h : Answered row is xs (.error f)) (js : List Nat) :
    Answered row (is ++ js) xs (.error f) := by
  generalize hr : Except.error f = r' at h
  induction h with
  | all => cases hr
  | next x _ ih => exact .next x (ih hr)
  | fault g => exact .fault g

/-- It is this row that is sent, and to none but these row sets. -/
theorem mem (h : Answered row is xs r) {x : Sending} (hx : x ∈ xs) :
    x.rowSet ∈ is ∧ x.row = row := by
  induction h with
  | all => cases hx
  | next y _ ih =>
    rcases List.mem_cons.mp hx with rfl | hx
    · exact ⟨List.mem_cons_self, rfl⟩
    · exact ⟨List.mem_cons_of_mem _ (ih hx).1, (ih hx).2⟩
  | fault f =>
    cases List.mem_singleton.mp hx
    exact ⟨List.mem_cons_self, rfl⟩

end Answered

section Sending

variable {l m : Local} {ds : List Doing} {r : Except Fault Unit} {row : Row}

structure Sent (row : Row) (is : List Nat) (l : Local) (ds : List Doing) (r : Except Fault Unit)
    (m : Local) : Prop where
  answered : Answered row is (sendings ds) r
  uncounted : Uncounted l ds m
  unlooked : looks ds = []

/-- An outlet sends a row to the row set whose turn it is, if it has any, and passes the turn. -/
theorem runs_sendTo {o : Outlet} (h : (sendTo o row).Runs l ds r m) :
    Sent row ((l.branch? o).bind Branch.current?).toList l ds r m ∧
      ∃ b, m = (l.passTurn o).withCancelled b := by
  obtain ⟨b, _, i?, l₁, _, es, hchoose, hrest, rfl⟩ := h.perform
  have hplace : i? = (l.branch? o).bind Branch.current? := by
    cases hchoose
    cases o <;> rfl
  have hturn : l₁ = (l.passTurn o).withCancelled b := by
    cases hchoose
    cases o <;> rfl
  have hcounts : (l.passTurn o).counts = l.counts := by cases o <;> rfl
  subst hplace hturn
  cases hi : (l.branch? o).bind Branch.current? with
  | none =>
    rw [hi] at hrest
    cases hrest with
    | done _ _ b' => exact ⟨⟨.all, ⟨hcounts, fun k => rfl⟩, rfl⟩, b', rfl⟩
  | some i =>
    rw [hi] at hrest
    cases hrest with
    | delivered x hf hlast =>
      cases hlast with
      | done _ _ b' =>
        refine ⟨⟨?_, ⟨hcounts, fun k => rfl⟩, rfl⟩, b', rfl⟩
        cases x with
        | error f => exact .fault f
        | ok x => exact .next x .all

/-- The outputs from a place on each send the row, and pass their turns if none refuses it. -/
theorem runs_sendToAll (pre post : List Branch) (ho : l.outputs = pre ++ post)
    (h : (sendToAll row (List.range' pre.length post.length)).Runs l ds r m) :
    Sent row (chosen post) l ds r m ∧
      (r = .ok () → m.outputs = pre ++ post.map Branch.advance) := by
  induction post generalizing pre l ds with
  | nil =>
    cases h with
    | done _ _ b => exact ⟨⟨.all, ⟨rfl, fun k => rfl⟩, rfl⟩, fun _ => ho⟩
  | cons b post ih =>
    -- the places before the next one are those of the outputs that have had the row
    rw [List.length_cons, List.range'_succ] at h
    obtain ⟨es, x, l₁, es', hfirst, hrest, rfl⟩ := Runs.bind (p := sendTo _ row) h
    obtain ⟨hsent, b', rfl⟩ := runs_sendTo hfirst
    have hbranch : l.branch? (.output pre.length) = some b := by
      show l.outputs[pre.length]? = some b
      rw [ho, List.getElem?_append_right (Nat.le_refl _), Nat.sub_self]
      rfl
    rw [hbranch, Option.bind_some] at hsent
    rw [chosen_cons]
    cases x with
    | error f =>
      cases hrest with
      | done _ _ b'' =>
        rw [List.append_nil]
        exact ⟨⟨hsent.answered.stop _, ⟨hsent.uncounted.counts, hsent.uncounted.told⟩,
          hsent.unlooked⟩, fun hr => by cases hr⟩
    | ok x =>
      have houtputs : ((l.passTurn (.output pre.length)).withCancelled b').outputs =
          (pre ++ [b.advance]) ++ post := by
        show l.outputs.modify pre.length Branch.advance = _
        rw [ho, List.modify_eq_take_cons_drop (by simp)]
        simp
      have hlength : pre.length + 1 = (pre ++ [b.advance]).length := by
        rw [List.length_append, List.length_singleton]
      rw [hlength] at hrest
      obtain ⟨hsent', hturns⟩ := ih _ houtputs hrest
      refine ⟨⟨?_, hsent.uncounted.trans hsent'.uncounted, ?_⟩, fun hr => ?_⟩
      · rw [sendings_append]
        exact hsent.answered.append hsent'.answered
      · rw [looks_append, hsent.unlooked, hsent'.unlooked]
        rfl
      · rw [hturns hr, List.append_assoc]
        rfl

/-- To stop the run changes no count and sends nothing. -/
theorem runs_stop_quiet {reason : StopReason} {x : Bool} (h : (stop reason).Runs l ds x m) :
    Frames [] ds ∧ ∃ b, m = l.withCancelled b := by
  obtain ⟨b, _, _, l₁, _, es, hgive, hrest, rfl⟩ := h.perform
  obtain ⟨b', _, _, l₂, _, es', hraise, hlast, rfl⟩ :=
    Runs.perform (a := .raiseFlag) (f := fun x => done x) hrest
  cases hgive
  cases hraise
  cases hlast with
  | done _ _ b'' => exact ⟨⟨rfl, fun k => rfl, rfl⟩, b'', rfl⟩

/-- The same if the run is stopped only when a limit has been reached. -/
theorem runs_stopIf {α : Type} {reached : Bool} {reason : StopReason} {a v : α}
    (h : (if reached then (stop reason).bind fun _ => done a else done a).Runs l ds v m) :
    Frames [] ds ∧ ∃ b, m = l.withCancelled b := by
  split at h
  · obtain ⟨es, _, l₁, es', hstop, hlast, rfl⟩ := Runs.bind (p := stop reason) h
    obtain ⟨hquiet, b, rfl⟩ := runs_stop_quiet hstop
    cases hlast with
    | done _ _ b' =>
      rw [List.append_nil]
      exact ⟨hquiet, b', rfl⟩
  · cases h with
    | done _ _ b => exact ⟨⟨rfl, fun k => rfl, rfl⟩, b, rfl⟩

structure Raises (k : Total) (n : Nat) (l : Local) (ds : List Doing) (m : Local) : Prop where
  told : ∀ k', told k' ds = if k = k' then n else 0
  unsent : sendings ds = []
  unlooked : looks ds = []
  own : ∃ b, m = l.withCancelled b

/-- The count is raised first, and what follows is quiet. -/
theorem Raises.first {k : Total} {n : Nat} {d : Doing}
    (hone : ∀ k', d.amount k' = if k = k' then n else 0) (hunsent : d.sending? = none)
    (hunlooked : d.look? = none) (hquiet : Frames [] ds) (b : Bool) :
    Raises k n l (d :: ds) (l.withCancelled b) where
  told k' := by
    rw [told_cons, hone, hquiet.told]
    rfl
  unsent := (List.filterMap_cons_none hunsent).trans hquiet.sendings
  unlooked := (List.filterMap_cons_none hunlooked).trans hquiet.looks
  own := ⟨b, rfl⟩

theorem runs_recordSourceRows {n : Nat} {u : Unit} (h : (recordSourceRows n).Runs l ds u m) :
    Raises .sourceRows n l ds m := by
  obtain ⟨b, _, tally, l₁, _, es, hcount, hrest, rfl⟩ := h.perform
  cases hcount
  obtain ⟨hquiet, b', rfl⟩ := runs_stopIf hrest
  exact .first (fun _ => rfl) rfl rfl hquiet b'

/-- A row that was sent counts as written, and for the run if it comes from a source. -/
theorem runs_countRow {source : Bool} {r v : Except Fault Unit}
    (h : (do
      let _ ← perform (.add .written 1)
      if source then recordSourceRows 1
      return r : Program (Except Fault Unit)).Runs l ds v m) :
    v = r ∧ m.counts = l.counts.add 1 .written ∧ m.outputs = l.outputs ∧ sendings ds = [] ∧
      looks ds = [] ∧ ∀ k, told k ds = if .sourceRows = k ∧ source = true then 1 else 0 := by
  obtain ⟨b, _, n, _, _, es, hadd, hrest, rfl⟩ := h.perform
  cases hadd
  cases source with
  | false =>
    cases hrest with
    | done _ _ b' => exact ⟨rfl, rfl, rfl, rfl, rfl, fun k => by simp [amount, counted?]⟩
  | true =>
    obtain ⟨fs, _, l₁, fs', hcount, hlast, rfl⟩ := Runs.bind (p := recordSourceRows 1) hrest
    obtain ⟨hraises, hunsent, hunlooked, b', rfl⟩ := runs_recordSourceRows hcount
    cases hlast with
    | done _ _ b'' =>
      exact ⟨rfl, rfl, rfl, by simp [hunsent], by simp [hunlooked, look?],
        fun k => by simp [hraises, amount, counted?]⟩

theorem runs_addRunErrors {n : Nat} {v : Nat} (h : (addRunErrors n).Runs l ds v m) :
    Raises .errors n l ds m := by
  obtain ⟨b, _, tally, l₁, _, es, hcount, hrest, rfl⟩ := h.perform
  cases hcount
  obtain ⟨hquiet, b', rfl⟩ := runs_stopIf hrest
  exact .first (fun _ => rfl) rfl rfl hquiet b'

theorem runs_addError_tells {u : Unit} (h : addError.Runs l ds u m) :
    m.counts = l.counts.add 1 .errors ∧ m.errorOutput = l.errorOutput ∧ sendings ds = [] ∧
      looks ds = [] ∧ ∀ k, told k ds = if .errors = k then 1 else 0 := by
  obtain ⟨b, _, n, _, _, es, hadd, hrest, rfl⟩ := h.perform
  cases hadd
  obtain ⟨es₁, _, l₁, es₂, hcount, hlast, rfl⟩ := Runs.bind (p := addRunErrors 1) hrest
  obtain ⟨htold, hunsent, hunlooked, b', rfl⟩ := runs_addRunErrors hcount
  cases hlast with
  | done _ _ b'' =>
    exact ⟨rfl, rfl, by simp [hunsent], by simp [hunlooked, look?],
      fun k => by simp [htold, amount, counted?]⟩

end Sending

inductive Puts (row : Row) (l : Local) (ds : List Doing) : Except Fault Unit → Local → Prop
  /-- The outputs have ended. -/
  | late {m : Local} (h : l.outputDone = true) (hask : looks ds = [])
      (hsent : sendings ds = []) (hc : Uncounted l ds m) :
      Puts row l ds (.error (afterEnd l.info)) m
  /-- The flag is up before anything is sent. -/
  | stopped {m : Local} (h : l.outputDone = false) (hask : looks ds = [true])
      (hsent : sendings ds = []) (hc : Uncounted l ds m) : Puts row l ds (.ok ()) m
  /-- One of the row sets refuses the row. -/
  | refused {m : Local} {f : Fault} (h : l.outputDone = false) (hask : looks ds = [false])
      (hsent : Answered row (chosen l.outputs) (sendings ds) (.error f))
      (hc : Uncounted l ds m) : Puts row l ds (.error f) m
  /-- No row set refuses the row, and it counts. -/
  | sent {m : Local} (h : l.outputDone = false) (hask : looks ds = [false])
      (hsent : Answered row (chosen l.outputs) (sendings ds) (.ok ()))
      (hcounts : m.counts = l.counts.add 1 .written)
      (htold : ∀ k, told k ds = if .sourceRows = k ∧ l.isSource = true then 1 else 0)
      (hturns : m.outputs = l.outputs.map Branch.advance) : Puts row l ds (.ok ()) m

theorem Puts.frames {row : Row} {l m : Local} {es ds : List Doing} {r : Except Fault Unit}
    (h : Puts row l es r m) (hf : Frames es ds) : Puts row l ds r m := by
  cases h with
  | late h hask hsent hc =>
    exact .late h (hf.looks.trans hask) (hf.sendings.trans hsent) (hf.uncounted hc)
  | stopped h hask hsent hc =>
    exact .stopped h (hf.looks.trans hask) (hf.sendings.trans hsent) (hf.uncounted hc)
  | refused h hask hsent hc =>
    exact .refused h (hf.looks.trans hask) (hf.sendings ▸ hsent) (hf.uncounted hc)
  | sent h hask hsent hcounts htold hturns =>
    exact .sent h (hf.looks.trans hask) (hf.sendings ▸ hsent) hcounts
      (fun k => (hf.told k).trans (htold k)) hturns

theorem runs_putRow {row : Row} {l m : Local} {ds : List Doing} {r : Except Fault Unit}
    (h : (putRow row).Runs l ds r m) : Puts row l ds r m := by
  obtain ⟨es, hes, rfl⟩ := h.marked
  obtain ⟨b, fs, hfs, rfl⟩ := hes.own
  suffices h : Puts row l fs r m from h.frames (frames_marked _ _ _ _)
  rw [done_bind] at hfs
  split at hfs
  · next hdone =>
    cases hfs with
    | done _ _ b' => exact .late hdone rfl rfl ⟨rfl, fun k => rfl⟩
  · next hopen =>
    have hopen : l.outputDone = false := Bool.eq_false_iff.mpr hopen
    obtain ⟨b₁, _, stopped, _, _, fs₁, hask, hrest, rfl⟩ :=
      Runs.perform (a := .isStopped) hfs
    cases hask
    split at hrest
    · next hstopped =>
      cases hrest with
      | done _ _ b' =>
        refine .stopped hopen ?_ rfl ⟨rfl, fun k => rfl⟩
        rw [hstopped]
        rfl
    · next hgoes =>
      have hgoes := Bool.eq_false_iff.mpr hgoes
      rw [hgoes]
      obtain ⟨fs₂, x, l₂, fs₃, hsend, hlast, rfl⟩ := Runs.bind (p := sendToAll row _) hrest
      rw [List.range_eq_range'] at hsend
      obtain ⟨⟨hsent, ⟨hcounts, htold⟩, hunlooked⟩, hturns⟩ :=
        runs_sendToAll [] l.outputs rfl hsend.before
      cases x with
      | error f =>
        cases hlast with
        | done _ _ b' =>
          refine .refused hopen (by simp [hunlooked, look?]) ?_ ⟨hcounts, fun k => ?_⟩
          · rwa [List.append_nil]
          · rw [List.append_nil, told_cons, htold]
            rfl
      | ok x =>
        obtain ⟨rfl, hcounted, houtputs, hunsent, hmute, hsource⟩ := runs_countRow hlast
        refine .sent hopen (by simp [hunlooked, hmute, look?]) ?_ ?_ (fun k => ?_) ?_
        · simpa [hunsent] using hsent
        · exact hcounted.trans (congrArg (·.add 1 .written) hcounts)
        · rw [told_cons, told_append, htold, hsource, Nat.zero_add]
          exact Nat.zero_add _
        · exact houtputs.trans (hturns rfl)

/-- What comes of a row that is sent to the error output, which has this row set's turn. -/
inductive Reports (out : Row) (i? : Option Nat) (ds : List Doing) : Except Fault Unit → Prop
  /-- There is no row set. -/
  | nowhere (h : i? = none) (hask : looks ds = []) (hsent : sendings ds = []) :
      Reports out i? ds (.ok ())
  /-- The flag is up, though the turn has passed. -/
  | stopped {i : Nat} (h : i? = some i) (hask : looks ds = [true])
      (hsent : sendings ds = []) : Reports out i? ds (.ok ())
  | sent {i : Nat} (h : i? = some i) (hask : looks ds = [false])
      (x : Except Fault Delivery) (hsent : sendings ds = [⟨i, out, x⟩]) :
      Reports out i? ds (x.map fun _ => ())

theorem Reports.congr {out : Row} {i? : Option Nat} {es ds : List Doing}
    {r : Except Fault Unit} (h : Reports out i? es r) (hsent : sendings ds = sendings es)
    (hlooks : looks ds = looks es) : Reports out i? ds r := by
  cases h with
  | nowhere h hask hes => exact .nowhere h (hlooks.trans hask) (hsent.trans hes)
  | stopped h hask hes => exact .stopped h (hlooks.trans hask) (hsent.trans hes)
  | sent h hask x hes => exact .sent h (hlooks.trans hask) x (hsent.trans hes)

theorem runs_sendError_reports {out : Row} {l m : Local} {ds : List Doing}
    {r : Except Fault Unit} (h : (sendError out).Runs l ds r m) :
    Reports out (l.errorOutput.bind Branch.current?) ds r ∧ Uncounted l ds m ∧
      m.errorOutput = l.errorOutput.map Branch.advance := by
  obtain ⟨b, _, i?, _, _, es, hchoose, hrest, rfl⟩ := h.perform
  cases hchoose
  split at hrest
  · next hnone =>
    cases hrest with
    | done _ _ b' => exact ⟨.nowhere hnone rfl rfl, ⟨rfl, fun k => rfl⟩, rfl⟩
  · next i hi =>
    obtain ⟨b₁, _, stopped, _, _, es₁, hask, hrest, rfl⟩ := Runs.perform (a := .isStopped) hrest
    cases hask
    split at hrest
    · next hstopped =>
      cases hrest with
      | done _ _ b' =>
        refine ⟨.stopped hi ?_ rfl, ⟨rfl, fun k => rfl⟩, rfl⟩
        rw [hstopped]
        rfl
    · next hgoes =>
      have hgoes := Bool.eq_false_iff.mpr hgoes
      rw [hgoes]
      cases hrest with
      | delivered x hf hlast =>
        cases hlast with
        | done _ _ b' => exact ⟨.sent hi rfl x rfl, ⟨rfl, fun k => rfl⟩, rfl⟩

inductive Rejects (row : Row) (d : Diagnostic) (l : Local) (ds : List Doing) :
    Except Fault Unit → Local → Prop
  | disabled {m : Local} (h : l.errorHandling = false) (hsent : sendings ds = [])
      (hc : Uncounted l ds m) :
      Rejects row d l ds (.error (.errorHandlingDisabled l.info.name)) m
  /-- The diagnostic does not go with the row. -/
  | unmade {m : Local} {f : Fault} (h : l.errorHandling = true) (hout : errorRow row d = .error f)
      (hsent : sendings ds = []) (hc : Uncounted l ds m) : Rejects row d l ds (.error f) m
  /-- The row set refuses the row. -/
  | refused {m : Local} {out : Row} {f : Fault} (h : l.errorHandling = true)
      (hout : errorRow row d = .ok out)
      (hsent : Reports out (l.errorOutput.bind Branch.current?) ds (.error f))
      (hc : Uncounted l ds m) (hturn : m.errorOutput = l.errorOutput.map Branch.advance) :
      Rejects row d l ds (.error f) m
  /-- Nothing refuses the row, and it counts, whether it was sent or not. -/
  | counted {m : Local} {out : Row} (h : l.errorHandling = true)
      (hout : errorRow row d = .ok out)
      (hsent : Reports out (l.errorOutput.bind Branch.current?) ds (.ok ()))
      (hcounts : m.counts = (l.counts.add 1 .rejected).add 1 .errors)
      (htold : ∀ k, told k ds = if .errors = k then 1 else 0)
      (hturn : m.errorOutput = l.errorOutput.map Branch.advance) : Rejects row d l ds (.ok ()) m

theorem Rejects.frames {row : Row} {d : Diagnostic} {l m : Local} {es ds : List Doing}
    {r : Except Fault Unit} (h : Rejects row d l es r m) (hf : Frames es ds) :
    Rejects row d l ds r m := by
  cases h with
  | disabled h hsent hc => exact .disabled h (hf.sendings.trans hsent) (hf.uncounted hc)
  | unmade h hout hsent hc => exact .unmade h hout (hf.sendings.trans hsent) (hf.uncounted hc)
  | refused h hout hsent hc hturn =>
    exact .refused h hout (hsent.congr hf.sendings hf.looks)
      (hf.uncounted hc) hturn
  | counted h hout hsent hcounts htold hturn =>
    exact .counted h hout (hsent.congr hf.sendings hf.looks) hcounts
      (fun k => (hf.told k).trans (htold k)) hturn

theorem runs_rejectRow_rejects {row : Row} {d : Diagnostic} {l m : Local} {ds : List Doing}
    {r : Except Fault Unit} (h : (rejectRow row d).Runs l ds r m) : Rejects row d l ds r m := by
  obtain ⟨es, hes, rfl⟩ := h.marked
  obtain ⟨b, fs, hfs, rfl⟩ := hes.own
  suffices h : Rejects row d l fs r m from h.frames (frames_marked _ _ _ _)
  rw [done_bind, Local.errorHandling_withCancelled] at hfs
  cases he : l.errorHandling with
  | false =>
    rw [he] at hfs
    cases hfs with
    | done _ _ b' => exact .disabled he rfl ⟨rfl, fun k => rfl⟩
  | true =>
    rw [he, if_neg (by decide)] at hfs
    cases hout : errorRow row d with
    | error f =>
      rw [hout] at hfs
      cases hfs with
      | done _ _ b' => exact .unmade he hout rfl ⟨rfl, fun k => rfl⟩
    | ok out =>
      rw [hout] at hfs
      obtain ⟨fs₁, x, l₁, fs₂, hsend, hrest, rfl⟩ := Runs.bind (p := sendError out) hfs
      obtain ⟨hreports, ⟨hcounts, htold⟩, hturn⟩ := runs_sendError_reports hsend
      cases x with
      | error f =>
        cases hrest with
        | done _ _ b' =>
          rw [List.append_nil]
          exact .refused he hout hreports ⟨hcounts, htold⟩ hturn
      | ok x =>
        obtain ⟨b₁, _, n, _, _, fs₃, hadd, hrest, rfl⟩ := hrest.perform
        cases hadd
        obtain ⟨fs₄, _, l₂, fs₅, herror, hlast, rfl⟩ := Runs.bind (p := addError) hrest
        obtain ⟨hcounted, hkept, hunsent, hmute, hone⟩ := runs_addError_tells herror
        cases hlast with
        | done _ _ b' =>
          refine .counted he hout (hreports.congr ?_ ?_) ?_ (fun k => ?_) ?_
          · simp [hunsent]
          · simp [hmute, look?]
          · rw [Local.counts_withCancelled, hcounted]
            exact congrArg (fun c : Counts => (c.add 1 .rejected).add 1 .errors) hcounts
          · simp [htold, hone, amount, counted?]
          · exact hkept.trans hturn

end Program

def numbered (n : Int64) : Row := ⟨⟨[{ name := "id", type := .integer }]⟩, [.integer n], rfl⟩

def flaw : Diagnostic := { message := "odd", code := "E1" }

def narrow : Local where
  info := { name := "narrow" }
  outputs := [{ target := "out", rowSets := [0] }]
  errorOutput := some { target := "rejects", rowSets := [1] }
  errorHandling := true

def narrowShared : Shared where
  rowSets := [.new "out.0" 1, .new "rejects.0" 1]

end RowFlow
