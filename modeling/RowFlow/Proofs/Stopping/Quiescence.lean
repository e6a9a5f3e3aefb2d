import RowFlow.Proofs.Stopping.Prompt
import RowFlow.Proofs.Stopping.Returns

/-
A run that is stopped comes to rest.  From the flag on each copy lets go of what it was in
the middle of, and no more: `Quiesces` says how much that is at most, how requests are
answered that begin after the flag, and how the copy ends.  It holds of every copy of every
run, wherever the copy was when the flag went up and whatever the others do
(`quiesces_of_stopped`).

Up to the flag the watch of the copy keeps what is needed for that (`Poise`).  From there on
it knows that the flag is up, and the copy is put on record anew.
-/
namespace RowFlow
namespace Stopping

open Run

/-- What a copy does by one course after another one, by which the flag had gone up: `c` is
the copy in between and `c'` the copy at the end. -/
structure Quiesces (r : Run) (xs ys : List Event) (place : Nat) (c c' : Copy)
    (since : List Deed) : Prop where
  past : (r.record (xs ++ ys)).past place = since ++ (r.record xs).past place
  /-- The hook for work is called once more at most. -/
  calls : (calls since).count .process ≤ 1
  takes : since.countP Deed.isTake ≤ 1
  /-- One more of the requests that are done has stored rows at most. -/
  storings : (Storage.ofPast ((r.record (xs ++ ys)).past place)).count ≤
    (Storage.ofPast ((r.record xs).past place)).count + 1
  /-- One row at most goes to each outlet. -/
  gives : ∀ outlet b, c'.own.branch? outlet = some b → since.countP (Deed.isGive b.rowSets) ≤ 1
  /-- No request that begins with the flag up is followed by a row that moves. -/
  shut : since.Pairwise fun later earlier => earlier.Begins → ¬ later.Moves
  /-- If the copy is about to ask for a row, it has been told after three moves that there is
  none. -/
  asked : c.node? = some (.act (.mark .get)) → 3 ≤ ys.count (.copy place) →
    [.mark (.got none), .mark .get] <:+ since
  /-- If it is about to put a row before the end of its outputs, it is done with that after
  four moves. -/
  put : ∀ row, c.node? = some (.act (.mark (.put row))) → c.own.outputDone = false →
    4 ≤ ys.count (.copy place) → [.mark (.putDone (.ok ())), .mark (.put row)] <:+ since
  /-- If the hook for work has come back with the flag up, the last return settles how the copy
  ends. -/
  ending : ∀ result after, lastReturn since = some (result, after) → c'.isGone = true →
    ∃ e, c'.own.outcome = some e ∧ Ruling result after e

structure Poise (x : Slack) (p : Position) : Prop where
  apart : Flow.Apart p.own.origin
  aims : x.errand.Aims p.own.origin
  stored : (Storage.ofPast p.past).stored = true → x.errand.isCleared = true

structure Wanes (x : Slack) (p : Position) : Prop where
  down : x.down = true
  apart : Flow.Apart p.own.origin
  aims : x.errand.Aims p.own.origin
  calls : (RowFlow.calls p.past).count .process + x.call.isCleared.toNat ≤ 1
  takes : p.past.countP Deed.isTake + x.errand.isAsked.toNat ≤ 1
  gives : ∀ outlet, ∀ b ∈ p.own.origin.branch? outlet,
    p.past.countP (Deed.isGive b.rowSets) + (x.errand.misses outlet).toNat ≤ 1
  shut : Shut p.past x.errand
  rules : Rules x p

/-- What it has to do with the requests by which rows were stored, `n` of them before. -/
structure Stores (n : Nat) (x : Slack) (p : Position) : Prop where
  down : x.down = true
  stored : (Storage.ofPast p.past).stored = true → x.errand.isCleared = true
  count : (Storage.ofPast p.past).count + x.errand.isCleared.toNat ≤ n + 1

section Next

variable {x z : Slack} {d : Doing} {p q : Position}

theorem Poise.next (h : Poise x p) (hn : x.Next d z) (hl : d.Leads p q) : Poise z q where
  apart := hl.origin ▸ h.apart
  aims := hn.aims hl h.aims
  stored := hn.stored hl h.stored

theorem Wanes.next (h : Wanes x p) (hn : x.Next d z) (hl : d.Leads p q) : Wanes z q where
  down := hn.down.trans h.down
  apart := hl.origin ▸ h.apart
  aims := hn.aims hl h.aims
  calls := (hn.calls hl h.down).trans h.calls
  takes := (hn.takes hl h.down).trans h.takes
  gives outlet b hb := by
    rw [hl.origin] at hb
    exact (hn.gives hl h.down h.apart h.aims hb).trans (h.gives outlet b hb)
  shut := hn.shut hl h.down h.shut
  rules := h.rules.next hn hl h.down

theorem Stores.next {n : Nat} (h : Stores n x p) (hn : x.Next d z) (hl : d.Leads p q) :
    Stores n z q where
  down := hn.down.trans h.down
  stored := hn.stored hl h.stored
  count := (hn.storings hl h.down h.stored).trans h.count

end Next

section Rests

variable {x : Slack} {p q : Position} (hown : p.own.Rests q.own) (hpast : q.past = p.past)
include hown hpast

theorem Poise.rests (h : Poise x p) : Poise x q where
  apart := hown.origin ▸ h.apart
  aims := hown.origin ▸ h.aims
  stored := hpast ▸ h.stored

theorem Wanes.rests (h : Wanes x p) : Wanes x q where
  down := h.down
  apart := hown.origin ▸ h.apart
  aims := hown.origin ▸ h.aims
  calls := hpast ▸ h.calls
  takes := hpast ▸ h.takes
  gives := hown.origin ▸ hpast ▸ h.gives
  shut := hpast ▸ h.shut
  rules := h.rules.quiet hpast hown.outcome fun _ _ _ => id

omit hown in
theorem Stores.rests {n : Nat} (h : Stores n x p) : Stores n x q where
  down := h.down
  stored := hpast ▸ h.stored
  count := hpast ▸ h.count

end Rests

section Runs

variable {d : Definition} {registry : Registry} {config : Config} {plan : Plan} {r : Run}
  {xs ys : List Event} {place : Nat} {c c' : Copy}

theorem poise_after (h : Made d registry config plan r) (events : List Event) (place : Nat) :
    (r.record events).Minded regime Poise place := by
  refine Record.minded_after lawful_regime (fun x p q h hown hpast _ => h.rests hown hpast)
    (fun x d z p q hn hl h => h.next hn hl) (fun c hc => ?_) events
  refine ⟨⟨false, .outside, .none⟩, ?_, Flow.apart_of_made h hc, trivial, nofun⟩
  exact h.minds (List.mem_of_getElem? hc) trivial ⟨rfl, rfl, nofun⟩ nofun

/-- With the flag up the watch knows so. -/
theorem exists_down (h : Made d registry config plan r)
    (hflag : (r.after xs).control.stopped = true)
    (hc : (r.after xs).net.copies[place]? = some c) : ∃ x : Slack, x.down = true ∧
      regime.Minds c (r.after xs).net.shared x ∧ Poise x ((r.record xs).position place c) := by
  obtain ⟨x, hminds, hx⟩ := poise_after h xs place c (by rwa [record, Record.run_after])
  refine ⟨{ x with down := true }, rfl, ?_, ?_⟩
  · exact ⟨hminds.obeys.drift lawful_regime (.inr rfl), fun _ => hflag⟩
  · exact ⟨hx.apart, hx.aims, hx.stored⟩

/-- From the flag on nothing is taken into account but what was done since. -/
theorem wanes_after {x : Slack} (hdown : x.down = true)
    (hc : r.net.copies[place]? = some c) (hminds : regime.Minds c r.net.shared x)
    (hapart : Flow.Apart c.own.origin) (haims : x.errand.Aims c.own.origin) (ys : List Event) :
    (r.record ys).Minded regime Wanes place := by
  refine Record.minded_after lawful_regime (fun x p q h hown hpast _ => h.rests hown hpast)
    (fun x d z p q hn hl h => h.next hn hl) (fun c₁ hc₁ => ?_) ys
  obtain rfl := Option.some.inj (hc.symm.trans hc₁)
  have hone : ∀ b : Bool, 0 + b.toNat ≤ 1 := by decide
  exact ⟨x, hminds, hdown, hapart, haims, hone _, hone _, fun _ _ _ => hone _, ⟨.nil, nofun⟩, nofun⟩

theorem storings_le {x : Slack} (hdown : x.down = true)
    (hc : (r.after xs).net.copies[place]? = some c)
    (hminds : regime.Minds c (r.after xs).net.shared x)
    (hstored : (Storage.ofPast ((r.record xs).past place)).stored = true →
      x.errand.isCleared = true)
    (hc' : (r.after (xs ++ ys)).net.copies[place]? = some c') :
    (Storage.ofPast ((r.record (xs ++ ys)).past place)).count ≤
      (Storage.ofPast ((r.record xs).past place)).count + 1 := by
  have hminded : ((r.record xs).after ys).Minded regime
      (Stores (Storage.ofPast ((r.record xs).past place)).count) place := by
    refine Record.minded_after lawful_regime (fun x p q h _ hpast _ => h.rests hpast)
      (fun x d z p q hn hl h => h.next hn hl) (fun c₁ hc₁ => ?_) ys
    rw [record, Record.run_after] at hc₁
    obtain rfl := Option.some.inj (hc.symm.trans hc₁)
    rw [record, Record.run_after]
    exact ⟨x, hminds, hdown, hstored, Nat.add_le_add_left (Bool.toNat_le _) _⟩
  rw [record, ← Record.after_append] at hminded
  obtain ⟨z, -, hz⟩ := hminded c' (by rwa [Record.run_after])
  exact (Nat.le_add_right _ _).trans hz.count

/-- A copy that is gone has its outcome by its last return. -/
theorem ruling_of_gone {x : Slack} (hminds : regime.Minds c r.net.shared x)
    {p : Position} (hrules : Rules x p) (hgone : c.isGone = true) {result : Except Fault Bool}
    {after : List Deed} (hlast : lastReturn p.past = some (result, after)) :
    ∃ e, p.own.outcome = some e ∧ Ruling result after e := by
  have hclosed : x.call = .closed := by
    have hleads := hminds.obeys.leads
    obtain ⟨op, own, task⟩ := c
    cases task with
    | gone => exact At.call hleads
    | _ => cases hgone
  cases hrules result after hlast with
  | closed hc he ho hv hlone => exact ⟨_, ho, hv⟩
  | fine hc _ | faulty hc _ | rejecting hc _ | routed hc _ | lost hc _ | ending hc _ _ _ _ =>
    rw [hclosed] at hc
    cases hc

/-- From the moment that the flag is up, in a run of any operators, each copy does what it
was in the middle of at most, and comes to rest. -/
theorem quiesces_of_stopped (h : make d registry config = .ok r) (xs ys : List Event)
    (hflag : (r.after xs).control.stopped = true)
    (hc : (r.after xs).net.copies[place]? = some c)
    (hc' : (r.after (xs ++ ys)).net.copies[place]? = some c') :
    ∃ since, Quiesces r xs ys place c c' since := by
  obtain ⟨plan, hmade⟩ := made_of_make h
  obtain ⟨x, hdown, hminds, hx⟩ := exists_down hmade hflag hc
  have hcopy : (((r.after xs).record ys).run).net.copies[place]? = some c' := by
    rwa [record, Record.run_after, ← after_append]
  have hlater : ((r.after xs).after ys).net.copies[place]? = some c' := by rwa [← after_append]
  obtain ⟨z, hz, hwanes⟩ := wanes_after hdown hc hminds hx.apart hx.aims ys c' hcopy
  refine ⟨((r.after xs).record ys).past place, ?_⟩
  constructor
  · exact r.past_record_append xs ys place
  · exact (Nat.le_add_right _ _).trans hwanes.calls
  · exact (Nat.le_add_right _ _).trans hwanes.takes
  · exact storings_le hdown hc hminds hx.stored hc'
  · intro outlet b hb
    have hbranch : b.origin ∈ c'.own.origin.branch? outlet := by
      rw [Local.branch?_origin, hb]
      rfl
    exact (Nat.le_add_right _ _).trans (hwanes.gives outlet b.origin hbranch)
  · exact hwanes.shut.pairs
  · intro hnode hmoves
    obtain ⟨_, -, hasking⟩ := Record.counted_after lawful_regime (S := Asking)
      (fun _ _ _ _ _ _ h hw => h.waits hw) (fun _ _ _ _ _ hm h hd => h.idle hm hd)
      (fun _ _ _ _ _ _ _ _ _ _ h hd hn hl => h.does hd hn hl) hc hminds (.poised hdown hnode)
      ys c' hlater
    exact hasking.told hmoves
  · intro row hnode hopen hmoves
    obtain ⟨_, -, hputting⟩ := Record.counted_after lawful_regime (S := Putting row)
      (fun _ _ _ _ _ _ h hw => h.waits hw) (fun _ _ _ _ _ hm h hd => h.idle hm hd)
      (fun _ _ _ _ _ _ _ _ _ _ h hd hn hl => h.does hd hn hl) hc hminds
      (.poised hdown hnode hopen) ys c' hlater
    exact hputting.told hmoves
  · exact fun result after hlast hgone => ruling_of_gone hz hwanes.rules hgone hlast

/-- The counting run is stopped when its source is about to deliver a row. -/
def haltedCourse : List Event :=
  .prepare :: (turns 9 ++ [.chief, .start] ++ turns 8 ++ [.requestStop, .stop 0, .stop 0])

/-- The row is the one that the source may still store. -/
theorem quiesces_of_stopped_halted :
    (countingRun.after haltedCourse).control.stopped = true ∧
    (Storage.ofPast ((countingRun.record (haltedCourse ++ turns 60)).past 0)).count =
      (Storage.ofPast ((countingRun.record haltedCourse).past 0)).count + 1 ∧
    ∃ c c' since, (countingRun.after haltedCourse).net.copies[0]? = some c ∧
      (countingRun.after (haltedCourse ++ turns 60)).net.copies[0]? = some c' ∧
      c'.isGone = true ∧ Quiesces countingRun haltedCourse (turns 60) 0 c c' since := by
  have hflag : (countingRun.after haltedCourse).control.stopped = true := by decide +kernel
  have hsome : (countingRun.after haltedCourse).net.copies[0]?.isSome = true := by decide +kernel
  have hgone : (countingRun.after (haltedCourse ++ turns 60)).net.copies[0]?.map (·.isGone) =
      some true := by decide +kernel
  obtain ⟨c, hc⟩ := Option.isSome_iff_exists.mp hsome
  obtain ⟨c', hc', hgone⟩ := Option.map_eq_some_iff.mp hgone
  obtain ⟨since, hsince⟩ :=
    quiesces_of_stopped make_counting haltedCourse (turns 60) hflag hc hc'
  exact ⟨hflag, by decide +kernel, c, c', since, hc, hc', hgone, hsince⟩

end Runs

end Stopping
end RowFlow
