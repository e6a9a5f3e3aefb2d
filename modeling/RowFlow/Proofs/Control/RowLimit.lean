import Mathlib.Algebra.Order.BigOperators.Group.List
import Mathlib.Algebra.Order.Ring.Nat
import RowFlow.Proofs.Copy.Steady
import RowFlow.Proofs.Run.Diary

/-
The limit of source rows.  To put a row a source looks at the flag, sends the row, counts
it for itself and then for the run, and if the limit is reached by this count it gives the
reason and raises the flag.  Other sources may do the same in between, so the limit can be
passed.  But a source whose count has reached the limit does not put another row before
the flag is up, and then it puts none (`Stand.late`).  So each source counts at most one
row from the limit on.
-/
namespace RowFlow

/-- Requests that send and count rows by putting them, if at all. -/
def Request.PutsRows : Request → Prop
  | .recordSourceRows _ => False
  | .add k _ => k ≠ .written
  | _ => True

namespace RowLimit

inductive Stand where
  /-- It has inputs. -/
  | other
  | even
  /-- The last row was sent, and the run does not know of it. -/
  | owing
  /-- The limit was reached by the last count. -/
  | reached
  /-- The reason was given for that. -/
  | reasoned
  /-- The flag was raised for that. -/
  | late

namespace Stand

def Rests (source : Bool) : Stand → Prop
  | other => source = false
  | even => source = true
  | late => source = true
  | _ => False

def isOther : Stand → Bool
  | other => true
  | _ => false

/-- How many rows were sent that the run does not know of. -/
def owed : Stand → Nat
  | owing => 1
  | _ => 0

def excess : Stand → Nat
  | reached => 1
  | reasoned => 1
  | late => 1
  | _ => 0

end Stand

def Aside : Node → Prop
  | .act (.add .written _) => False
  | .act (.countSourceRows _) => False
  | _ => True

inductive Stand.Next : Stand → Doing → Stand → Prop
  | aside {x : Stand} {d : Doing} {source : Bool} (hx : x.Rests source) (hd : Aside d.node) :
      Next x d x
  | write {v : Nat} : Next other (.act (.add .written 1) v) other
  | add {v : Nat} : Next even (.act (.add .written 1) v) owing
  | count {v : Tally} (hv : v.reached = false) : Next owing (.act (.countSourceRows 1) v) even
  | reach {v : Tally} (hv : v.reached = true) : Next owing (.act (.countSourceRows 1) v) reached
  | reason {v : Unit} : Next reached (.act (.giveReason .rowLimit) v) reasoned
  | raise {v : Bool} : Next reasoned (.act .raiseFlag v) late

/-- A copy that is late knows that the flag is up. -/
def watch : Watch := .plain Stand Stand.Next (· = .late)

theorem lawful_watch : watch.Lawful := by
  refine Watch.lawful_plain fun {x z d p q} hn hl hx hz => ?_
  subst hz
  cases hn with
  | aside hr hd => exact (Shared.Le.control hl.shared_le).stopped (hx rfl)
  | raise =>
    cases hl with
    | act h =>
      cases h
      rfl

section Programs

open Program

variable {α β : Type} {o : Local} {x : Stand}

theorem aside_outer {n : Node} (h : n.Outer) : Aside n := by
  cases h with
  | error h =>
    cases h with
    | limit h => cases h <;> trivial
    | _ => trivial
  | fails step h => cases h <;> trivial
  | _ => trivial

theorem aside_parts {q : Request} {n : Node} (hq : q.PutsRows) (hput : ∀ row, q ≠ .putRow row)
    (h : q.Parts n) : Aside n := by
  cases h with
  | add c n =>
    cases c with
    | written => exact absurd rfl hq
    | _ => trivial
  | error h | rejectFails row d h =>
    cases h with
    | limit h => cases h <;> trivial
    | _ => trivial
  | stop h | errorLimit k h | rowLimit k h => cases h <;> trivial
  | countSourceRows n => exact absurd hq id
  | put row | putOwn row | putLooks row | putChooses row place | delivers row i | adds row
  | counts row | putLimit row h | putDone row r => exact absurd rfl (hput row)
  | _ => trivial

/-- A program that does not concern the rows that are put, followed by another one. -/
theorem heeds_aside {p : Program α} {f : α → Program β} {R : β → Stand → Prop} {source : Bool}
    (hx : x.Rests source) (hp : p.Within Aside) (hf : ∀ a, (f a).Heeds watch o R x) :
    (p >>= f).Heeds watch o R x :=
  heeds_skip (fun _ hd => .aside hx hd) lawful_watch hp hf

theorem heeds_recordSourceRows :
    (recordSourceRows 1).Heeds watch o (fun _ y => y.Rests true) .owing := by
  refine heeds_act fun (v : Tally) _ => ?_
  cases hv : v.reached with
  | false => exact ⟨.even, .count hv, heeds_pure rfl⟩
  | true =>
    refine ⟨.reached, .reach hv, ?_⟩
    refine heeds_act fun _ _ => ⟨.reasoned, .reason, ?_⟩
    exact heeds_act fun _ _ => ⟨.late, .raise, heeds_pure rfl⟩

theorem stays_putRow (row : Row) : (putRow row).Stays watch o (Stand.Rests o.isSource) := by
  intro x hx
  refine heeds_aside hx (within_perform trivial) fun _ => .bind lawful_watch ?_
  refine Heeds.mono (Q := fun _ => Stand.Rests o.isSource) ?_ fun r y hy =>
    heeds_aside hy (within_perform trivial) fun _ => heeds_pure hy
  refine heeds_act (a := .own) fun l hl => ⟨x, .aside hx trivial, ?_⟩
  split
  · exact heeds_pure hx
  refine heeds_act (a := .isStopped) fun stopped hs => ⟨x, .aside hx trivial, ?_⟩
  split
  · exact heeds_pure hx
  · next hup =>
    refine heeds_aside hx (within_parts_sendToAll (fun _ => trivial) (fun _ => trivial) _)
      fun r => ?_
    have hsource : l.isSource = o.isSource := by
      rw [← show l.origin = o from hl]
      rfl
    cases r with
    | error f => exact heeds_pure hx
    | ok u =>
      cases x with
      | other =>
        refine heeds_act fun _ _ => ⟨.other, .write, ?_⟩
        rw [hsource, show o.isSource = false from hx]
        exact heeds_pure rfl
      | even =>
        refine heeds_act fun _ _ => ⟨.owing, .add, ?_⟩
        rw [hsource, show o.isSource = true from hx]
        exact heeds_recordSourceRows.chain lawful_watch fun _ y hy => heeds_pure hy
      | late => exact absurd (hs rfl) hup
      | _ => exact absurd hx id

theorem preserves_watch (o : Local) :
    watch.Preserves o Request.PutsRows (Stand.Rests o.isSource) := by
  refine .of_parts (fun q => ∃ row, q = .putRow row) lawful_watch (Watch.lasts_plain _)
    (fun d x hd hx => ⟨x, .aside hx hd, hx⟩) (fun _ => aside_outer)
    (fun q n hq hput => aside_parts hq fun row h => hput ⟨row, h⟩) ?_ (fun _ _ => trivial) trivial
  rintro _ ⟨row, rfl⟩
  exact stays_putRow row

end Programs

/-- A copy that has done this is recording source rows: the limit was reached by its count,
and the flag is yet to be raised for it. -/
def IsRecording (ds : List Doing) : Prop :=
  ∃ (n : Nat) (v : Tally), v.reached = true ∧ ([.act (.countSourceRows n) v] <:+ ds ∨
    [.act (.countSourceRows n) v, .act (.giveReason .rowLimit) ()] <:+ ds)

namespace Stand

def Shows : Stand → List Doing → Prop
  | reached, ds => ∃ v : Tally, v.reached = true ∧ [.act (.countSourceRows 1) v] <:+ ds
  | reasoned, ds => ∃ v : Tally, v.reached = true ∧
      [.act (.countSourceRows 1) v, .act (.giveReason .rowLimit) ()] <:+ ds
  | _, _ => True

def Told : Stand → Prop
  | reasoned => True
  | late => True
  | _ => False

variable {x z : Stand} {d : Doing} {p q : Position}

theorem Rests.shows {source : Bool} (h : x.Rests source) (ds : List Doing) : x.Shows ds := by
  cases x with
  | reached | reasoned => exact absurd h id
  | _ => trivial

theorem quiet_of_aside (h : Aside d.node) : d.amount .sourceRows = 0 ∧ d.added .written = 0 := by
  cases d with
  | act a v =>
    cases a with
    | add k n =>
      cases k with
      | written => exact absurd h id
      | _ => exact ⟨rfl, rfl⟩
    | countSourceRows n => exact absurd h id
    | _ => exact ⟨rfl, rfl⟩
  | _ => exact ⟨rfl, rfl⟩

theorem Rests.owed {source : Bool} (h : x.Rests source) : x.owed = 0 := by
  cases x with
  | owing => exact absurd h id
  | _ => rfl

namespace Next

variable (h : x.Next d z)
include h

theorem isOther : z.isOther = x.isOther := by
  cases h <;> rfl

/-- What the run is told of a source is what the source has sent, but for what is owed. -/
theorem account :
    d.amount .sourceRows + z.owed = x.owed + if x.isOther then 0 else d.added .written := by
  cases h with
  | aside hx hd =>
    obtain ⟨hrows, hadded⟩ := quiet_of_aside hd
    rw [hrows, hadded, ite_self]
    exact Nat.add_comm _ _
  | _ => rfl

/-- A count either stays below the limit or is the one of the copy that reaches it. -/
theorem excess (hl : d.Leads p q) {limit : Nat} (hlimit : q.shared.control.rowLimit = some limit) :
    d.amount .sourceRows + x.excess = z.excess ∨
      z.excess = x.excess ∧ q.shared.control.sourceRows + 1 ≤ max limit 1 := by
  cases h with
  | aside hx hd => exact .inl (by rw [(quiet_of_aside hd).1, Nat.zero_add])
  | @count v hv =>
    have htally : v = ⟨q.shared.control.sourceRows,
      Control.reaches q.shared.control.rowLimit q.shared.control.sourceRows⟩ :=
        hl.tally (k := .sourceRows) rfl
    rw [htally, hlimit] at hv
    simp only [Control.reaches, decide_eq_false_iff_not] at hv
    exact .inr ⟨rfl, by omega⟩
  | _ => exact .inl rfl

theorem told (hl : d.Leads p q) (hz : z.Told) (hx : x.Told → p.shared.control.reason ≠ none) :
    q.shared.control.reason ≠ none := by
  rw [hl.control_reason]
  cases h with
  | aside _ _ | raise => cases hp : p.shared.control.reason <;> simp_all [Told]
  | reason => cases hp : p.shared.control.reason <;> simp [Doing.reason?]
  | _ => exact absurd hz id

theorem shows {ds : List Doing} (hx : x.Shows ds) : z.Shows (ds ++ [d]) := by
  cases h with
  | aside hr hd => exact hr.shows _
  | @reach v hv => exact ⟨v, hv, ds, rfl⟩
  | reason =>
    obtain ⟨v, hv, before, rfl⟩ := hx
    exact ⟨v, hv, before, by simp⟩
  | _ => trivial

end Next
end Stand

section Runs

open Run

variable {r : Run} {events : List Event} {e : Event} {xs : List Stand}

def sent (l : Local) : Nat := if l.isSource then l.counts.written else 0

/-- How the copies of a run stand after a course. -/
structure Tracked (r : Run) (events : List Event) (xs : List Stand) : Prop where
  kinds : xs.map Stand.isOther = r.net.copies.map fun c => !c.own.isSource
  total : (r.after events).control.sourceRows + (xs.map Stand.owed).sum =
    ((r.after events).net.copies.map fun c => sent c.own).sum
  bound : ∀ limit, r.control.rowLimit = some limit →
    (r.after events).control.sourceRows + 1 ≤ max limit 1 + (xs.map Stand.excess).sum
  told : ∀ x ∈ xs, x.Told → (r.after events).control.reason ≠ none
  shows : ∀ (i : Nat) (x : Stand), xs[i]? = some x → x.Shows (r.did events i)

namespace Tracked

theorem pause (h : Tracked r events xs) (hp : (r.after events).Pauses e) :
    Tracked r (events ++ [e]) xs := by
  have hsame := hp.map_own (f := sent) fun l l' h => by
    obtain ⟨_, _, _, rfl⟩ := h
    rfl
  obtain ⟨hkinds, htotal, hbound, htold, hshows⟩ := h
  have hrows : ((r.after events).happen e).control.sourceRows =
    (r.after events).control.sourceRows := hp.total .sourceRows
  rw [← hsame, ← hrows, ← after_concat] at htotal
  rw [← hrows, ← after_concat] at hbound
  refine ⟨hkinds, htotal, hbound, fun x hx hx' => ?_, fun i x hx => ?_⟩
  · rw [after_concat]
    exact Staged.reason_happen e (htold x hx hx')
  · rw [did, along_concat, doing?_of_pauses hp, Option.toList_none, List.append_nil]
    exact hshows i x hx

/-- A copy stands as one with inputs if it has some. -/
theorem isOther (h : Tracked r events xs) {place : Nat} {c : Copy} {x : Stand}
    (hc : (r.after events).net.copies[place]? = some c) (hx : xs[place]? = some x) :
    x.isOther = !c.own.isSource := by
  obtain ⟨c₀, hc₀, hbecomes⟩ := becomes_after events hc
  have hkind := congrArg (fun l => l[place]?) h.kinds
  simp only [List.getElem?_map, hx, hc₀, Option.map_some, Option.some.injEq] at hkind
  rw [hkind, Local.isSource, Local.isSource, Local.inputs_of_origin hbecomes.origin]

section Does

variable {place : Nat} {c c' : Copy} {d : Doing} {x z : Stand} (h : Tracked r events xs)
  (hd : (r.after events).Does e place c d c') (hx : xs[place]? = some x) (hn : x.Next d z)
include hx hn

/-- No copy gets inputs or loses them. -/
theorem map_isOther_set : (xs.set place z).map Stand.isOther = xs.map Stand.isOther := by
  obtain ⟨hlt, rfl⟩ := List.getElem?_eq_some_iff.mp hx
  have hlt' : place < (xs.map Stand.isOther).length := by simpa using hlt
  rw [List.map_set, hn.isOther, ← List.getElem_map Stand.isOther (h := hlt'),
    List.set_getElem_self]

include h hd

theorem total_does (hc : (r.after events).net.copies[place]? = some c)
    (hset : ((r.after events).happen e).net.copies = (r.after events).net.copies.set place c') :
    ((r.after events).happen e).control.sourceRows + ((xs.set place z).map Stand.owed).sum =
      (((r.after events).happen e).net.copies.map fun c => sent c.own).sum := by
  have hleads := hd.goes.leads []
  have hrows : ((r.after events).happen e).control.sourceRows =
    (r.after events).control.sourceRows + d.amount .sourceRows := hleads.total .sourceRows
  have hsent : sent c'.own = sent c.own + if x.isOther then 0 else d.added .written := by
    have hcounts : c'.own.counts.written = c.own.counts.written + d.added .written :=
      hleads.counts .written
    have hsource : c'.own.isSource = c.own.isSource := by
      rw [Local.isSource, Local.isSource, Local.inputs_of_origin hleads.origin]
    rw [sent, sent, hsource, h.isOther hc hx, hcounts]
    cases c.own.isSource <;> rfl
  have hcopies := sum_map_set (fun c : Copy => sent c.own) hc c'
  have howed := sum_map_set Stand.owed hx z
  have htotal := h.total
  have haccount := hn.account
  rw [hset, hrows]
  omega

theorem bound_does {limit : Nat} (hlimit : r.control.rowLimit = some limit) :
    ((r.after events).happen e).control.sourceRows + 1 ≤
      max limit 1 + ((xs.set place z).map Stand.excess).sum := by
  have hleads := hd.goes.leads []
  have hrows : ((r.after events).happen e).control.sourceRows =
    (r.after events).control.sourceRows + d.amount .sourceRows := hleads.total .sourceRows
  have hsame : ((r.after events).happen e).control.rowLimit = some limit := by
    rw [← after_concat, ← hlimit]
    exact (Shared.Le.control (r.shared_le_after (events ++ [e]))).rowLimit
  have hexcess := sum_map_set Stand.excess hx z
  have hbound := h.bound limit hlimit
  rcases hn.excess hleads hsame with heq | ⟨heq, hbelow⟩
  · rw [hrows]
    omega
  · have hbelow' : ((r.after events).happen e).control.sourceRows + 1 ≤ max limit 1 := hbelow
    omega

theorem told_does {y : Stand} (hy : y ∈ xs.set place z) (htold : y.Told) :
    ((r.after events).happen e).control.reason ≠ none := by
  rcases List.mem_or_eq_of_mem_set hy with hy | rfl
  · exact Staged.reason_happen e (h.told y hy htold)
  · exact hn.told (hd.goes.leads []) htold (h.told x (List.mem_of_getElem? hx))

theorem shows_does (hc : (r.after events).net.copies[place]? = some c) {i : Nat} {y : Stand}
    (hy : (xs.set place z)[i]? = some y) : y.Shows (r.did (events ++ [e]) i) := by
  rw [did, along_concat]
  by_cases hi : i = place
  · subst hi
    rw [List.getElem?_set_self (List.getElem?_eq_some_iff.mp hx).1, Option.some.injEq] at hy
    subst hy
    rw [doing?_of_does hd hc]
    exact hn.shows (h.shows i x hx)
  · rw [List.getElem?_set_ne (Ne.symm hi)] at hy
    rw [doing?_of_ne hd hi, Option.toList_none, List.append_nil]
    exact h.shows i y hy

theorem does (hc : (r.after events).net.copies[place]? = some c)
    (hset : ((r.after events).happen e).net.copies = (r.after events).net.copies.set place c') :
    Tracked r (events ++ [e]) (xs.set place z) where
  kinds := (map_isOther_set hx hn).trans h.kinds
  total := by
    rw [after_concat]
    exact h.total_does hd hx hn hc hset
  bound limit hlimit := by
    rw [after_concat]
    exact h.bound_does hd hx hn hlimit
  told y hy htold := by
    rw [after_concat]
    exact h.told_does hd hx hn hy htold
  shows i y hy := h.shows_does hd hx hn hc hy

end Does

end Tracked

def regime : Regime watch := .steady _ Request.PutsRows fun o => Stand.Rests o.isSource

theorem lawful_regime : regime.Lawful := Regime.lawful_steady lawful_watch preserves_watch

def start (c : Copy) : Stand := if c.own.isSource then .even else .other

variable {d : Definition} {registry : Registry} {config : Config} {plan : Plan}

theorem tracked_nil (h : Made d registry config plan r) :
    Tracked r [] (r.net.copies.map start) := by
  have hzero : ∀ f : Stand → Nat, f .even = 0 → f .other = 0 →
      ((r.net.copies.map start).map f).sum = 0 := by
    intro f heven hother
    refine List.sum_eq_zero fun n hn => ?_
    obtain ⟨c, hc, rfl⟩ := List.mem_map.mp (List.map_map ▸ hn)
    simp only [Function.comp_apply, start]
    split
    · exact heven
    · exact hother
  have hrows : r.control.sourceRows = 0 := by
    rw [Run.control, h.shared]
    rfl
  constructor
  · rw [List.map_map]
    refine List.map_congr_left fun c _ => ?_
    simp only [Function.comp_apply, start]
    cases c.own.isSource <;> rfl
  · have hsent : (r.net.copies.map fun c => sent c.own).sum = 0 := by
      refine List.sum_eq_zero fun n hn => ?_
      obtain ⟨c, hc, rfl⟩ := List.mem_map.mp hn
      obtain ⟨info, inputs, outputs, errorOutput, hfresh⟩ := h.own_fresh hc
      rw [hfresh, sent]
      exact ite_self 0
    rw [after_nil, hrows, hzero Stand.owed rfl rfl, hsent]
  · intro limit _
    rw [after_nil, hrows]
    omega
  · intro x hx hx'
    obtain ⟨c, -, rfl⟩ := List.mem_map.mp hx
    rw [start] at hx'
    split at hx' <;> exact absurd hx' id
  · intro i x hx
    obtain ⟨c, -, rfl⟩ := List.mem_map.mp (List.mem_of_getElem? hx)
    rw [start]
    split <;> trivial

theorem exists_tracked (h : Made d registry config plan r)
    (hops : ∀ c ∈ r.net.copies, c.op.Asks Request.PutsRows) (events : List Event) :
    ∃ xs : List Stand, regime.Watches (r.after events) xs ∧ Tracked r events xs := by
  have hwatches : regime.Watches r (r.net.copies.map start) := by
    refine h.watches (R := regime) start fun c hc => ⟨hops c hc, ?_, ?_⟩
    · show (start c).Rests c.own.isSource
      rw [start]
      cases hsource : c.own.isSource with
      | true => exact rfl
      | false => exact rfl
    · show ¬ start c = .late
      rw [start]
      split <;> simp
  exact hwatches.after lawful_regime (P := Tracked r) (fun events e xs h hp => h.pause hp)
    (fun events e xs place c d c' x z h _ hc hd hset hx hn => h.does hd hx hn hc hset)
    (tracked_nil h) events

/-- Each source counts over the limit at most once. -/
theorem Tracked.sum_excess_le (h : Tracked r events xs) :
    (xs.map Stand.excess).sum ≤ r.net.copies.countP (·.own.isSource) := by
  calc (xs.map Stand.excess).sum
      ≤ (xs.map fun x => (!x.isOther).toNat).sum := by
        refine List.sum_le_sum fun x _ => ?_
        cases x <;> decide
    _ = ((xs.map Stand.isOther).map fun b => (!b).toNat).sum := by rw [List.map_map]; rfl
    _ = (r.net.copies.map fun c => c.own.isSource.toNat).sum := by
        rw [h.kinds, List.map_map]
        simp [Function.comp_def]
    _ = r.net.copies.countP (·.own.isSource) := sum_toNat _ _

/-- From the limit on some source has counted over it. -/
theorem Tracked.exists_excess (h : Tracked r events xs) {limit : Nat}
    (hlimit : r.control.rowLimit = some limit)
    (hreached : max limit 1 ≤ (r.after events).control.sourceRows) :
    ∃ (i : Nat) (x : Stand), xs[i]? = some x ∧ x.excess ≠ 0 := by
  by_contra hnone
  have hzero : (xs.map Stand.excess).sum = 0 := by
    refine List.sum_eq_zero fun n hn => ?_
    obtain ⟨x, hx, rfl⟩ := List.mem_map.mp hn
    obtain ⟨i, hi⟩ := List.mem_iff_getElem?.mp hx
    by_contra hx
    exact hnone ⟨i, x, hi, hx⟩
  have hbound := h.bound limit hlimit
  omega

/-- A source that has counted over the limit is recording it still, or has raised the flag. -/
theorem late_of_excess {x : Stand} {ds : List Doing} (hx : x.excess ≠ 0) (hs : x.Shows ds)
    (hquiet : ¬ IsRecording ds) : x = .late := by
  cases x with
  | late => rfl
  | reached =>
    obtain ⟨v, hv, hlast⟩ := hs
    exact absurd ⟨1, v, hv, .inl hlast⟩ hquiet
  | reasoned =>
    obtain ⟨v, hv, hlast⟩ := hs
    exact absurd ⟨1, v, hv, .inr hlast⟩ hquiet
  | _ => exact absurd rfl hx

/-- The rows of the sources of a run with a limit. -/
structure Limited (limit : Nat) (r : Run) (events : List Event) : Prop where
  bound : (r.after events).control.sourceRows ≤
    max limit 1 - 1 + r.net.copies.countP (·.own.isSource)
  flag : (∀ place, ¬ IsRecording (r.did events place)) →
    max limit 1 ≤ (r.after events).control.sourceRows →
    (r.after events).control.stopped = true ∧
      ((∀ x ∈ r.given events, x = .rowLimit) →
        (r.after events).control.reason = some .rowLimit)
  total : (r.after events).IsOver → (r.after events).control.sourceRows =
    ((r.after events).net.copies.map fun c => sent c.own).sum

theorem owed_of_gone {c : Copy} {x : Stand} (h : regime.Obeys c x) (hgone : c.kind = .gone) :
    x.owed = 0 := by
  obtain ⟨op, own, task⟩ := c
  cases task with
  | gone =>
    have hrests : x.Rests own.origin.isSource := h.leads
    exact hrests.owed
  | _ => cases hgone

/-- Whatever the order in which copies do what they do, the sources of a run count at most
one row each from the limit on; if the limit is reached the run is stopped, but for what a
source is yet to do that is recording; and at the end all rows are counted that sources
have sent. -/
theorem limited_of_make (h : make d registry config = .ok r) {limit : UInt64}
    (hconfig : config.rowLimit = some limit)
    (hops : ∀ c ∈ r.net.copies, c.op.Asks Request.PutsRows) (events : List Event) :
    Limited limit.toNat r events := by
  obtain ⟨plan, hmade⟩ := made_of_make h
  have hlimit : r.control.rowLimit = some limit.toNat := by
    rw [Run.control, hmade.shared, controlOf, hconfig]
    rfl
  obtain ⟨xs, hwatches, htracked⟩ := exists_tracked hmade hops events
  have hbound := htracked.bound _ hlimit
  have hexcess := htracked.sum_excess_le
  refine ⟨by omega, fun hquiet hreached => ?_, fun hend => ?_⟩
  · obtain ⟨i, x, hi, hx⟩ := htracked.exists_excess hlimit hreached
    obtain rfl := late_of_excess hx (htracked.shows i x hi) (hquiet i)
    obtain ⟨c, hc, hminds⟩ := hwatches.exists_copy hi
    refine ⟨hminds.right rfl, fun honly => ?_⟩
    have htold := htracked.told _ (List.mem_of_getElem? hi) trivial
    have hnone : r.control.reason = none := by
      rw [Run.control, hmade.shared]
      rfl
    rw [reason_after, hnone, Option.none_or] at htold ⊢
    obtain ⟨y, hy⟩ := Option.ne_none_iff_exists'.mp htold
    rw [hy, honly y (List.mem_of_mem_head? hy)]
  · have hnone : (xs.map Stand.owed).sum = 0 := hwatches.sum_eq_zero fun c hc x hobeys =>
      owed_of_gone hobeys ((hmade.staged.after events).gone_of_isOver hend hc)
    have htotal := htracked.total
    omega

def limitedRun : Run :=
  ((make counting .builtins { rowLimit := some 1 }).toOption).getD
    { name := "", config := {}, net := { copies := [] } }

theorem make_limited : make counting .builtins { rowLimit := some 1 } = .ok limitedRun := rfl

theorem limited_of_make_limited : (limitedRun.after countingCourse).IsOver ∧
    (limitedRun.after countingCourse).control.sourceRows = 1 ∧
    Limited 1 limitedRun countingCourse := by
  refine ⟨.inl (by decide +kernel), by decide +kernel, ?_⟩
  have hcopies : limitedRun.net.copies = countingRun.net.copies := rfl
  refine limited_of_make make_limited rfl ?_ countingCourse
  rw [hcopies]
  exact forall_counting (P := fun op _ => op.Asks _)
    (Sequence.asks_operator (fun _ => trivial) _)
    (Operator.asks_passThrough trivial fun _ => trivial)

end Runs

end RowLimit
end RowFlow
