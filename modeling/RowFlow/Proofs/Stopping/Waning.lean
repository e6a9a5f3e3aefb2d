import RowFlow.Proofs.Flow.AtEnd
import RowFlow.Proofs.Hooks.Stage
import RowFlow.Proofs.Program.Effects
import RowFlow.Proofs.Stopping.Slack

/-
What the slack of a copy bounds.  With the flag up each look that a copy has passed lets it
do one thing more, and no look is passed any more: one call of the hook for work, one row
from its inputs, one call by which rows are stored, and by it one row for each outlet.  What
the copy has done since then and its slack are weighed against each other, and no doing
tips the balance.
-/
namespace RowFlow

namespace Deed

def isTake : Deed → Bool
  | take _ _ => true
  | _ => false

def isGive (rowSets : List Nat) : Deed → Bool
  | give i _ => decide (i ∈ rowSets)
  | _ => false

def Moves : Deed → Prop
  | mark _ => False
  | _ => True

def Begins : Deed → Prop
  | mark .get => True
  | mark (.put _) => True
  | mark (.reject _ _) => True
  | _ => False

end Deed

/-- The requests by which rows were stored: whether the one at hand has stored any, and how
many have that are done. -/
structure Storage where
  stored : Bool := false
  count : Nat := 0

namespace Storage

def note (x : Storage) : Deed → Storage
  | .give _ _ => { x with stored := true }
  | .mark (.put _) => { x with stored := false }
  | .mark (.reject _ _) => { x with stored := false }
  | .mark (.putDone _) => ⟨false, x.count + x.stored.toNat⟩
  | .mark (.rejectDone _) => ⟨false, x.count + x.stored.toNat⟩
  | _ => x

def ofPast (past : List Deed) : Storage := past.foldr (fun d x => x.note d) {}

end Storage

namespace Stopping

namespace Errand

def isOpen : Errand → Bool
  | asked => true
  | sending _ _ _ => true
  | _ => false

def isAsked : Errand → Bool
  | asked => true
  | _ => false

/-- The flag was seen down, so rows may be stored. -/
def isCleared : Errand → Bool
  | sending cleared _ _ => cleared
  | _ => false

def misses (outlet : Outlet) : Errand → Bool
  | sending _ used _ => decide (outlet ∉ used)
  | _ => false

/-- A chosen row set belongs to an outlet that has had no row yet. -/
def Aims (o : Local) : Errand → Prop
  | sending _ used aim => ∀ a ∈ aim, a.1 ∉ used ∧ ∃ b ∈ o.branch? a.1, a.2 ∈ b.rowSets
  | _ => True

end Errand

namespace Calling

def isCleared : Calling → Bool
  | cleared => true
  | _ => false

theorem Admits.eq_cleared {c : Calling} (h : c.Admits .process) : c = cleared := by
  cases c with
  | cleared => rfl
  | _ => exact absurd h id

end Calling

theorem past_of_aside {d : Doing} {p q : Position} (hd : Aside d.node) (hl : d.Leads p q) :
    q.past = p.past := by
  cases hl with
  | @act a p x l s h =>
    cases a with
    | mark m => exact absurd hd id
    | _ => rfl
  | took hi hrow => exact absurd hd id
  | gave h => exact absurd hd id
  | _ => rfl

/-- Requests that were begun with the flag up move no rows, and none is open to any. -/
structure Shut (past : List Deed) (e : Errand) : Prop where
  pairs : past.Pairwise fun later earlier => earlier.Begins → ¬ later.Moves
  closed : (∃ d ∈ past, d.Begins) → e.isOpen = false

namespace Shut

variable {past : List Deed} {e e' : Errand}

theorem weaken (h : Shut past e) (he : e'.isOpen = true → e.isOpen = true) : Shut past e' :=
  ⟨h.pairs, fun hb => Bool.eq_false_iff.mpr fun ho => by
    rw [h.closed hb] at he
    cases he ho⟩

theorem mark {m : Mark} (h : Shut past e) (he : e'.isOpen = true → e.isOpen = true)
    (hm : (Deed.mark m).Begins → e'.isOpen = false) : Shut (.mark m :: past) e' := by
  refine ⟨List.pairwise_cons.mpr ⟨fun _ _ _ => id, h.pairs⟩, ?_⟩
  rintro ⟨d, _ | ⟨_, hd⟩, hb⟩
  · exact hm hb
  · exact (h.weaken he).closed ⟨d, hd, hb⟩

/-- Only an open request moves a row. -/
theorem move {d : Deed} (h : Shut past e) (ho : e.isOpen = true) (hd : ¬ d.Begins) :
    Shut (d :: past) e' := by
  have hnone : ∀ d ∈ past, ¬ d.Begins := fun d hd hb => by
    rw [h.closed ⟨d, hd, hb⟩] at ho
    cases ho
  refine ⟨List.pairwise_cons.mpr ⟨fun d hd hb => absurd hb (hnone d hd), h.pairs⟩, ?_⟩
  rintro ⟨d', _ | ⟨_, hd'⟩, hb⟩
  · exact absurd hb hd
  · exact absurd hb (hnone d' hd')

end Shut

section Next

variable {x z : Slack} {d : Doing} {p q : Position} (hn : x.Next d z) (hl : d.Leads p q)
include hn hl

theorem Slack.Next.aims (h : x.errand.Aims p.own.origin) : z.errand.Aims q.own.origin := by
  rw [hl.origin]
  cases hn with
  | @choose b c seen used outlet v hnew =>
    cases hl with
    | act h =>
      cases h
      intro a ha
      obtain ⟨i, hi, rfl⟩ := Option.map_eq_some_iff.mp ha
      exact ⟨hnew, Program.tells_choose hi⟩
  | @get b => cases b <;> trivial
  | @put b | @reject b =>
    cases b with
    | true => trivial
    | false => exact nofun
  | aside he hd => exact h
  | clear => exact h
  | deliver => exact nofun
  | _ => trivial

/-- A request has stored rows only if it has seen the flag down. -/
theorem Slack.Next.stored (h : (Storage.ofPast p.past).stored = true → x.errand.isCleared = true) :
    (Storage.ofPast q.past).stored = true → z.errand.isCleared = true := by
  cases hn with
  | aside he hd => rwa [past_of_aside hd hl]
  | deliver => exact fun _ => rfl
  | choose => cases hl with | act _ => exact h
  | clear => cases hl with | act _ => exact fun hs => rfl
  | put hc | reject hc | putDone hc he | rejectDone he | putRefused | putSkipped =>
    cases hl with
    | act _ => exact nofun
  | _ =>
    cases hl
    all_goals exact fun hs => nomatch h hs

section Down

variable (hx : x.down = true)
include hx

theorem Slack.Next.calls : (calls q.past).count .process + z.call.isCleared.toNat ≤
    (calls p.past).count .process + x.call.isCleared.toNat := by
  cases hn with
  | aside he hd => rw [past_of_aside hd hl]
  | @look b c v hv =>
    obtain rfl : v = true := hv hx
    cases hl with
    | act _ => cases c <;> exact le_refl _
  | @enter b c hook v hc =>
    cases hl with
    | act _ =>
      cases hook with
      | process =>
        obtain rfl : c = .cleared := hc.eq_cleared
        simp [Action.deed?, Deed.mark?, Mark.hook?, Calling.isCleared]
      | init | dispose => simp [Action.deed?, Deed.mark?, Mark.hook?, Calling.isCleared]
  | @exit b hook r v =>
    cases hl with
    | act _ =>
      cases hook <;> cases r <;>
        simp [Action.deed?, Deed.mark?, Mark.hook?, Calling.isCleared, Calling.after]
  | @settle b c e v hc =>
    cases hl with
    | act _ => cases c <;> simp [Action.deed?, Calling.isCleared, Calling.settled]
  | @rejectDone b c e r v he =>
    cases hl with
    | act _ => cases c <;>
      simp [Action.deed?, Deed.mark?, Mark.hook?, Calling.isCleared, Calling.routes]
  | _ =>
    cases hl
    all_goals simp [Action.deed?, Deed.mark?, Mark.hook?]

theorem Slack.Next.takes : q.past.countP Deed.isTake + z.errand.isAsked.toNat ≤
    p.past.countP Deed.isTake + x.errand.isAsked.toNat := by
  cases hn with
  | aside he hd => rw [past_of_aside hd hl]
  | @get b | @put b | @reject b =>
    obtain rfl : b = true := hx
    cases hl with
    | act _ => simp [Action.deed?, Deed.isTake, Errand.isAsked]
  | take =>
    cases hl
    simp [List.countP_cons, Deed.isTake, Errand.isAsked]
  | _ =>
    cases hl
    all_goals simp [Action.deed?, Deed.isTake, Errand.isAsked]

theorem Slack.Next.gives {outlet : Outlet} {branch : Branch} (hapart : Flow.Apart p.own.origin)
    (haims : x.errand.Aims p.own.origin) (hbranch : branch ∈ p.own.origin.branch? outlet) :
    q.past.countP (Deed.isGive branch.rowSets) + (z.errand.misses outlet).toNat ≤
      p.past.countP (Deed.isGive branch.rowSets) + (x.errand.misses outlet).toNat := by
  cases hn with
  | aside he hd => rw [past_of_aside hd hl]
  | @get b | @put b | @reject b =>
    obtain rfl : b = true := hx
    cases hl with
    | act _ => simp [Action.deed?, Deed.isGive, Errand.misses]
  | @deliver b c used outlet' i row r =>
    have hfewer : ((Errand.sending true (outlet' :: used) none).misses outlet).toNat ≤
        ((Errand.sending true used (some (outlet', i))).misses outlet).toNat :=
      Bool.toNat_le_toNat fun h => decide_eq_true fun hmem =>
        of_decide_eq_true h (List.mem_cons_of_mem _ hmem)
    cases hl with
    | kept _ => exact Nat.add_le_add_left hfewer _
    | gave _ =>
      rw [List.countP_cons]
      by_cases hi : i ∈ branch.rowSets
      · obtain ⟨hnew, branch', hbranch', hi'⟩ := haims (outlet', i) rfl
        obtain rfl := hapart.outlet_eq hbranch hbranch' hi hi'
        simp [Deed.isGive, Errand.misses, hi, hnew]
      · simpa [Deed.isGive, hi] using hfewer
  | _ =>
    cases hl
    all_goals simp [Action.deed?, Deed.isGive, Errand.misses]

theorem Slack.Next.storings
    (h : (Storage.ofPast p.past).stored = true → x.errand.isCleared = true) :
    (Storage.ofPast q.past).count + z.errand.isCleared.toNat ≤
      (Storage.ofPast p.past).count + x.errand.isCleared.toNat := by
  cases hn with
  | aside he hd => rw [past_of_aside hd hl]
  | @get b | @put b | @reject b =>
    obtain rfl : b = true := hx
    cases hl with
    | act _ => exact le_refl _
  | putDone hc he | rejectDone he =>
    cases hl with
    | act _ => exact Nat.add_le_add_left (Bool.toNat_le_toNat h) _
  | putRefused | putSkipped =>
    cases hl with
    | act _ => exact Nat.add_le_add_left (Bool.toNat_le_toNat h) _
  | clear => cases hx
  | _ =>
    cases hl
    all_goals exact le_refl _

theorem Slack.Next.shut (h : Shut p.past x.errand) : Shut q.past z.errand := by
  cases hn with
  | aside he hd => rwa [past_of_aside hd hl]
  | @get b | @put b | @reject b =>
    obtain rfl : b = true := hx
    cases hl with
    | act _ => exact h.mark nofun fun _ => rfl
  | take =>
    cases hl
    exact h.move rfl id
  | deliver =>
    cases hl with
    | gave _ => exact h.move rfl id
    | kept _ => exact h.weaken id
  | enter hc | exit | got | gotNone | putRefused | putSkipped | putDone hc he | rejectDone he =>
    cases hl with
    | act _ => exact h.mark nofun fun hb => absurd hb id
  | look hv | settle hc | putLooks | putSkips | bar =>
    cases hl with
    | act _ => exact h.weaken nofun
  | dry | dryLate =>
    cases hl
    exact h.weaken nofun
  | _ =>
    cases hl with
    | act _ => exact h.weaken id

end Down

end Next

end Stopping
end RowFlow
