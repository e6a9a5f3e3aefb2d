import Mathlib.Data.Int.CardIntervalMod
import Mathlib.Data.List.Pairwise
import RowFlow.Proofs.RowSet.Fifo
import RowFlow.Proofs.Sending.Calls

/-
Rows are dealt out.  A copy puts one row after the other, and every output passes its turn
with each of them: the row of the `k`-th call goes to the row set at place `k % m` of an output
with `m` row sets (`Feeding.moves`).  Consumers may take rows at any time, so a call may
have to wait, and the copy may do other things between its calls.

The induction is on the calls.  The outputs that a call finds are those of the first one with
their turns moved on by the number of calls in between (`turned`).
-/
namespace RowFlow

namespace Doing

def clashes : Doing → Bool
  | delivered _ _ (.error (.incompatible _ _)) => true
  | _ => false

end Doing

structure Shared.Calm (places : List Nat) (s : Shared) : Prop where
  goesOn : s.control.stopped = false
  ready : ∀ i ∈ places, ∃ rs ∈ s.rowSets[i]?, rs.closed = false ∧ rs.detached = false

instance (places : List Nat) (s : Shared) : Decidable (s.Calm places) :=
  decidable_of_iff (s.control.stopped = false ∧
      ∀ i ∈ places, ∃ rs ∈ s.rowSets[i]?, rs.closed = false ∧ rs.detached = false)
    ⟨fun h => ⟨h.1, h.2⟩, fun h => ⟨h.goesOn, h.ready⟩⟩

structure Putting where
  row : Row
  result : Except Fault Unit
  happenings : List Happening

namespace Putting

def doings (x : Putting) : List Doing := Happening.doings x.happenings

/-- The call is made while all is well, and no row set refuses the row for its layout. -/
structure Smooth (places : List Nat) (x : Putting) : Prop where
  calm : ∀ y ∈ x.happenings, y.doing.sends = true → y.found.Calm places
  agrees : ∀ d ∈ x.doings, d.clashes = false

instance (places : List Nat) (x : Putting) : Decidable (x.Smooth places) :=
  decidable_of_iff ((∀ y ∈ x.happenings, y.doing.sends = true → y.found.Calm places) ∧
      ∀ d ∈ x.doings, d.clashes = false)
    ⟨fun h => ⟨h.1, h.2⟩, fun h => ⟨h.calm, h.agrees⟩⟩

end Putting

/-- One call after the other.  In between the copy may do anything but put rows or end its
outputs, and the others may do theirs. -/
inductive Feeding (os : List Nat) : Local → Shared → List Putting → Local → Shared → Prop
  | nil (l : Local) (s : Shared) : Feeding os l s [] l s
  | cons {l l' m k : Local} {s t u : Shared} {x : Putting} {xs : List Putting}
      (houtputs : l'.outputs = l.outputs) (hopen : l'.outputDone = false)
      (hwritten : l'.counts.written = l.counts.written)
      (h : (Program.putRow x.row).Amid os l' s x.happenings x.result m t)
      (hr : Feeding os m t xs k u) : Feeding os l s (x :: xs) k u

open Program Doing

def handed (row : Row) (is : List Nat) : List Sending := is.map fun i => ⟨i, row, .ok .accepted⟩

section Smooth

variable {os places : List Nat} {l m : Local} {s t : Shared} {x : Putting}

/-- While all is well a row set takes a row, or it refuses it for its layout. -/
theorem Shared.Calm.accepted {i : Nat} {row : Row} {r : Except Fault Delivery}
    (hc : s.Calm places) (hi : i ∈ places) (h : s.Answers i row r t)
    (hagrees : (Doing.delivered i row r).clashes = false) : r = .ok .accepted := by
  obtain ⟨rs, hrs, hopen, hattached⟩ := hc.ready i hi
  have hrs : s.rowSets[i]? = some rs := hrs
  cases h with
  | accepted h => rfl
  | discarded h =>
    rw [Shared.offer_answer hrs] at h
    rw [RowSet.detached_of_discarded h] at hattached
    cases hattached
  | refused h =>
    rw [Shared.offer_answer hrs] at h
    obtain ⟨-, difference, -, rfl⟩ := RowSet.refusal_of_error hopen h
    cases hagrees
  | dropped h =>
    rw [hc.goesOn] at h
    cases h

theorem chosen_sublist (bs : List Branch) : (chosen bs).Sublist (bs.flatMap (·.rowSets)) := by
  induction bs with
  | nil => exact .slnil
  | cons b bs ih =>
    rw [chosen_cons, List.flatMap_cons]
    refine List.Sublist.append ?_ ih
    cases h : b.current? with
    | none => exact List.nil_sublist _
    | some i => exact List.singleton_sublist.mpr (List.mem_of_getElem? h)

/-- If all row sets take the row, it is sent to every one whose turn it is. -/
theorem Program.Answered.handed {row : Row} {is : List Nat} {xs : List Sending}
    {r : Except Fault Unit} (h : Answered row is xs r) (hall : ∀ x ∈ xs, x.result = .ok .accepted) :
    r = .ok () ∧ xs = RowFlow.handed row is := by
  induction h with
  | all => exact ⟨rfl, rfl⟩
  | next y h ih =>
    obtain ⟨hy, hall⟩ := List.forall_mem_cons.mp hall
    obtain ⟨hr, hxs⟩ := ih hall
    cases hy
    exact ⟨hr, congrArg (_ :: ·) hxs⟩
  | fault f => cases hall _ List.mem_cons_self

/-- A call while all is well. -/
theorem Putting.Smooth.put (hx : x.Smooth (l.outputs.flatMap (·.rowSets)))
    (h : (putRow x.row).Amid os l s x.happenings x.result m t) (hopen : l.outputDone = false) :
    x.result = .ok () ∧ sendings x.doings = handed x.row (chosen l.outputs) ∧
      m.outputs = l.outputs.map Branch.advance ∧ m.counts.written = l.counts.written + 1 := by
  have hlooks : true ∉ looks x.doings :=
    not_mem_looks h.passes fun y hy hsends => (hx.calm y hy hsends).goesOn
  have htakes : ∀ {r}, Answered x.row (chosen l.outputs) (sendings x.doings) r →
      ∀ y ∈ sendings x.doings, y.result = .ok .accepted := by
    intro r hsent y hy
    have hd := mem_sendings.mp hy
    obtain ⟨z, hz, hdoing⟩ := List.mem_map.mp hd
    obtain ⟨t₁, -, hfinds, -⟩ := h.passes.finds hz
    have hcalm := hx.calm z hz (by rw [hdoing]; rfl)
    rw [hdoing] at hfinds
    exact hcalm.accepted ((chosen_sublist _).subset (hsent.mem hy).1)
      (Finds.delivered_iff.mp hfinds) (hx.agrees _ hd)
  generalize hr : x.result = r at h
  cases runs_putRow h.runs with
  | late hdone => exact absurd hdone (by simp [hopen])
  | stopped _ hask =>
    have hup : true ∈ looks x.doings := hask ▸ List.mem_singleton_self true
    exact absurd hup hlooks
  | refused _ _ hsent =>
    cases (hsent.handed (htakes hsent)).1
  | sent _ _ hsent hcounts htold hturns =>
    exact ⟨rfl, (hsent.handed (htakes hsent)).2, hturns, congrArg Counts.written hcounts⟩

end Smooth

def turned (bs : List Branch) (k : Nat) : List Branch :=
  bs.map fun b => { b with next := b.next + k }

theorem turned_turned (bs : List Branch) (j k : Nat) :
    turned (turned bs j) k = turned bs (j + k) := by
  simp [turned, Function.comp_def, Nat.add_assoc]

theorem flatMap_turned (bs : List Branch) (k : Nat) :
    (turned bs k).flatMap (·.rowSets) = bs.flatMap (·.rowSets) := by
  simp [turned, List.flatMap_map]

theorem map_advance {bs : List Branch} (h : ∀ b ∈ bs, b.rowSets ≠ []) :
    bs.map Branch.advance = turned bs 1 := by
  refine List.map_congr_left fun b hb => ?_
  rw [Branch.advance, if_neg (by simpa using h b hb)]

/-- What comes of one call after the other, made while all is well: the turns move on. -/
theorem Feeding.moves {os : List Nat} {l m : Local} {s t : Shared} {xs : List Putting}
    (h : Feeding os l s xs m t) (hsome : ∀ b ∈ l.outputs, b.rowSets ≠ [])
    (hsmooth : ∀ x ∈ xs, x.Smooth (l.outputs.flatMap (·.rowSets))) :
    (∀ k x, xs[k]? = some x → x.result = .ok () ∧
      sendings x.doings = handed x.row (chosen (turned l.outputs k))) ∧
    m.counts.written = l.counts.written + xs.length := by
  induction h with
  | nil l s =>
    refine ⟨fun k x hk => ?_, rfl⟩
    cases hk
  | @cons l l' m n s t u x xs houtputs hopen hwritten h hr ih =>
    rw [← houtputs] at hsome hsmooth ⊢
    obtain ⟨hx, hxs⟩ := List.forall_mem_cons.mp hsmooth
    obtain ⟨hresult, hsent, hturns, hcounts⟩ := hx.put h hopen
    rw [map_advance hsome] at hturns
    have hsome' : ∀ b ∈ m.outputs, b.rowSets ≠ [] := by
      rw [hturns]
      intro b hb
      obtain ⟨b', hb', rfl⟩ := List.mem_map.mp hb
      exact hsome b' hb'
    obtain ⟨hcalls, hlast⟩ := ih hsome' (by rwa [hturns, flatMap_turned])
    refine ⟨fun k y hk => ?_, ?_⟩
    · cases k with
      | zero =>
        cases hk
        refine ⟨hresult, ?_⟩
        rw [hsent]
        simp [turned]
      | succ k =>
        obtain ⟨hok, hsame⟩ := hcalls k y hk
        rw [hturns, turned_turned, Nat.add_comm 1 k] at hsame
        exact ⟨hok, hsame⟩
    · rw [hlast, hcounts, hwritten, List.length_cons]
      omega

section Received

variable {row : Row} {i : Nat}

/-- A row set that is there once receives a row once. -/
theorem filterMap_accepted_handed {is : List Nat} (h : is.Nodup) :
    (handed row is).filterMap (Sending.accepted? i) = if i ∈ is then [row] else [] := by
  induction is with
  | nil => rfl
  | cons j is ih =>
    obtain ⟨hj, hrest⟩ := List.nodup_cons.mp h
    have hcons : (handed row (j :: is)).filterMap (Sending.accepted? i) =
        (if j = i then [row] else []) ++ (handed row is).filterMap (Sending.accepted? i) := by
      by_cases hji : j = i <;> simp [handed, Sending.accepted?, hji]
    rw [hcons, ih hrest]
    by_cases hji : j = i
    · subst hji
      simp [hj]
    · simp [hji, Ne.symm hji]

theorem eq_of_mem_rowSets {bs : List Branch} (h : (bs.flatMap (·.rowSets)).Nodup)
    {b b' : Branch} (hb : b ∈ bs) (hb' : b' ∈ bs) (hi : i ∈ b.rowSets) (hi' : i ∈ b'.rowSets) :
    b' = b := by
  by_contra hne
  have : Std.Symm (Function.onFun List.Disjoint fun c : Branch => c.rowSets) :=
    ⟨fun _ _ hd => hd.symm⟩
  exact (List.nodup_flatMap.mp h).2.forall hb' hb hne hi' hi

/-- It is the turn of a row set that stands at one place only. -/
theorem mem_chosen_turned {bs : List Branch} (h : (bs.flatMap (·.rowSets)).Nodup) {b : Branch}
    (hb : b ∈ bs) {j : Nat} (hi : b.rowSets[j]? = some i) (k : Nat) :
    i ∈ chosen (turned bs k) ↔ (b.next + k) % b.rowSets.length = j := by
  have hmem : i ∈ chosen (turned bs k) ↔
      ∃ b' ∈ bs, b'.rowSets[(b'.next + k) % b'.rowSets.length]? = some i := by
    simp [chosen, turned, Branch.current?]
  rw [hmem]
  constructor
  · rintro ⟨b', hb', hi'⟩
    obtain rfl : b' = b :=
      eq_of_mem_rowSets h hb hb' (List.mem_of_getElem? hi) (List.mem_of_getElem? hi')
    have hnodup : b'.rowSets.Nodup := (List.nodup_flatMap.mp h).1 b' hb'
    obtain ⟨hlt, -⟩ := List.getElem?_eq_some_iff.mp hi'
    exact (List.getElem?_inj hlt hnodup).mp (hi'.trans hi.symm)
  · rintro rfl
    exact ⟨b, hb, hi⟩

/-- The rows at the places that leave `j` when they are divided by `m`, in their order. -/
def dealt (m j : Nat) (rows : List Row) : List Row :=
  (rows.zipIdx.filter fun p => p.2 % m == j).map (·.1)

theorem received_flatMap {xs : List Putting} {m j : Nat} (o : Nat)
    (h : ∀ k x, xs[k]? = some x →
      received i x.doings = if (o + k) % m = j then [x.row] else []) :
    received i (xs.flatMap Putting.doings) =
      (((xs.map (·.row)).zipIdx o).filter fun p => p.2 % m == j).map (·.1) := by
  induction xs generalizing o with
  | nil => rfl
  | cons x xs ih =>
    have hx := h 0 x rfl
    have hxs := ih (o + 1) fun k y hk => by
      rw [Nat.add_assoc, Nat.add_comm 1 k]
      exact h (k + 1) y hk
    rw [List.flatMap_cons, received_append, hx, hxs, Nat.add_zero, List.map_cons, List.zipIdx_cons]
    by_cases ho : o % m = j <;> simp [ho]

theorem length_dealt {m j : Nat} (rows : List Row) :
    (dealt m j rows).length = rows.length.count (· % m = j) := by
  have hcount : ∀ n, (List.range n).countP (fun k => k % m == j) = n.count (· % m = j) := by
    intro n
    induction n with
    | zero => rfl
    | succ n ih =>
      rw [List.range_succ, List.countP_append, ih, Nat.count_succ]
      by_cases h : n % m = j <;> simp [h]
  have hrange : rows.zipIdx.map (·.2) = List.range rows.length := by
    rw [List.zipIdx_map_snd, List.range_eq_range']
  rw [dealt, List.length_map, ← List.countP_eq_length_filter, ← hcount, ← hrange, List.countP_map]
  rfl

/-- No place is dealt more than one row more than another. -/
theorem length_dealt_le {m j j' : Nat} (hj : j < m) (hj' : j' < m) (rows : List Row) :
    (dealt m j rows).length ≤ (dealt m j' rows).length + 1 := by
  have hcount : ∀ {v}, v < m → (dealt m v rows).length =
      rows.length / m + if v < rows.length % m then 1 else 0 := by
    intro v hv
    have hmod := Nat.count_modEq_card rows.length (Nat.zero_lt_of_lt hv) v
    simp only [Nat.ModEq, Nat.mod_eq_of_lt hv] at hmod
    rw [length_dealt, hmod]
  rw [hcount hj, hcount hj']
  split <;> split <;> omega

end Received

theorem Feeding.passes {os : List Nat} {l m : Local} {s t : Shared} {xs : List Putting}
    (h : Feeding os l s xs m t) : s.Passes os (xs.flatMap (·.happenings)) t := by
  induction h with
  | nil l s => exact .nil (.refl os s)
  | cons _ _ _ h _ ih => exact h.passes.chain ih

theorem doings_flatMap (xs : List Putting) :
    Happening.doings (xs.flatMap (·.happenings)) = xs.flatMap Putting.doings := List.map_flatMap ..

/-- Every output has one row set whose turn it is. -/
theorem exists_chosen {bs : List Branch} (h : ∀ b ∈ bs, b.rowSets ≠ []) :
    ∃ is, chosen bs = is ∧ List.Forall₂ (fun b i => b.current? = some i) bs is := by
  induction bs with
  | nil => exact ⟨[], rfl, .nil⟩
  | cons b bs ih =>
    obtain ⟨hb, hbs⟩ := List.forall_mem_cons.mp h
    obtain ⟨is, his, hall⟩ := ih hbs
    have hlt : b.next % b.rowSets.length < b.rowSets.length :=
      Nat.mod_lt _ (List.length_pos_iff.mpr hb)
    have hcurrent : b.current? = some b.rowSets[b.next % b.rowSets.length] :=
      List.getElem?_eq_getElem hlt
    refine ⟨_ :: is, ?_, .cons hcurrent hall⟩
    rw [chosen_cons, hcurrent, his]
    rfl

/-- The rows of these calls are spread over the outputs.  A row set is to stand at one place
only. -/
structure Spread (os : List Nat) (l : Local) (s : Shared) (xs : List Putting) (m : Local)
    (t : Shared) : Prop where
  returned : ∀ x ∈ xs, x.result = .ok ()
  /-- Each row goes to one row set of each output, -/
  each : ∀ k x, xs[k]? = some x → ∃ is, sendings x.doings = handed x.row is ∧
    List.Forall₂ (fun b i => b.rowSets[k % b.rowSets.length]? = some i) l.outputs is
  /-- so that a row set receives those that fall to its place, in their order, -/
  received : (l.outputs.flatMap (·.rowSets)).Nodup → ∀ b ∈ l.outputs, ∀ j i,
    b.rowSets[j]? = some i →
      received i (xs.flatMap Putting.doings) = dealt b.rowSets.length j (xs.map (·.row))
  /-- and not more than one row more than another of the same output. -/
  even : (l.outputs.flatMap (·.rowSets)).Nodup → ∀ b ∈ l.outputs, ∀ i ∈ b.rowSets,
    ∀ i' ∈ b.rowSets, (Doing.received i (xs.flatMap Putting.doings)).length ≤
      (Doing.received i' (xs.flatMap Putting.doings)).length + 1
  /-- Where nobody else writes, that is all that is added to a row set. -/
  added : ∀ i ∈ os, ∀ rs, s.rowSets[i]? = some rs → ∃ rs', t.rowSets[i]? = some rs' ∧
    rs.Served (Doing.received i (xs.flatMap Putting.doings)) rs'
  /-- A row counts once, however many outputs there are. -/
  written : m.counts.written = l.counts.written + xs.length

/-- Rows that a copy puts while all is well are duplicated over its outputs and take turns over
the row sets of each. -/
theorem spread_of_feeding {os : List Nat} {l m : Local} {s t : Shared} {xs : List Putting}
    (h : Feeding os l s xs m t) (hsome : ∀ b ∈ l.outputs, b.rowSets ≠ [])
    (hfresh : ∀ b ∈ l.outputs, b.next = 0)
    (hsmooth : ∀ x ∈ xs, x.Smooth (l.outputs.flatMap (·.rowSets))) : Spread os l s xs m t := by
  obtain ⟨hcalls, hwritten⟩ := h.moves hsome hsmooth
  have hreceived : (l.outputs.flatMap (·.rowSets)).Nodup → ∀ b ∈ l.outputs, ∀ j i,
      b.rowSets[j]? = some i →
        received i (xs.flatMap Putting.doings) = dealt b.rowSets.length j (xs.map (·.row)) := by
    intro hnodup b hb j i hi
    refine received_flatMap 0 fun k x hk => ?_
    have hchosen : (chosen (turned l.outputs k)).Nodup := by
      rw [← flatMap_turned l.outputs k] at hnodup
      exact hnodup.sublist (chosen_sublist _)
    rw [received, (hcalls k x hk).2, filterMap_accepted_handed hchosen]
    simp only [mem_chosen_turned hnodup hb hi k, hfresh b hb]
  constructor
  case returned =>
    intro x hx
    obtain ⟨k, hk⟩ := List.getElem?_of_mem hx
    exact (hcalls k x hk).1
  case each =>
    intro k x hk
    have hturned : turned l.outputs k = l.outputs.map fun b => { b with next := k } := by
      refine List.map_congr_left fun b hb => ?_
      rw [hfresh b hb, Nat.zero_add]
    have hsome' : ∀ b ∈ turned l.outputs k, b.rowSets ≠ [] := by
      intro b hb
      obtain ⟨b', hb', rfl⟩ := List.mem_map.mp hb
      exact hsome b' hb'
    obtain ⟨is, his, hall⟩ := exists_chosen hsome'
    refine ⟨is, by rw [(hcalls k x hk).2, his], ?_⟩
    rwa [hturned, List.forall₂_map_left_iff] at hall
  case received => exact hreceived
  case even =>
    intro hnodup b hb i hi i' hi'
    obtain ⟨j, hj⟩ := List.getElem?_of_mem hi
    obtain ⟨j', hj'⟩ := List.getElem?_of_mem hi'
    rw [hreceived hnodup b hb j i hj, hreceived hnodup b hb j' i' hj']
    exact length_dealt_le (List.getElem?_eq_some_iff.mp hj).1 (List.getElem?_eq_some_iff.mp hj').1 _
  case added =>
    intro i hi rs hrs
    rw [← doings_flatMap]
    exact h.passes.served hi hrs
  case written => exact hwritten

section Fork

def fork : Local where
  info := { name := "fork" }
  outputs := [{ target := "left", rowSets := [0, 1] }, { target := "right", rowSets := [2] }]

def forkShared : Shared where
  rowSets := [{ name := "left.0", capacity := 1 }, { name := "left.1", capacity := 1 },
    { name := "right.0", capacity := 1 }]

def forkFirst : List Happening × Program (Except Fault Unit) × Local × Shared :=
  (putRow (numbered 1)).unaided 12 fork forkShared

def forkSecond : List Happening × Program (Except Fault Unit) × Local × Shared :=
  (putRow (numbered 2)).unaided 12 forkFirst.2.2.1 (forkFirst.2.2.2.poll 2).1

def forkCalls : List Putting :=
  [⟨numbered 1, .ok (), forkFirst.1⟩, ⟨numbered 2, .ok (), forkSecond.1⟩]

theorem feeding_fork :
    Feeding [0, 1, 2] fork forkShared forkCalls forkSecond.2.2.1 forkSecond.2.2.2 :=
  .cons rfl rfl rfl (amid_unaided _ rfl)
    (.cons rfl rfl rfl ((amid_unaided _ rfl).before (Shared.meanwhile_poll _ 2)) (.nil _ _))

theorem spread_of_feeding_fork : (∀ x ∈ forkCalls, x.Smooth [0, 1, 2]) ∧
    Spread [0, 1, 2] fork forkShared forkCalls forkSecond.2.2.1 forkSecond.2.2.2 :=
  ⟨by decide, spread_of_feeding feeding_fork (by decide) (by decide) (by decide)⟩

end Fork
end RowFlow
