import RowFlow.Proofs.Determinacy.Pace

/-
Books on row sets.  Where each copy has one input at most and each row set one writer and
one reader, the trades of the copies say what is in the row sets (`Wires.Books`): what
the writer has put is what the reader has taken, what is in the buffer, and what was lost
when the reader had left.

The rows that are going to come to a copy are not known before its input has ended.
`Wires.Feeds` says which lists they may still turn out to be; with time these get fewer.
-/
namespace RowFlow

structure Wires where
  inputs : Nat → List Nat
  outlets : Nat → List Nat
  /-- The names of the row sets. -/
  names : Nat → String
  lone : ∀ b, (inputs b).length ≤ 1
  reader : ∀ {i b b'}, i ∈ inputs b → i ∈ inputs b' → b = b'
  writer : ∀ {i a a'}, i ∈ outlets a → i ∈ outlets a' → a = a'
  source : ∀ {i b}, i ∈ inputs b → ∃ a < b, i ∈ outlets a

section Rows

variable {rowSets : List Nat} {log log' : List Trade}

@[simp] theorem rowsTaken_append :
    rowsTaken (log ++ log') = rowsTaken log ++ rowsTaken log' := List.filterMap_append

@[simp] theorem rowsPut_append :
    rowsPut rowSets (log ++ log') = rowsPut rowSets log ++ rowsPut rowSets log' :=
  List.filterMap_append

@[simp] theorem rowsPut_nil_rowSets : rowsPut [] log = [] := by
  refine List.filterMap_eq_nil_iff.mpr fun d _ => ?_
  cases d <;> rfl

end Rows

section Entered

variable {log : Nat → List Trade} {place : Nat} {d : Option Trade}

@[simp] theorem entered_self : entered log place d place = log place ++ d.toList :=
  if_pos rfl

theorem entered_of_ne {a : Nat} (h : a ≠ place) : entered log place d a = log a :=
  if_neg h

theorem entered_none : entered log place none = log := by
  funext a
  simp [entered]

theorem rowsPut_entered {a i : Nat} (h : a = place → ∀ row, d ≠ some (.put i row)) :
    rowsPut [i] (entered log place d a) = rowsPut [i] (log a) := by
  by_cases ha : a = place
  · subst ha
    have hnone : rowsPut [i] d.toList = [] := by
      refine List.filterMap_eq_nil_iff.mpr fun x hx => ?_
      cases x with
      | put j row =>
        have hij : j ≠ i := by
          rintro rfl
          exact h rfl row (Option.mem_toList.mp hx)
        simp [Trade.putOn?, hij]
      | _ => rfl
    rw [entered_self, rowsPut_append, hnone, List.append_nil]
  · rw [entered_of_ne ha]

theorem rowsTaken_entered {b : Nat} (h : b = place → ∀ row, d ≠ some (.took row)) :
    rowsTaken (entered log place d b) = rowsTaken (log b) := by
  by_cases hb : b = place
  · subst hb
    have hnone : rowsTaken d.toList = [] := by
      refine List.filterMap_eq_nil_iff.mpr fun x hx => ?_
      cases x with
      | took row => exact absurd (Option.mem_toList.mp hx) (h rfl row)
      | _ => rfl
    rw [entered_self, rowsTaken_append, hnone, List.append_nil]
  · rw [entered_of_ne hb]

end Entered

namespace Program

inductive Fares (inputs outlets : List Nat) (parts : Prop) (i : Nat) (rs : RowSet) :
    Option Trade → RowSet → Prop
  | apart {d : Option Trade} (hput : ∀ row, d ≠ some (.put i row)) (hended : d ≠ some (.ended i))
      (htook : i ∈ inputs → ∀ row, d ≠ some (.took row)) : Fares inputs outlets parts i rs d rs
  | took {row : Row} {rest : List Row} (hi : i ∈ inputs) (hbuffer : rs.buffer = row :: rest) :
      Fares inputs outlets parts i rs (some (.took row)) { rs with buffer := rest }
  | accepted (row : Row) (layout : Option Schema) (hi : i ∈ outlets) (hopen : rs.closed = false)
      (hstay : rs.detached = false) :
      Fares inputs outlets parts i rs (some (.put i row))
        { rs with buffer := rs.buffer ++ [row], layout := layout }
  | discarded (row : Row) (hi : i ∈ outlets) (hopen : rs.closed = false)
      (hleft : rs.detached = true) : Fares inputs outlets parts i rs (some (.put i row)) rs
  | ended (hi : i ∈ outlets) :
      Fares inputs outlets parts i rs (some (.ended i)) { rs with closed := true }
  | left (hi : i ∈ inputs) (h : parts) : Fares inputs outlets parts i rs none rs.detach

section Fares

variable {inputs outlets : List Nat} {parts : Prop} {xs xs' : List RowSet} {d : Option Trade}
  {i : Nat} {rs rs' : RowSet}

/-- One row set where the row set at some place was changed. -/
theorem fares_set {j : Nat} {x y : RowSet} (hrs : xs[i]? = some rs) (hx : xs[j]? = some x)
    (hapart : i ≠ j → Fares inputs outlets parts i rs d rs)
    (htouch : i = j → x = rs → Fares inputs outlets parts i rs d y) :
    ∃ rs', (xs.set j y)[i]? = some rs' ∧ Fares inputs outlets parts i rs d rs' := by
  by_cases hij : i = j
  · subst hij
    obtain rfl := Option.some.inj (hrs.symm.trans hx)
    have hlt := (List.getElem?_eq_some_iff.mp hrs).1
    exact ⟨y, List.getElem?_set_self hlt, htouch rfl rfl⟩
  · exact ⟨rs, (List.getElem?_set_ne (Ne.symm hij)).trans hrs, hapart hij⟩

theorem eq_of_mem_lone (hlone : inputs.length ≤ 1) {j : Nat} (hi : i ∈ inputs)
    (hj : j ∈ inputs) : i = j := by
  match inputs, hlone with
  | [k], _ => exact (List.mem_singleton.mp hi).trans (List.mem_singleton.mp hj).symm

/-- One row set, of all that a copy could have touched. -/
theorem Touches.fares (h : Touches inputs outlets parts xs d xs') (hlone : inputs.length ≤ 1)
    (hrs : xs[i]? = some rs) :
    ∃ rs', xs'[i]? = some rs' ∧ Fares inputs outlets parts i rs d rs' := by
  cases h with
  | nothing => exact ⟨rs, hrs, .apart (by simp) (by simp) (by simp)⟩
  | took hi hx hbuffer =>
    refine fares_set hrs hx (fun hij => ?_) (by rintro rfl rfl; exact .took hi hbuffer)
    exact .apart (by simp) (by simp) fun hmem => absurd (eq_of_mem_lone hlone hmem hi) hij
  | accepted row layout hi hx hopen hstay =>
    refine fares_set hrs hx (fun hij => .apart (by simp [Ne.symm hij]) (by simp) (by simp)) ?_
    rintro rfl rfl
    exact .accepted row layout hi hopen hstay
  | @discarded j x row hi hx hopen hleft =>
    have hset : xs.set j x = xs := by
      obtain ⟨hlt, rfl⟩ := List.getElem?_eq_some_iff.mp hx
      simp
    rw [← hset]
    refine fares_set hrs hx (fun hij => .apart (by simp [Ne.symm hij]) (by simp) (by simp)) ?_
    rintro rfl rfl
    exact .discarded row hi hopen hleft
  | refused j row f => exact ⟨rs, hrs, .apart (by simp) (by simp) (by simp)⟩
  | ended hi hx =>
    refine fares_set hrs hx (fun hij => .apart (by simp) (by simp [Ne.symm hij]) (by simp)) ?_
    rintro rfl rfl
    exact .ended hi
  | left hi hx hparts =>
    refine fares_set hrs hx (fun hij => .apart (by simp) (by simp) (by simp)) ?_
    rintro rfl rfl
    exact .left hi hparts

namespace Fares

variable (h : Fares inputs outlets parts i rs d rs')
include h

theorem name : rs'.name = rs.name := by
  cases h <;> rfl

theorem closed_iff : rs'.closed = true ↔ rs.closed = true ∨ d = some (.ended i) := by
  cases h with
  | apart _ hended _ => simp [hended]
  | ended _ => simp
  | _ => simp [RowSet.detach]

theorem ended_mem (hd : d = some (.ended i)) : i ∈ outlets := by
  cases h with
  | apart _ hended _ => exact absurd hd hended
  | ended hi => exact hi
  | _ => cases hd

theorem open_of_put {row : Row} (hd : d = some (.put i row)) : rs.closed = false := by
  cases h with
  | apart hput _ _ => exact absurd hd (hput row)
  | accepted _ _ _ hopen _ => exact hopen
  | discarded _ _ hopen _ => exact hopen
  | _ => cases hd

theorem parts_of_detached (hstay : rs.detached = false) (hleft : rs'.detached = true) :
    i ∈ inputs ∧ parts := by
  cases h with
  | left hi hparts => exact ⟨hi, hparts⟩
  | _ => simp [hstay] at hleft

end Fares

end Fares

end Program

section Books

variable (w : Wires) (log : Nat → List Trade) (xs : List RowSet)

namespace Wires

structure Books : Prop where
  found : ∀ {a i}, i ∈ w.outlets a → Program.Known w.names xs (log a) i
  queue : ∀ {a b i rs}, i ∈ w.outlets a → i ∈ w.inputs b → xs[i]? = some rs →
    ∃ lost, rowsPut [i] (log a) = rowsTaken (log b) ++ (rs.buffer ++ lost) ∧
      (rs.detached = false → lost = [])
  elsewhere : ∀ {a i}, i ∉ w.outlets a → rowsPut [i] (log a) = []
  sources : ∀ {b}, w.inputs b = [] → rowsTaken (log b) = []

def Feeds (b : Nat) (rows : List Row) : Prop :=
  ∀ {a i rs}, i ∈ w.outlets a → i ∈ w.inputs b → xs[i]? = some rs →
    rowsPut [i] (log a) <+: rows ∧ (rs.closed = true → rowsPut [i] (log a) = rows)

end Wires

end Books

namespace Wires

section Touch

variable {w : Wires} {log : Nat → List Trade} {xs xs' : List RowSet} {place : Nat}
  {d : Option Trade} {parts : Prop}

theorem ne_of_writes {a b i : Nat} (ha : i ∈ w.outlets a) (hb : i ∈ w.inputs b) : a ≠ b := by
  obtain ⟨a', hlt, ha'⟩ := w.source hb
  exact Nat.ne_of_lt (w.writer ha ha' ▸ hlt)

/-- The books on one row set, after an action. -/
theorem Books.queue_touch (h : w.Books log xs) {a b i : Nat} {rs rs' : RowSet}
    (ha : i ∈ w.outlets a) (hb : i ∈ w.inputs b) (hrs : xs[i]? = some rs)
    (hf : Program.Fares (w.inputs place) (w.outlets place) parts i rs d rs') :
    ∃ lost, rowsPut [i] (entered log place d a) =
        rowsTaken (entered log place d b) ++ (rs'.buffer ++ lost) ∧
      (rs'.detached = false → lost = []) := by
  obtain ⟨lost, hqueue, hlost⟩ := h.queue ha hb hrs
  have hne := ne_of_writes ha hb
  cases hf with
  | apart hput hended htook =>
    have htaken : rowsTaken (entered log place d b) = rowsTaken (log b) := by
      refine rowsTaken_entered ?_
      rintro rfl
      exact htook hb
    rw [rowsPut_entered fun _ => hput, htaken]
    exact ⟨lost, hqueue, hlost⟩
  | @took row rest hi hbuffer =>
    obtain rfl := w.reader hi hb
    rw [rowsPut_entered (by simp), entered_self, rowsTaken_append, hqueue, hbuffer]
    exact ⟨lost, by simp [rowsTaken, Trade.taken?], hlost⟩
  | accepted row layout hi hopen hstay =>
    obtain rfl := w.writer hi ha
    obtain rfl := hlost hstay
    rw [rowsTaken_entered (by simp), entered_self, rowsPut_append, hqueue]
    exact ⟨[], by simp [rowsPut, Trade.putOn?], fun _ => rfl⟩
  | discarded row hi hopen hleft =>
    -- The reader has left: the row is put and lost.
    obtain rfl := w.writer hi ha
    rw [rowsTaken_entered (by simp), entered_self, rowsPut_append, hqueue]
    exact ⟨lost ++ [row], by simp [rowsPut, Trade.putOn?], fun hstay => by simp [hleft] at hstay⟩
  | ended hi =>
    rw [rowsPut_entered (by simp), rowsTaken_entered (by simp)]
    exact ⟨lost, hqueue, hlost⟩
  | left hi hparts =>
    rw [rowsPut_entered (by simp), rowsTaken_entered (by simp)]
    exact ⟨rs.buffer ++ lost, by simpa using hqueue, fun hstay => by cases hstay⟩

theorem Books.touch (h : w.Books log xs)
    (ht : Program.Touches (w.inputs place) (w.outlets place) parts xs d xs') :
    w.Books (entered log place d) xs' := by
  constructor
  case found =>
    intro a i ha
    obtain ⟨rs, hrs, hname, hended⟩ := h.found ha
    obtain ⟨rs', hrs', hf⟩ := ht.fares (w.lone place) hrs
    refine ⟨rs', hrs', hf.name.trans hname, ?_⟩
    rw [hf.closed_iff, hended]
    by_cases hplace : a = place
    · subst hplace
      rw [entered_self, List.mem_append, Option.mem_toList]
    · rw [entered_of_ne hplace]
      exact or_iff_left fun hd => hplace (w.writer ha (hf.ended_mem hd))
  case queue =>
    intro a b i rs' ha hb hrs'
    obtain ⟨rs, hrs, -⟩ := h.found ha
    obtain ⟨rs'', hrs'', hf⟩ := ht.fares (w.lone place) hrs
    obtain rfl := Option.some.inj (hrs'.symm.trans hrs'')
    exact h.queue_touch ha hb hrs hf
  case elsewhere =>
    intro a i hi
    rw [rowsPut_entered, h.elsewhere hi]
    rintro rfl row rfl
    cases ht with
    | accepted _ _ hmem => exact hi hmem
    | discarded _ hmem => exact hi hmem
  case sources =>
    intro b hb
    rw [rowsTaken_entered, h.sources hb]
    rintro rfl row rfl
    cases ht with
    | took hmem =>
      rw [hb] at hmem
      cases hmem

/-- What may come to a copy in the end may come to it now. -/
theorem Feeds.before {b : Nat} {rows : List Row}
    (ht : Program.Touches (w.inputs place) (w.outlets place) parts xs d xs')
    (h : w.Feeds (entered log place d) xs' b rows) : w.Feeds log xs b rows := by
  intro a i rs ha hb hrs
  obtain ⟨rs', hrs', hf⟩ := ht.fares (w.lone place) hrs
  obtain ⟨hstart, hall⟩ := h ha hb hrs'
  have hgrows : rowsPut [i] (log a) <+: rowsPut [i] (entered log place d a) := by
    by_cases hplace : a = place
    · subst hplace
      rw [entered_self, rowsPut_append]
      exact List.prefix_append _ _
    · rw [entered_of_ne hplace]
  refine ⟨hgrows.trans hstart, fun hclosed => ?_⟩
  rw [← hall (hf.closed_iff.mpr (.inl hclosed)), rowsPut_entered]
  rintro - row hd
  rw [hf.open_of_put hd] at hclosed
  cases hclosed

end Touch

end Wires
end RowFlow
