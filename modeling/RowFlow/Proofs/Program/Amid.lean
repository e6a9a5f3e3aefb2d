import RowFlow.Proofs.Program.Effects

/-
A program of a copy amid what the others do.  Before each step of the copy the others may
have taken rows, left their inputs, stopped the run or done anything else; only to the row
sets that the copy alone writes to have they added no row (`Shared.Meanwhile`, and
`Goes.meanwhile` for what keeps to it).

What has happened by the end of the program is told twice.  What the copy has done, with what
it learnt, is a run of the program (`Amid.runs`); and each of these doings has found what is
shared in some state and left it in another (`Amid.passes`).  So what a program does is read
off its runs, and what comes of it off the states.
-/
namespace RowFlow

namespace RowSet

/-- What has become of a row set to which these rows were added. -/
structure Served (got : List Row) (s t : RowSet) : Prop where
  le : s ≤ t
  /-- The first row fixes the layout if it was not fixed yet. -/
  layout : t.layout = s.layout.or (got.head?.map (·.schema))
  /-- Rows leave at the head only. -/
  buffer : t.buffer <:+ s.buffer ++ got

variable {s t u : RowSet} {xs ys : List Row}

theorem Served.refl (s : RowSet) : s.Served [] s where
  le := le_refl s
  layout := (Option.or_none).symm
  buffer := by simp only [List.append_nil, List.suffix_refl]

theorem Served.trans (h : s.Served xs t) (h' : t.Served ys u) : s.Served (xs ++ ys) u where
  le := le_trans h.le h'.le
  layout := by rw [h'.layout, h.layout, Option.or_assoc, List.head?_append, Option.map_or]
  buffer := by
    obtain ⟨gone, hgone⟩ := h.buffer
    refine h'.buffer.trans ⟨gone, ?_⟩
    rw [← List.append_assoc, hgone, List.append_assoc]

theorem served_poll (s : RowSet) : s.Served [] s.poll.1 where
  le := s.le_poll
  layout := by
    show s.poll.1.layout = s.layout.or none
    rw [Option.or_none]
    unfold poll
    split <;> rfl
  buffer := by
    rw [List.append_nil]
    unfold poll
    split
    · next row rest hbuffer =>
      rw [hbuffer]
      exact List.suffix_cons row rest
    · exact List.suffix_refl _

theorem served_close (s : RowSet) : s.Served [] s.close.1 where
  le := s.le_close
  layout := by
    show s.close.1.layout = s.layout.or none
    rw [Option.or_none]
    unfold close
    split <;> rfl
  buffer := by
    rw [List.append_nil]
    unfold close
    split <;> exact List.suffix_refl _

theorem served_detach (s : RowSet) : s.Served [] s.detach where
  le := s.le_detach
  layout := (Option.or_none).symm
  buffer := List.nil_suffix

theorem served_offer {row : Row} (h : (s.offer row).2 = .ok .accepted) :
    s.Served [row] (s.offer row).1 := by
  have hle := s.le_offer row
  unfold offer at h hle ⊢
  split at h
  · cases h
  · split at h
    · cases h
    · split at h
      · cases h
      · split at h
        · cases h
        · simp_all only [Bool.not_eq_true, Bool.false_eq_true, if_false]
          exact ⟨hle, rfl, List.suffix_refl _⟩

end RowSet

namespace Shared

variable {os : List Nat} {s t u : Shared} {i : Nat} {rs rs' : RowSet}

/-- What the others may do meanwhile: they add nothing to these row sets. -/
structure Meanwhile (os : List Nat) (s t : Shared) : Prop where
  le : s ≤ t
  served : ∀ i ∈ os, ∀ rs, s.rowSets[i]? = some rs →
    ∃ rs', t.rowSets[i]? = some rs' ∧ rs.Served [] rs'

theorem Meanwhile.refl (os : List Nat) (s : Shared) : s.Meanwhile os s :=
  ⟨le_refl s, fun _ _ rs hrs => ⟨rs, hrs, .refl rs⟩⟩

theorem Meanwhile.trans (h : s.Meanwhile os t) (h' : t.Meanwhile os u) : s.Meanwhile os u := by
  refine ⟨le_trans h.le h'.le, fun i hi rs hrs => ?_⟩
  obtain ⟨rs₁, hrs₁, hs₁⟩ := h.served i hi rs hrs
  obtain ⟨rs₂, hrs₂, hs₂⟩ := h'.served i hi rs₁ hrs₁
  exact ⟨rs₂, hrs₂, hs₁.trans hs₂⟩

/-- One row set changes. -/
theorem meanwhile_set (hrs : s.rowSets[i]? = some rs) (hle : rs ≤ rs')
    (h : i ∈ os → rs.Served [] rs') :
    s.Meanwhile os { s with rowSets := s.rowSets.set i rs' } := by
  refine ⟨le_set hrs hle, fun j hj x hx => ?_⟩
  by_cases hij : i = j
  · subst hij
    obtain ⟨hlt, -⟩ := List.getElem?_eq_some_iff.mp hrs
    rw [hrs, Option.some.injEq] at hx
    subst hx
    exact ⟨rs', List.getElem?_set_self hlt, h hj⟩
  · exact ⟨x, by rw [List.getElem?_set_ne hij, hx], .refl x⟩

theorem meanwhile_control {c : Control} (h : s.control ≤ c) :
    s.Meanwhile os { s with control := c } :=
  ⟨le_control h, fun _ _ rs hrs => ⟨rs, hrs, .refl rs⟩⟩

theorem meanwhile_poll (s : Shared) (i : Nat) : s.Meanwhile os (s.poll i).1 := by
  unfold poll
  split
  · exact .refl os s
  · next rs hrs => exact meanwhile_set hrs rs.le_poll fun _ => rs.served_poll

theorem meanwhile_close (s : Shared) (i : Nat) : s.Meanwhile os (s.close i).1 := by
  unfold close
  split
  · exact .refl os s
  · next rs hrs => exact meanwhile_set hrs rs.le_close fun _ => rs.served_close

theorem meanwhile_detach (s : Shared) (i : Nat) : s.Meanwhile os (s.detach i) := by
  refine ⟨le_detach s i, fun j _ rs hrs => ?_⟩
  by_cases hij : i = j
  · subst hij
    exact ⟨rs.detach, by simp [detach, hrs], rs.served_detach⟩
  · exact ⟨rs, by simp [detach, hij, hrs], .refl rs⟩

/-- A row is added to a row set that is not one of these. -/
theorem meanwhile_offer (s : Shared) (row : Row) (hi : i ∉ os) :
    s.Meanwhile os (s.offer i row).1 := by
  unfold offer
  split
  · exact .refl os s
  · next rs hrs => exact meanwhile_set hrs (rs.le_offer row) fun h => absurd h hi

/-- No action of a copy but a delivery adds a row. -/
theorem meanwhile_perform {a : Action} {x : a.Answer} {l l' : Local}
    (h : a.perform l s = (some x, l', t)) : s.Meanwhile os t := by
  cases a with
  | close i =>
    cases h
    exact s.meanwhile_close i
  | detach i =>
    cases h
    exact s.meanwhile_detach i
  | countErrors n =>
    cases h
    exact meanwhile_control (s.control.le_countErrors n)
  | countSourceRows n =>
    cases h
    exact meanwhile_control (s.control.le_countSourceRows n)
  | giveReason r =>
    cases h
    exact meanwhile_control (s.control.le_giveReason r)
  | raiseFlag =>
    cases h
    exact meanwhile_control s.control.le_raiseFlag
  | note n =>
    cases h
    exact ⟨⟨rfl, fun _ rs hrs => ⟨rs, hrs, le_refl rs⟩, le_refl _⟩,
      fun _ _ rs hrs => ⟨rs, hrs, .refl rs⟩⟩
  | hold =>
    simp only [Action.perform, Prod.mk.injEq] at h
    obtain ⟨-, -, rfl⟩ := h
    exact .refl os s
  | _ =>
    cases h
    exact .refl os s

inductive Answers (s : Shared) (i : Nat) (row : Row) : Except Fault Delivery → Shared → Prop
  | accepted (h : (s.offer i row).2 = .ok .accepted) :
      Answers s i row (.ok .accepted) (s.offer i row).1
  | discarded (h : (s.offer i row).2 = .ok .discarded) : Answers s i row (.ok .discarded) s
  | refused {f : Fault} (h : (s.offer i row).2 = .error f) : Answers s i row (.error f) s
  | dropped (h : s.control.stopped = true) : Answers s i row (.ok .dropped) s

end Shared

/-- A row that was sent, where to, and what came of it. -/
structure Sending where
  rowSet : Nat
  row : Row
  result : Except Fault Delivery

/-- The row, if this row set has received it. -/
def Sending.accepted? (i : Nat) : Sending → Option Row
  | ⟨j, row, .ok .accepted⟩ => if j = i then some row else none
  | _ => none

namespace Doing

def sending? : Doing → Option Sending
  | delivered i row r => some ⟨i, row, r⟩
  | _ => none

def sendings (ds : List Doing) : List Sending := ds.filterMap sending?

def received (i : Nat) (ds : List Doing) : List Row := (sendings ds).filterMap (Sending.accepted? i)

def look? : Doing → Option Bool
  | act .isStopped up => some up
  | _ => none

def looks (ds : List Doing) : List Bool := ds.filterMap look?

def told (k : Total) (ds : List Doing) : Nat := (ds.map (amount k)).sum

@[simp] theorem sendings_nil : sendings [] = [] := rfl

@[simp] theorem sendings_append (ds es : List Doing) :
    sendings (ds ++ es) = sendings ds ++ sendings es := List.filterMap_append

@[simp] theorem sendings_act (a : Action) (x : a.Answer) (ds : List Doing) :
    sendings (act a x :: ds) = sendings ds := rfl

@[simp] theorem sendings_delivered (i : Nat) (row : Row) (r : Except Fault Delivery)
    (ds : List Doing) : sendings (delivered i row r :: ds) = ⟨i, row, r⟩ :: sendings ds := rfl

theorem received_append (i : Nat) (ds es : List Doing) :
    received i (ds ++ es) = received i ds ++ received i es := by
  rw [received, sendings_append, List.filterMap_append]
  rfl

theorem received_cons (i : Nat) (d : Doing) (ds : List Doing) :
    received i (d :: ds) = received i [d] ++ received i ds := received_append i [d] ds

theorem mem_sendings {ds : List Doing} {x : Sending} :
    x ∈ sendings ds ↔ delivered x.rowSet x.row x.result ∈ ds := by
  rw [sendings, List.mem_filterMap]
  constructor
  · rintro ⟨d, hd, hx⟩
    cases d <;> cases hx
    exact hd
  · exact fun h => ⟨_, h, rfl⟩

@[simp] theorem looks_nil : looks [] = [] := rfl

@[simp] theorem looks_append (ds es : List Doing) : looks (ds ++ es) = looks ds ++ looks es :=
  List.filterMap_append

@[simp] theorem looks_cons (d : Doing) (ds : List Doing) :
    looks (d :: ds) = d.look?.toList ++ looks ds := by
  cases h : d.look? <;> simp [looks, h]

theorem mem_looks {ds : List Doing} {up : Bool} : up ∈ looks ds ↔ act .isStopped up ∈ ds := by
  rw [looks, List.mem_filterMap]
  constructor
  · rintro ⟨d, hd, hup⟩
    cases d with
    | act a x =>
      cases a with
      | isStopped =>
        cases hup
        exact hd
      | _ => cases hup
    | _ => cases hup
  · exact fun h => ⟨_, h, rfl⟩

@[simp] theorem told_nil (k : Total) : told k [] = 0 := rfl

@[simp] theorem told_cons (k : Total) (d : Doing) (ds : List Doing) :
    told k (d :: ds) = d.amount k + told k ds := by
  rw [told, List.map_cons, List.sum_cons]
  rfl

@[simp] theorem told_append (k : Total) (ds es : List Doing) :
    told k (ds ++ es) = told k ds + told k es := by
  rw [told, List.map_append, List.sum_append]
  rfl

/-- In which state a doing finds what is shared, and in which it leaves it. -/
inductive Finds : Doing → Shared → Shared → Prop
  | act {a : Action} {x : a.Answer} {l l' : Local} {s t : Shared}
      (h : a.perform l s = (some x, l', t)) : Finds (.act a x) s t
  | dry (s : Shared) : Finds .dry s s
  | took {i : Nat} {row : Row} {s : Shared} (h : (s.poll i).2 = .row row) :
      Finds (.took row) s (s.poll i).1
  | delivered {i : Nat} {row : Row} {r : Except Fault Delivery} {s t : Shared}
      (h : s.Answers i row r t) : Finds (.delivered i row r) s t

namespace Finds

variable {d : Doing} {s t : Shared} {i : Nat} {rs : RowSet}

theorem le (h : d.Finds s t) : s ≤ t := by
  cases h with
  | act h =>
    have hmeanwhile : s.Meanwhile [] t := Shared.meanwhile_perform h
    exact hmeanwhile.le
  | dry => exact le_refl s
  | took h => exact s.le_poll _
  | delivered h =>
    cases h with
    | accepted h => exact s.le_offer _ _
    | _ => exact le_refl s

theorem served_of_meanwhile {os : List Nat} (h : s.Meanwhile os t) (hi : i ∈ os)
    (hrs : s.rowSets[i]? = some rs) (hd : received i [d] = []) :
    ∃ rs', t.rowSets[i]? = some rs' ∧ rs.Served (received i [d]) rs' := by
  rw [hd]
  exact h.served i hi rs hrs

/-- Only a row that was accepted is added to a row set. -/
theorem served (h : d.Finds s t) (hrs : s.rowSets[i]? = some rs) :
    ∃ rs', t.rowSets[i]? = some rs' ∧ rs.Served (received i [d]) rs' := by
  have hi : i ∈ [i] := List.mem_singleton_self i
  cases h with
  | act h => exact served_of_meanwhile (Shared.meanwhile_perform h) hi hrs rfl
  | dry => exact served_of_meanwhile (.refl [i] s) hi hrs rfl
  | took h => exact served_of_meanwhile (s.meanwhile_poll _) hi hrs rfl
  | @delivered j row r s t h =>
    cases h with
    | accepted h =>
      by_cases hij : j = i
      · subst hij
        have hgot : received j [.delivered j row (.ok .accepted)] = [row] := by
          simp [received, Sending.accepted?]
        rw [hgot]
        rw [Shared.offer_answer hrs] at h
        simp only [Shared.offer, hrs]
        obtain ⟨hlt, -⟩ := List.getElem?_eq_some_iff.mp hrs
        exact ⟨(rs.offer row).1, List.getElem?_set_self hlt, RowSet.served_offer h⟩
      · have hnone : received i [.delivered j row (.ok .accepted)] = [] := by
          simp [received, Sending.accepted?, hij]
        have hother : j ∉ [i] := fun hmem => hij (List.mem_singleton.mp hmem)
        exact served_of_meanwhile (s.meanwhile_offer row hother) hi hrs hnone
    | discarded h => exact served_of_meanwhile (.refl [i] s) hi hrs rfl
    | refused h => exact served_of_meanwhile (.refl [i] s) hi hrs rfl
    | dropped h => exact served_of_meanwhile (.refl [i] s) hi hrs rfl

/-- The answer of a look at the flag is whether it was up. -/
theorem stopped {b : Bool} (h : (Doing.act .isStopped b).Finds s t) : s.control.stopped = b := by
  cases h with
  | act h => exact Option.some.inj (congrArg Prod.fst h)

theorem delivered_iff {row : Row} {r : Except Fault Delivery} :
    (Doing.delivered i row r).Finds s t ↔ s.Answers i row r t :=
  ⟨fun h => by cases h with | delivered h => exact h, .delivered⟩

end Finds
end Doing

/-- Something that a copy has done, with the state in which it found what is shared. -/
structure Happening where
  found : Shared
  doing : Doing

def Happening.doings (hs : List Happening) : List Doing := hs.map (·.doing)

namespace Shared

variable {os : List Nat} {s t u : Shared} {hs hs' : List Happening} {x : Happening}

/-- What is shared while one thing happens after the other, and others do theirs in between. -/
inductive Passes (os : List Nat) : Shared → List Happening → Shared → Prop
  | nil {s t : Shared} (h : s.Meanwhile os t) : Passes os s [] t
  | cons {s t u : Shared} {x : Happening} {hs : List Happening} (h : s.Meanwhile os x.found)
      (hf : x.doing.Finds x.found t) (hr : Passes os t hs u) : Passes os s (x :: hs) u

namespace Passes

theorem before (h : s.Meanwhile os t) (hr : t.Passes os hs u) : s.Passes os hs u := by
  cases hr with
  | nil h' => exact .nil (h.trans h')
  | cons h' hf hr => exact .cons (h.trans h') hf hr

theorem append (h : s.Passes os (hs ++ hs') u) : ∃ t, s.Passes os hs t ∧ t.Passes os hs' u := by
  induction hs generalizing s with
  | nil => exact ⟨s, .nil (.refl os s), h⟩
  | cons x hs ih =>
    cases h with
    | cons h hf hr =>
      obtain ⟨t, hs, ht⟩ := ih hr
      exact ⟨t, .cons h hf hs, ht⟩

theorem chain (h : s.Passes os hs t) (h' : t.Passes os hs' u) : s.Passes os (hs ++ hs') u := by
  induction h with
  | nil h => exact before h h'
  | cons h hf _ ih => exact .cons h hf (ih h')

theorem le (h : s.Passes os hs t) : s ≤ t := by
  induction h with
  | nil h => exact h.le
  | cons h hf _ ih => exact le_trans (le_trans h.le hf.le) ih

/-- Whatever happens has found a later state, and left a later one. -/
theorem finds (h : s.Passes os hs u) (hx : x ∈ hs) :
    ∃ t, s ≤ x.found ∧ x.doing.Finds x.found t ∧ t ≤ u := by
  induction h with
  | nil h => cases hx
  | @cons s t u y hs h hf hr ih =>
    rcases List.mem_cons.mp hx with rfl | hx
    · exact ⟨t, h.le, hf, hr.le⟩
    · obtain ⟨v, hle, hfinds, hlast⟩ := ih hx
      exact ⟨v, le_trans (le_trans h.le hf.le) hle, hfinds, hlast⟩

/-- To a row set that no one else writes to only the rows are added that it has received. -/
theorem served (h : s.Passes os hs t) {i : Nat} (hi : i ∈ os) {rs : RowSet}
    (hrs : s.rowSets[i]? = some rs) :
    ∃ rs', t.rowSets[i]? = some rs' ∧ rs.Served (Doing.received i (Happening.doings hs)) rs' := by
  induction h generalizing rs with
  | nil h => exact h.served i hi rs hrs
  | @cons s t u x hs h hf _ ih =>
    obtain ⟨rs₁, hrs₁, hs₁⟩ := h.served i hi rs hrs
    obtain ⟨rs₂, hrs₂, hs₂⟩ := hf.served hrs₁
    obtain ⟨rs₃, hrs₃, hs₃⟩ := ih hrs₂
    rw [Happening.doings, List.map_cons, Doing.received_cons]
    exact ⟨rs₃, hrs₃, hs₁.trans (hs₂.trans hs₃)⟩

/-- If one row only was sent, the row set that was asked had received nothing before. -/
theorem sole (h : s.Passes os hs u) {y : Sending}
    (hone : Doing.sendings (Happening.doings hs) = [y]) (hi : y.rowSet ∈ os) {rs : RowSet}
    (hrs : s.rowSets[y.rowSet]? = some rs) :
    ∃ x ∈ hs, x.doing = .delivered y.rowSet y.row y.result ∧ ∃ rs₁ t,
      x.found.rowSets[y.rowSet]? = some rs₁ ∧ rs.Served [] rs₁ ∧
      x.found.Answers y.rowSet y.row y.result t ∧
      ∀ rs', u.rowSets[y.rowSet]? = some rs' → rs₁ ≤ rs' := by
  have hmem : y ∈ Doing.sendings (Happening.doings hs) := hone ▸ List.mem_singleton_self y
  obtain ⟨x, hx, hd⟩ := List.mem_map.mp (Doing.mem_sendings.mp hmem)
  -- nothing was sent before, and so the row set has only seen what the others do
  obtain ⟨before, after, rfl⟩ := List.append_of_mem hx
  have hnone : Doing.sendings (Happening.doings before) = [] := by
    rw [Happening.doings, List.map_append, List.map_cons, hd, Doing.sendings_append,
      Doing.sendings_delivered] at hone
    have hlength := congrArg List.length hone
    simp only [List.length_append, List.length_cons, List.length_nil] at hlength
    exact List.length_eq_zero_iff.mp (by rw [Happening.doings]; omega)
  obtain ⟨t₁, hbefore, hafter⟩ := h.append
  obtain ⟨rs₀, hrs₀, hs₀⟩ := hbefore.served hi hrs
  rw [Doing.received, hnone] at hs₀
  cases hafter with
  | cons hm hf hr =>
    obtain ⟨rs₁, hrs₁, hs₁⟩ := hm.served _ hi _ hrs₀
    rw [hd] at hf
    refine ⟨x, hx, hd, rs₁, _, hrs₁, hs₀.trans hs₁, Doing.Finds.delivered_iff.mp hf, ?_⟩
    intro rs' hrs'
    have hle := Shared.Le.rowSet (le_trans hf.le hr.le) _ _ hrs₁
    obtain ⟨rs₂, hrs₂, hle⟩ := hle
    rw [hrs', Option.some.injEq] at hrs₂
    rwa [hrs₂]

end Passes
end Shared

namespace Program

variable {α : Type} {os : List Nat} {p p' : Program α} {l l' m : Local} {s s' t : Shared}
  {hs : List Happening} {v : α}

/-- What others do keeps to this as long as they deliver nothing to these row sets. -/
theorem Goes.meanwhile {d : Option Doing} {deed : Option Deed} (h : p.Goes l s d deed p' l' s')
    (hgive : ∀ i ∈ os, ∀ row, deed ≠ some (.give i row)) : s.Meanwhile os s' := by
  cases h with
  | act h => exact Shared.meanwhile_perform h
  | took h hi hrow => exact s.meanwhile_poll _
  | gave h => exact s.meanwhile_offer _ fun hi => hgive _ hi _ rfl
  | _ => exact .refl os s

/-- The program, begun by a copy at `l`, has come to `v` by its own steps, between which the
others do theirs and may cancel the work of the copy. -/
inductive Amid (os : List Nat) :
    Program α → Local → Shared → List Happening → α → Local → Shared → Prop
  | done (a : α) (l : Local) {s t : Shared} (b : Bool) (h : s.Meanwhile os t) :
      Amid os (.done a) l s [] a (l.withCancelled b) t
  | step {p : Program α} {l m : Local} {s s₁ t : Shared} {hs : List Happening} {v : α} (b : Bool)
      (h : s.Meanwhile os s₁)
      (hr : Amid os (p.step (l.withCancelled b) s₁).1 (p.step (l.withCancelled b) s₁).2.1
        (p.step (l.withCancelled b) s₁).2.2 hs v m t) :
      Amid os p l s ((p.doing? (l.withCancelled b) s₁).toList.map (Happening.mk s₁) ++ hs) v m t

/-- What a step does says in which states it found and left what is shared. -/
theorem finds_step (p : Program α) (l : Local) (s : Shared) {d : Doing}
    (h : p.doing? l s = some d) : d.Finds s (p.step l s).2.2 := by
  have hgoes := p.goes_step l s
  rw [h] at hgoes
  cases p with
  | done a => cases h
  | act a next =>
    generalize (act a next).step l s = q, (act a next).deed? l s = deed at hgoes
    obtain ⟨p', l', s'⟩ := q
    cases hgoes with
    | act h => exact .act h
  | receive scan next =>
    generalize (receive scan next).step l s = q, (receive scan next).deed? l s = deed at hgoes
    obtain ⟨p', l', s'⟩ := q
    cases hgoes with
    | dry pending cursor => exact .dry _
    | took _ _ hrow => exact .took hrow
  | deliver i row refused next =>
    cases refused with
    | true =>
      simp only [doing?] at h
      simp only [step]
      split at h
      · next hstopped =>
        cases h
        rw [if_pos hstopped]
        exact .delivered (.dropped hstopped)
      · cases h
    | false =>
      -- all that may come of the offer is said before its answer is taken apart
      have hsame := @Shared.offer_of_ne_accepted s i row
      have haccepted := @Shared.Answers.accepted s i row
      have hdiscarded := @Shared.Answers.discarded s i row
      have hrefused := @Shared.Answers.refused s i row
      simp only [doing?] at h
      simp only [step]
      revert h hsame haccepted hdiscarded hrefused
      rcases s.offer i row with ⟨t, f | accepted | discarded | back⟩
      all_goals
        intro h hsame haccepted hdiscarded hrefused
        cases h
      · cases hsame (by simp)
        exact .delivered (hrefused rfl)
      · exact .delivered (haccepted rfl)
      · cases hsame (by simp)
        exact .delivered (hdiscarded rfl)

namespace Amid

theorem before (hm : s.Meanwhile os s') (h : p.Amid os l s' hs v m t) : p.Amid os l s hs v m t := by
  cases h with
  | done _ _ b h => exact .done _ _ b (hm.trans h)
  | step b h hr => exact .step b (hm.trans h) hr

theorem runs (h : p.Amid os l s hs v m t) : p.Runs l (Happening.doings hs) v m := by
  induction h with
  | done a l b h => exact .done a l b
  | @step p l m s s₁ t hs v b h _ ih =>
    have hruns := (p.goes_step (l.withCancelled b) s₁).runs (p.honest_doing? _ s₁) ih
    rw [Happening.doings, List.map_append, List.map_map]
    have hdoings : List.map ((fun x : Happening => x.doing) ∘ Happening.mk s₁)
        (p.doing? (l.withCancelled b) s₁).toList = (p.doing? (l.withCancelled b) s₁).toList :=
      List.map_id _
    rw [hdoings]
    exact hruns.before

theorem passes (h : p.Amid os l s hs v m t) : s.Passes os hs t := by
  induction h with
  | done a l b h => exact .nil h
  | @step p l m s s₁ t hs v b h _ ih =>
    cases hd : p.doing? (l.withCancelled b) s₁ with
    | none =>
      -- a step of which nothing is told leaves what is shared as it is
      have hgoes := p.goes_step (l.withCancelled b) s₁
      rw [hd] at hgoes
      rw [(hgoes.rests).2.2] at ih
      exact .before h ih
    | some d => exact .cons h (finds_step p _ s₁ hd) ih

end Amid

/-- The first steps of a program while nobody else does anything. -/
def unaided (p : Program α) : Nat → Local → Shared → List Happening × Program α × Local × Shared
  | 0, l, s => ([], p, l, s)
  | n + 1, l, s =>
    let rest := (p.step l s).1.unaided n (p.step l s).2.1 (p.step l s).2.2
    ((p.doing? l s).toList.map (Happening.mk s) ++ rest.1, rest.2)

/-- What a program does unaided, before others do something, it also does amid them. -/
theorem Amid.unaided {n : Nat}
    (h : (p.unaided n l s).2.1.Amid os (p.unaided n l s).2.2.1 (p.unaided n l s).2.2.2 hs v m t) :
    p.Amid os l s ((p.unaided n l s).1 ++ hs) v m t := by
  induction n generalizing p l s with
  | zero => exact h
  | succ n ih =>
    rw [Program.unaided, List.append_assoc]
    exact .step l.cancelled (.refl os s) (ih h)

/-- A program can come to its end unaided. -/
theorem amid_unaided (os : List Nat) {n : Nat} (h : (p.unaided n l s).2.1.value? = some v) :
    p.Amid os l s (p.unaided n l s).1 v (p.unaided n l s).2.2.1 (p.unaided n l s).2.2.2 := by
  rw [← List.append_nil (p.unaided n l s).1]
  refine Amid.unaided ?_
  generalize (p.unaided n l s).2.1 = q at h
  cases q with
  | done a =>
    cases h
    exact .done _ _ _ (.refl os _)
  | _ => cases h

end Program
end RowFlow
