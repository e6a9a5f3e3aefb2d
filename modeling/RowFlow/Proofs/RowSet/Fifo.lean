import RowFlow.Proofs.Growth
import RowFlow.RowSet.Call

/-
A row set is a bounded queue that loses nothing.  A passage is a row set together with
the rows that went in, the rows that came out, and the rows that were thrown away when
the consumer left.  What one call can do to a passage is said once, in `Effect`; what
holds after any calls, in whatever order producer and consumer make them, follows by
induction on the calls.
-/
namespace RowFlow
namespace RowSet

/-- The row that is in the row set from now on.  A put is answered alike when its row is
discarded, so it also matters whether the consumer is still there. -/
def Call.accepted (s : RowSet) : Call → Reply → List Row
  | .offer row _, .offered (.ok .accepted) => [row]
  | .put row, .finished (.ok ()) => if s.detached then [] else [row]
  | _, _ => []

/-- The row that the consumer has from now on. -/
def Reply.delivered : Reply → List Row
  | .polled (.row row) => [row]
  | .got (some row) => [row]
  | _ => []

/-- The rows that a call throws away. -/
def Call.dropped (s : RowSet) : Call → List Row
  | .detach => s.buffer
  | _ => []

structure Passage where
  rowSet : RowSet
  accepted : List Row := []
  delivered : List Row := []
  dropped : List Row := []

namespace Passage

def new (name : String) (capacity : Nat) : Passage := { rowSet := .new name capacity }

def step (p : Passage) (c : Call) : Passage where
  rowSet := (p.rowSet.ask c).1
  accepted := p.accepted ++ c.accepted p.rowSet (p.rowSet.ask c).2
  delivered := p.delivered ++ (p.rowSet.ask c).2.delivered
  dropped := p.dropped ++ c.dropped p.rowSet

def after (p : Passage) (calls : List Call) : Passage := calls.foldl step p

@[simp] theorem after_nil (p : Passage) : p.after [] = p := rfl

@[simp] theorem after_cons (p : Passage) (c : Call) (calls : List Call) :
    p.after (c :: calls) = (p.step c).after calls := rfl

inductive Effect (p : Passage) : Call → Passage → Prop where
  | nothing {c : Call} (hclose : c = .close → p.rowSet.closed = true) (hdetach : c ≠ .detach) :
      Effect p c p
  | accept {c : Call} (row : Row) (layout : Option Schema) (hc : c ≠ .close ∧ c ≠ .detach)
      (hclosed : p.rowSet.closed = false) (hdetached : p.rowSet.detached = false)
      (hroom : p.rowSet.buffer.length < p.rowSet.capacity) :
      Effect p c { p with
        rowSet := { p.rowSet with buffer := p.rowSet.buffer ++ [row], layout := layout }
        accepted := p.accepted ++ [row] }
  | deliver {c : Call} (row : Row) (rest : List Row) (hc : c ≠ .close ∧ c ≠ .detach)
      (hbuffer : p.rowSet.buffer = row :: rest) :
      Effect p c { p with
        rowSet := { p.rowSet with buffer := rest }
        delivered := p.delivered ++ [row] }
  | close : Effect p .close { p with rowSet := { p.rowSet with closed := true } }
  | detach : Effect p .detach { p with
      rowSet := p.rowSet.detach
      dropped := p.dropped ++ p.rowSet.buffer }

end Passage

/-- An offer is refused, discarded, handed back or accepted, and only the last of these
changes the row set. -/
theorem offer_cases (s : RowSet) (row : Row) :
    (∃ f, s.offer row = (s, .error f)) ∨
      s.detached = true ∧ s.offer row = (s, .ok .discarded) ∨
      s.offer row = (s, .ok (.full row)) ∨
      (s.closed = false ∧ s.detached = false ∧ s.buffer.length < s.capacity) ∧
        ∃ layout, s.offer row =
          ({ s with buffer := s.buffer ++ [row], layout := layout }, .ok .accepted) := by
  unfold offer
  by_cases hclosed : s.closed = true
  · simp [hclosed]
  by_cases hdetached : s.detached = true
  · simp [hclosed, hdetached]
  by_cases hfull : s.isFull = true
  · simp [hclosed, hdetached, hfull]
  have hroom : s.buffer.length < s.capacity := by
    simpa [isFull] using hfull
  cases hlayout : s.refusal? row.schema with
  | some difference => simp [hclosed, hdetached, hfull]
  | none => simp [hclosed, hdetached, hfull, hroom]

theorem detached_of_discarded {s : RowSet} {row : Row} (h : (s.offer row).2 = .ok .discarded) :
    s.detached = true := by
  rcases s.offer_cases row with ⟨f, ho⟩ | ⟨hdetached, ho⟩ | ho | ⟨-, layout, ho⟩
  · simp [ho] at h
  · exact hdetached
  · simp [ho] at h
  · simp [ho] at h

/-- An open row set that has its consumer refuses a row for its layout only. -/
theorem refusal_of_error {s : RowSet} {row : Row} {f : Fault} (hclosed : s.closed = false)
    (h : (s.offer row).2 = .error f) : s.detached = false ∧ ∃ difference,
      s.refusal? row.schema = some difference ∧ f = .incompatible s.name difference.text := by
  unfold offer at h
  rw [hclosed, if_neg (by decide)] at h
  split at h
  · cases h
  · next hattached =>
    split at h
    · cases h
    · split at h
      · next difference hdifference =>
        cases h
        exact ⟨Bool.eq_false_iff.mpr hattached, difference, hdifference, rfl⟩
      · cases h

theorem poll_of_closed_nil {s : RowSet} (hclosed : s.closed = true) (hbuffer : s.buffer = []) :
    s.poll = (s, .done) := by
  rw [poll_nil hbuffer, if_pos hclosed]

theorem poll_cons {s : RowSet} {row : Row} {rest : List Row} (hbuffer : s.buffer = row :: rest) :
    s.poll = ({ s with buffer := rest }, .row row) := by
  simp [poll, hbuffer]

/-- The end of the stream is found when it has been posted and no row is left. -/
theorem poll_eq_done_iff (s : RowSet) : s.poll.2 = .done ↔ s.closed = true ∧ s.buffer = [] := by
  constructor
  · intro h
    have hdone := isDone_of_poll h
    rwa [isDone, Bool.and_eq_true, List.isEmpty_iff] at hdone
  · rintro ⟨hclosed, hbuffer⟩
    rw [poll_of_closed_nil hclosed hbuffer]

/-- While the consumer is away an offer to an open row set is discarded. -/
theorem offer_of_detached {s : RowSet} (hclosed : s.closed = false) (hdetached : s.detached = true)
    (row : Row) : s.offer row = (s, .ok .discarded) := by
  simp [offer, hclosed, hdetached]

theorem close_of_closed {s : RowSet} (hclosed : s.closed = true) :
    s.close = (s, .error (.rowSetClosed s.name)) := by
  simp [close, hclosed]

namespace Passage

variable {p : Passage} {c : Call}

theorem dropped_of_ne_detach (hc : c ≠ .detach) (s : RowSet) : c.dropped s = [] := by
  cases c with
  | detach => exact absurd rfl hc
  | _ => rfl

theorem step_eq_self {r : Reply} (h : p.rowSet.ask c = (p.rowSet, r))
    (haccepted : c.accepted p.rowSet r = []) (hdelivered : r.delivered = [])
    (hc : c ≠ .detach) : p.step c = p := by
  simp [step, h, haccepted, hdelivered, dropped_of_ne_detach hc]

theorem effect_of_unchanged {r : Reply} (h : p.rowSet.ask c = (p.rowSet, r))
    (haccepted : c.accepted p.rowSet r = []) (hdelivered : r.delivered = [])
    (hclose : c = .close → p.rowSet.closed = true) (hc : c ≠ .detach) :
    p.Effect c (p.step c) := by
  rw [step_eq_self h haccepted hdelivered hc]
  exact .nothing hclose hc

theorem effect_of_accepted {r : Reply} {row : Row} {layout : Option Schema}
    (h : p.rowSet.ask c =
      ({ p.rowSet with buffer := p.rowSet.buffer ++ [row], layout := layout }, r))
    (haccepted : c.accepted p.rowSet r = [row]) (hdelivered : r.delivered = [])
    (hc : c ≠ .close ∧ c ≠ .detach) (hopen : p.rowSet.closed = false ∧
      p.rowSet.detached = false ∧ p.rowSet.buffer.length < p.rowSet.capacity) :
    p.Effect c (p.step c) := by
  have hstep : p.step c = { p with
      rowSet := { p.rowSet with buffer := p.rowSet.buffer ++ [row], layout := layout }
      accepted := p.accepted ++ [row] } := by
    simp [step, h, haccepted, hdelivered, dropped_of_ne_detach hc.2]
  rw [hstep]
  exact .accept row layout hc hopen.1 hopen.2.1 hopen.2.2

theorem effect_of_delivered {r : Reply} {row : Row} {rest : List Row}
    (h : p.rowSet.ask c = ({ p.rowSet with buffer := rest }, r))
    (hbuffer : p.rowSet.buffer = row :: rest) (haccepted : c.accepted p.rowSet r = [])
    (hdelivered : r.delivered = [row]) (hc : c ≠ .close ∧ c ≠ .detach) :
    p.Effect c (p.step c) := by
  have hstep : p.step c = { p with
      rowSet := { p.rowSet with buffer := rest }
      delivered := p.delivered ++ [row] } := by
    simp [step, h, haccepted, hdelivered, dropped_of_ne_detach hc.2]
  rw [hstep]
  exact .deliver row rest hc hbuffer

theorem effect_offer (p : Passage) (row : Row) (time : Nat) :
    p.Effect (.offer row time) (p.step (.offer row time)) := by
  have hask : p.rowSet.ask (.offer row time) =
      ((p.rowSet.offer row).1, .offered (p.rowSet.offer row).2) := rfl
  rcases p.rowSet.offer_cases row with ⟨f, h⟩ | ⟨-, h⟩ | h | ⟨hopen, layout, h⟩
  · exact effect_of_unchanged (by rw [hask, h]) rfl rfl (by simp) (by simp)
  · exact effect_of_unchanged (by rw [hask, h]) rfl rfl (by simp) (by simp)
  · exact effect_of_unchanged (by rw [hask, h]) rfl rfl (by simp) (by simp)
  · exact effect_of_accepted (by rw [hask, h]) rfl rfl ⟨by simp, by simp⟩ hopen

/-- A put does what an offer does, and is not answered while an offer is handed back. -/
theorem effect_put (p : Passage) (row : Row) : p.Effect (.put row) (p.step (.put row)) := by
  rcases p.rowSet.offer_cases row with ⟨f, h⟩ | ⟨hdetached, h⟩ | h | ⟨hopen, layout, h⟩
  · have hask : p.rowSet.ask (.put row) = (p.rowSet, .finished (.error f)) := by
      simp only [ask, put, h]
    exact effect_of_unchanged hask rfl rfl (by simp) (by simp)
  · have hask : p.rowSet.ask (.put row) = (p.rowSet, .finished (.ok ())) := by
      simp only [ask, put, h]
    exact effect_of_unchanged hask (if_pos hdetached) rfl (by simp) (by simp)
  · have hask : p.rowSet.ask (.put row) = (p.rowSet, .waiting) := by
      simp only [ask, put, h]
    exact effect_of_unchanged hask rfl rfl (by simp) (by simp)
  · have hask : p.rowSet.ask (.put row) =
        ({ p.rowSet with buffer := p.rowSet.buffer ++ [row], layout := layout },
          .finished (.ok ())) := by
      simp only [ask, put, h]
    exact effect_of_accepted hask (if_neg (by simp [hopen.2.1])) rfl ⟨by simp, by simp⟩ hopen

theorem effect_poll (p : Passage) (time : Nat) : p.Effect (.poll time) (p.step (.poll time)) := by
  have hask : p.rowSet.ask (.poll time) = (p.rowSet.poll.1, .polled p.rowSet.poll.2) := rfl
  cases hbuffer : p.rowSet.buffer with
  | nil =>
    rw [poll_nil hbuffer] at hask
    refine effect_of_unchanged hask rfl ?_ (by simp) (by simp)
    by_cases hclosed : p.rowSet.closed = true
    · rw [if_pos hclosed]; rfl
    · rw [if_neg hclosed]; rfl
  | cons row rest =>
    rw [poll_cons hbuffer] at hask
    exact effect_of_delivered hask hbuffer rfl rfl ⟨by simp, by simp⟩

/-- A get does what a poll does, and is not answered while a poll finds nothing yet. -/
theorem effect_get (p : Passage) : p.Effect .get (p.step .get) := by
  cases hbuffer : p.rowSet.buffer with
  | nil =>
    by_cases hclosed : p.rowSet.closed = true
    · have hask : p.rowSet.ask .get = (p.rowSet, .got none) := by
        simp only [ask, get, poll_nil hbuffer, if_pos hclosed]
      exact effect_of_unchanged hask rfl rfl (by simp) (by simp)
    · have hask : p.rowSet.ask .get = (p.rowSet, .waiting) := by
        simp only [ask, get, poll_nil hbuffer, if_neg hclosed]
      exact effect_of_unchanged hask rfl rfl (by simp) (by simp)
  | cons row rest =>
    have hask : p.rowSet.ask .get = ({ p.rowSet with buffer := rest }, .got (some row)) := by
      simp only [ask, get, poll_cons hbuffer]
    exact effect_of_delivered hask hbuffer rfl rfl ⟨by simp, by simp⟩

/-- Every call has one of the effects. -/
theorem effect_step (p : Passage) (c : Call) : p.Effect c (p.step c) := by
  cases c with
  | offer row time => exact p.effect_offer row time
  | put row => exact p.effect_put row
  | poll time => exact p.effect_poll time
  | get => exact p.effect_get
  | close =>
    by_cases hclosed : p.rowSet.closed = true
    · have hask : p.rowSet.ask .close =
          (p.rowSet, .finished (.error (.rowSetClosed p.rowSet.name))) := by
        rw [ask, close_of_closed hclosed]
      exact effect_of_unchanged hask rfl rfl (fun _ => hclosed) (by simp)
    · have hstep : p.step .close = { p with rowSet := { p.rowSet with closed := true } } := by
        simp [step, ask, RowSet.close, hclosed, Call.accepted, Reply.delivered, Call.dropped]
      rw [hstep]
      exact .close
  | detach =>
    have hstep : p.step .detach = { p with
        rowSet := p.rowSet.detach
        dropped := p.dropped ++ p.rowSet.buffer } := by
      simp [step, ask, Call.accepted, Reply.delivered, Call.dropped]
    rw [hstep]
    exact .detach
  | layout => exact effect_of_unchanged rfl rfl rfl (by simp) (by simp)
  | refuse f => exact effect_of_unchanged rfl rfl rfl (by simp) (by simp)

structure Sound (capacity : Nat) (p : Passage) : Prop where
  capacity_eq : p.rowSet.capacity = max capacity 1
  bounded : p.rowSet.buffer.length ≤ max capacity 1
  conserved : p.accepted = p.delivered ++ p.dropped ++ p.rowSet.buffer
  /-- Nothing is thrown away as long as the consumer is there. -/
  attached : p.rowSet.detached = false → p.dropped = []
  detached : p.rowSet.detached = true → p.rowSet.buffer = []

theorem sound_new (name : String) (capacity : Nat) : Sound capacity (new name capacity) where
  capacity_eq := rfl
  bounded := Nat.zero_le _
  conserved := rfl
  attached _ := rfl
  detached _ := rfl

section Steps

variable {q : Passage} {capacity : Nat}

theorem Sound.of_effect (hp : Sound capacity p) (h : p.Effect c q) : Sound capacity q := by
  cases h with
  | nothing => exact hp
  | accept row layout hc hclosed hdetached hroom =>
    refine ⟨hp.capacity_eq, ?_, ?_, hp.attached, fun h => ?_⟩
    · have hcapacity := hp.capacity_eq
      simp only [List.length_append, List.length_singleton]
      omega
    · simp [hp.conserved]
    · exact absurd (hdetached.symm.trans h) (by simp)
  | deliver row rest hc hbuffer =>
    have hattached : p.rowSet.detached = false := by
      cases h : p.rowSet.detached with
      | false => rfl
      | true => exact absurd (hbuffer.symm.trans (hp.detached h)) (by simp)
    have hbounded := hp.bounded
    have hconserved := hp.conserved
    rw [hbuffer] at hbounded hconserved
    refine ⟨hp.capacity_eq, ?_, ?_, hp.attached, fun h => ?_⟩
    · exact Nat.le_of_succ_le hbounded
    · simp [hconserved, hp.attached hattached]
    · exact absurd (hattached.symm.trans h) (by simp)
  | close => exact ⟨hp.capacity_eq, hp.bounded, hp.conserved, hp.attached, hp.detached⟩
  | detach =>
    refine ⟨hp.capacity_eq, Nat.zero_le _, ?_, fun h => ?_, fun _ => rfl⟩
    · simp [hp.conserved]
    · exact absurd h (by simp [RowSet.detach])

/-- Only a close ends the stream, and nothing takes that back. -/
theorem closed_of_effect (h : p.Effect c q) :
    q.rowSet.closed = true ↔ p.rowSet.closed = true ∨ c = .close := by
  cases h with
  | nothing hclose => simp only [iff_self_or]; exact hclose
  | accept row layout hc => simp [hc.1]
  | deliver row rest hc => simp [hc.1]
  | close => simp
  | detach => simp [RowSet.detach]

/-- Only a detach makes the consumer leave, and it does not come back. -/
theorem detached_of_effect (h : p.Effect c q) :
    q.rowSet.detached = true ↔ p.rowSet.detached = true ∨ c = .detach := by
  cases h with
  | nothing _ hdetach => simp [hdetach]
  | accept row layout hc => simp [hc.2]
  | deliver row rest hc => simp [hc.2]
  | close => simp
  | detach => simp [RowSet.detach]

/-- A stream that is over stays so. -/
theorem over_of_effect (hp : p.rowSet.closed = true ∧ p.rowSet.buffer = []) (h : p.Effect c q) :
    q.rowSet.closed = true ∧ q.rowSet.buffer = [] := by
  cases h with
  | nothing => exact hp
  | accept row layout hc hclosed => exact absurd (hclosed.symm.trans hp.1) (by simp)
  | deliver row rest hc hbuffer => exact absurd (hbuffer.symm.trans hp.2) (by simp)
  | close => exact ⟨rfl, hp.2⟩
  | detach => exact ⟨hp.1, rfl⟩

end Steps

theorem Sound.after {capacity : Nat} (hp : Sound capacity p) (calls : List Call) :
    Sound capacity (p.after calls) := by
  induction calls generalizing p with
  | nil => exact hp
  | cons c calls ih => exact ih (hp.of_effect (p.effect_step c))

theorem closed_after (p : Passage) (calls : List Call) :
    (p.after calls).rowSet.closed = true ↔ p.rowSet.closed = true ∨ .close ∈ calls := by
  induction calls generalizing p with
  | nil => simp
  | cons c calls ih =>
    rw [after_cons, ih, closed_of_effect (p.effect_step c), List.mem_cons, or_assoc,
      eq_comm (a := c)]

theorem detached_after (p : Passage) (calls : List Call) :
    (p.after calls).rowSet.detached = true ↔ p.rowSet.detached = true ∨ .detach ∈ calls := by
  induction calls generalizing p with
  | nil => simp
  | cons c calls ih =>
    rw [after_cons, ih, detached_of_effect (p.effect_step c), List.mem_cons, or_assoc,
      eq_comm (a := c)]

theorem over_after (hp : p.rowSet.closed = true ∧ p.rowSet.buffer = []) (calls : List Call) :
    (p.after calls).rowSet.closed = true ∧ (p.after calls).rowSet.buffer = [] := by
  induction calls generalizing p with
  | nil => exact hp
  | cons c calls ih => exact ih (over_of_effect hp (p.effect_step c))

end Passage

/-- What a row set keeps to after `calls`, where `p` is what they have come to. -/
structure Lossless (capacity : Nat) (calls : List Call) (p : Passage) : Prop where
  bounded : p.rowSet.buffer.length ≤ max capacity 1
  conserved : p.accepted = p.delivered ++ p.dropped ++ p.rowSet.buffer
  /-- Before any detach nothing is thrown away, and what has come out is the first part of
  what has gone in. -/
  inOrder : .detach ∉ calls → p.dropped = [] ∧ p.delivered <+: p.accepted
  /-- A row for which there is no space is handed back and nothing is stored. -/
  full : ∀ row time back, (p.rowSet.ask (.offer row time)).2 = .offered (.ok (.full back)) →
    back = row ∧ p.step (.offer row time) = p
  /-- A put for which there is no space waits, and nothing is stored. -/
  waiting : ∀ row, (p.rowSet.ask (.put row)).2 = .waiting → p.step (.put row) = p
  closed : .close ∈ calls → ∀ row time,
    p.rowSet.ask (.offer row time) =
      (p.rowSet, .offered (.error (.rowSetClosed p.rowSet.name))) ∧
    p.rowSet.ask (.put row) = (p.rowSet, .finished (.error (.rowSetClosed p.rowSet.name))) ∧
    p.rowSet.ask .close = (p.rowSet, .finished (.error (.rowSetClosed p.rowSet.name)))
  polled_done : ∀ time, (p.rowSet.ask (.poll time)).2 = .polled .done ↔
    .close ∈ calls ∧ p.rowSet.buffer = []
  got_none : (p.rowSet.ask .get).2 = .got none ↔ .close ∈ calls ∧ p.rowSet.buffer = []
  /-- Whatever is called after the end of the stream has been found, it is found again. -/
  ended : ∀ c, (p.rowSet.ask c).2 = .polled .done ∨ (p.rowSet.ask c).2 = .got none →
    ∀ later time, (((p.step c).after later).rowSet.ask (.poll time)).2 = .polled .done ∧
      (((p.step c).after later).rowSet.ask .get).2 = .got none
  empty : .detach ∈ calls → p.rowSet.buffer = []
  discarded : .detach ∈ calls → .close ∉ calls → ∀ row time,
    p.rowSet.ask (.offer row time) = (p.rowSet, .offered (.ok .discarded)) ∧
    p.rowSet.ask (.put row) = (p.rowSet, .finished (.ok ()))

theorem polled_done_iff (s : RowSet) (time : Nat) :
    (s.ask (.poll time)).2 = .polled .done ↔ s.closed = true ∧ s.buffer = [] := by
  rw [← poll_eq_done_iff]
  exact Reply.polled.injEq .. ▸ Iff.rfl

theorem got_none_iff (s : RowSet) :
    (s.ask .get).2 = .got none ↔ s.closed = true ∧ s.buffer = [] := by
  rw [← poll_eq_done_iff, ask, get]
  obtain ⟨next, answer⟩ := s.poll
  cases answer <;> simp

theorem over_of_reply {s : RowSet} {c : Call}
    (h : (s.ask c).2 = .polled .done ∨ (s.ask c).2 = .got none) :
    s.closed = true ∧ s.buffer = [] := by
  cases c with
  | poll time => exact (s.polled_done_iff time).mp (h.resolve_right (by simp [ask]))
  | get =>
    refine s.got_none_iff.mp (h.resolve_left ?_)
    rw [ask]
    split <;> simp
  | put row =>
    rw [ask] at h
    split at h <;> simp at h
  | _ => simp [ask] at h

/-- Rows come out as they went in, none is lost or stored beyond the capacity, and every
answer says what has become of the row set.  This is so after any calls. -/
theorem lossless_after (name : String) (capacity : Nat) (calls : List Call) :
    Lossless capacity calls ((Passage.new name capacity).after calls) := by
  have hsound := (Passage.sound_new name capacity).after calls
  have hclosed := Passage.closed_after (.new name capacity) calls
  have hdetached := Passage.detached_after (.new name capacity) calls
  have hnew : (Passage.new name capacity).rowSet.closed = false := rfl
  have hnew' : (Passage.new name capacity).rowSet.detached = false := rfl
  simp only [hnew, hnew', Bool.false_eq_true, false_or] at hclosed hdetached
  generalize (Passage.new name capacity).after calls = p at hsound hclosed hdetached ⊢
  have hopen : .close ∉ calls → p.rowSet.closed = false := fun h => by
    rwa [← hclosed, Bool.not_eq_true] at h
  constructor
  case bounded => exact hsound.bounded
  case conserved => exact hsound.conserved
  case inOrder =>
    intro h
    rw [← hdetached, Bool.not_eq_true] at h
    have hdropped := hsound.attached h
    refine ⟨hdropped, ?_⟩
    rw [hsound.conserved, hdropped, List.append_nil]
    exact List.prefix_append _ _
  case full =>
    intro row time back h
    have hfull : (p.rowSet.offer row).2 = .ok (.full back) := Reply.offered.inj h
    have hset : (p.rowSet.offer row).1 = p.rowSet :=
      offer_of_ne_accepted (by rw [hfull]; simp)
    refine ⟨eq_of_offer_full hfull, Passage.step_eq_self (r := .offered (.ok (.full back))) ?_
      rfl rfl (by simp)⟩
    rw [ask, hset, hfull]
  case waiting =>
    intro row h
    refine Passage.step_eq_self (r := .waiting) (Prod.ext ?_ h) rfl rfl (by simp)
    rw [ask, put] at h ⊢
    rcases p.rowSet.offer_cases row with ⟨f, ho⟩ | ⟨-, ho⟩ | ho | ⟨-, layout, ho⟩
    · simp [ho] at h
    · simp [ho] at h
    · simp [ho]
    · simp [ho] at h
  case closed =>
    intro h row time
    rw [← hclosed] at h
    simp [ask, put, offer_of_closed h, close_of_closed h]
  case polled_done => exact fun time => by rw [polled_done_iff, hclosed]
  case got_none => rw [got_none_iff, hclosed]
  case ended =>
    intro c h later time
    have hstep := Passage.over_of_effect (over_of_reply h) (p.effect_step c)
    have hover := Passage.over_after hstep later
    exact ⟨(polled_done_iff _ time).mpr hover, (got_none_iff _).mpr hover⟩
  case empty => exact fun h => hsound.detached (hdetached.mpr h)
  case discarded =>
    intro h hc row time
    have hoffer := offer_of_detached (hopen hc) (hdetached.mpr h) row
    simp [ask, put, hoffer]

end RowSet
end RowFlow
