import RowFlow.Proofs.Search.Looks

/-
A call for a row, while nobody else does anything, reads what there is.  Each of its steps
goes on with the search, takes a row or comes to the end of all inputs (`Searched`), so
that what holds at any time during the call is known from the inputs as the call found
them (`Inquiry`).

Whether the call comes back is seen from the inputs too.  If one of them has a row, or
none of them is still open, then every way on leads to an answer or makes the list of
pending inputs shorter (`comes_receive`): the inputs in front of the first one that does
not keep the search waiting are passed in one scan, and what stands there is a row or an
end.  The scan in which an input has just left is of no use for this, as it may come to
its end before it has met all that are left; the one after it is.
-/
namespace RowFlow
namespace Program

variable {α : Type} {next : Option Row → Program α} {scan : Scan} {l l' : Local}
  {s s' : Shared} {seen : Nat}

inductive Looked (l : Local) (s : Shared) : Shared × Poll → Prop
  | row {i : Nat} {rest : List Nat} {row : Row} {s' : Shared} (hq : l.queue = i :: rest)
      (hy : s.Yields i row s') : Looked l s (s', .row row)
  | done (h : ∀ i, l.queue.head? = some i → s.IsDone i) : Looked l s (s, .done)
  | pending {i : Nat} {rest : List Nat} (hq : l.queue = i :: rest) (hb : s.blocksPoll i = true) :
      Looked l s (s, .pending)

theorem looked (l : Local) (s : Shared) : Looked l s (look l s) := by
  cases hq : l.queue with
  | nil =>
    rw [look_of_queue_nil hq]
    exact .done fun i hi => by simp [hq] at hi
  | cons i rest =>
    rw [look_of_queue hq]
    rcases s.input_cases i with ⟨row, s', hy⟩ | hdone | hb
    · rw [hy.poll]
      exact .row hq hy
    · rw [Shared.poll_of_isDone hdone]
      refine .done fun j hj => ?_
      rw [hq] at hj
      cases hj
      exact hdone
    · rw [Shared.poll_of_blocksPoll hb]
      exact .pending hq hb

inductive Searched (next : Option Row → Program α) (l : Local) (s : Shared) :
    Program α × Local × Shared → Prop
  | on {scan : Scan} {l' : Local} (h : l.Sifts s l') : Searched next l s (receive scan next, l', s)
  | found {i : Nat} {row : Row} {s' : Shared} (hi : i ∈ l.pending) (hy : s.Yields i row s') :
      Searched next l s (next (some row), l.taken row, s')
  | dry {l' : Local} (h : l.Sifts s l') (hend : s.control.stopped = true ∨ l'.pending = []) :
      Searched next l s (next none, l', s)

theorem searched_scanOn (h : l.Sifts s l') (seen : Nat) :
    Searched next l s (scanOn seen l' next, l', s) := by
  unfold scanOn
  split
  · exact .on h
  · split
    · next hend => exact .dry h (.inr (List.isEmpty_iff.mp hend))
    · exact .on h

theorem searched_advance (scan : Scan) (l : Local) (s : Shared) :
    Searched next l s (advance (receive scan next, l, s)) := by
  have hlooked := looked l s
  cases scan with
  | start =>
    simp only [advance, step]
    split
    · next hend => exact .dry (.refl s l) (by simpa using hend)
    · exact .on (.refl s l)
  | looking seen =>
    simp only [advance, step]
    cases hlook : look l s with
    | mk s₁ found =>
      rw [hlook] at hlooked
      cases hlooked with
      | row hq hy => exact .found (Local.mem_queue.mp (hq ▸ List.mem_cons_self)) hy
      | done h => exact searched_scanOn (Local.sifts_drop h) seen
      | pending hq hb => exact searched_scanOn (Local.sifts_pass s l) (seen + 1)
  | waiting =>
    simp only [advance, step]
    cases hlook : look l s with
    | mk s₁ found =>
      rw [hlook] at hlooked
      cases hlooked with
      | row hq hy => exact .found (Local.mem_queue.mp (hq ▸ List.mem_cons_self)) hy
      | done h => exact .on (Local.sifts_drop h)
      | pending hq hb => exact .on (.refl s l)

/-- The program comes to its end if nobody else does anything. -/
def Comes (x : Program α × Local × Shared) : Prop :=
  ∃ n a l' s', advance^[n] x = (done a, l', s')

theorem comes_done (a : α) (l : Local) (s : Shared) : Comes (done a, l, s) := ⟨0, a, l, s, rfl⟩

theorem comes_of_advance {x : Program α × Local × Shared} (h : Comes (advance x)) : Comes x := by
  obtain ⟨n, a, l', s', hn⟩ := h
  exact ⟨n + 1, a, l', s', hn⟩

/-- A search has something to find: a row, or nothing but ends. -/
def Findable (s : Shared) (l : Local) : Prop :=
  (∃ i ∈ l.pending, s.holds i = true) ∨ ∀ i ∈ l.pending, s.IsDone i

theorem Findable.sifts (h : Findable s l) (hs : l.Sifts s l') : Findable s l' := by
  rcases h with ⟨i, hi, hholds⟩ | hdone
  · exact .inl ⟨i, hs.mem hi (Shared.not_isDone_of_holds hholds), hholds⟩
  · exact .inr fun i hi => hdone i (hs.sublist.subset hi)

theorem findable_or_waits (s : Shared) (l : Local) : Findable s l ∨
    (∀ i ∈ l.pending, s.holds i = false) ∧ ∃ i ∈ l.pending, s.blocksPoll i = true := by
  by_cases hholds : ∃ i ∈ l.pending, s.holds i = true
  · exact .inl (.inl hholds)
  · by_cases hdone : ∀ i ∈ l.pending, s.IsDone i
    · exact .inl (.inr hdone)
    · refine .inr ⟨fun i hi => ?_, ?_⟩
      · cases h : s.holds i with
        | false => rfl
        | true => exact absurd ⟨i, hi, h⟩ hholds
      · push Not at hdone
        obtain ⟨i, hi, hnot⟩ := hdone
        rcases s.input_cases i with ⟨row, s', hy⟩ | hdone | hb
        · exact absurd ⟨i, hi, hy.holds⟩ hholds
        · exact absurd hdone hnot
        · exact ⟨i, hi, hb⟩

theorem exists_ready (h : Findable s l) (hne : l.pending ≠ []) : ∃ passed i rest,
    l.queue = passed ++ i :: rest ∧ (∀ j ∈ passed, s.blocksPoll j = true) ∧
      s.blocksPoll i = false := by
  have hsome : ∃ i ∈ l.queue, (!s.blocksPoll i) = true := by
    have hfree : ∀ {i}, s.blocksPoll i = false → (!s.blocksPoll i) = true := fun h => by
      rw [h, Bool.not_false]
    rcases h with ⟨i, hi, hholds⟩ | hdone
    · exact ⟨i, Local.mem_queue.mpr hi, hfree (Shared.blocksPoll_of_holds hholds)⟩
    · obtain ⟨i, hi⟩ := List.exists_mem_of_ne_nil _ hne
      exact ⟨i, Local.mem_queue.mpr hi, hfree (Bool.eq_false_iff.mpr fun hb =>
        Shared.not_isDone_of_blocksPoll hb (hdone i hi))⟩
  obtain ⟨i, hi⟩ := Option.isSome_iff_exists.mp (List.find?_isSome.mpr hsome)
  obtain ⟨hready, passed, rest, hq, hpassed⟩ := List.find?_eq_some_iff_append.mp hi
  exact ⟨passed, i, rest, hq, fun j hj => by simpa using hpassed j hj, by simpa using hready⟩

section Comes

def Shorter (next : Option Row → Program α) (s : Shared) (l : Local) : Prop :=
  ∀ l' scan, l'.pending.length < l.pending.length → Findable s l' → Comes (receive scan next, l', s)

theorem Shorter.drop (h : Shorter next s l) : Shorter next s l.drop := fun l' scan hlt hf =>
  h l' scan (Nat.lt_of_lt_of_le hlt (List.eraseIdx_sublist ..).length_le) hf

/-- An input that has ended leaves, and fewer are searched. -/
theorem comes_drop (hshorter : Shorter next s l) (hf : Findable s l)
    (h : ∀ i, l.queue.head? = some i → s.IsDone i) (hne : l.pending ≠ []) (scan : Scan) :
    Comes (receive scan next, l.drop, s) := by
  refine hshorter l.drop scan ?_ (hf.sifts (Local.sifts_drop h))
  obtain ⟨i, rest, hq⟩ := List.exists_cons_of_ne_nil fun hq => hne (List.rotate_eq_nil_iff.mp hq)
  rw [← (Local.perm_drop hq).length_eq]
  exact Nat.lt_succ_self _

variable (hnext : ∀ r l s, Comes (next r, l, s))

include hnext

theorem comes_scanOn (seen : Nat)
    (hlooking : seen < l.pending.length → Comes (receive (.looking seen) next, l, s))
    (hwaiting : l.pending ≠ [] → Comes (receive .waiting next, l, s)) :
    Comes (scanOn seen l next, l, s) := by
  unfold scanOn
  split
  · next hlt => exact hlooking hlt
  · split
    · exact hnext none l s
    · next hend => exact hwaiting fun hnil => hend (List.isEmpty_iff.mpr hnil)

theorem comes_scanOn_drop (hshorter : Shorter next s l) (hf : Findable s l)
    (h : ∀ i, l.queue.head? = some i → s.IsDone i) (seen : Nat) :
    Comes (scanOn seen l.drop next, l.drop, s) := by
  have hne : l.drop.pending ≠ [] → l.pending ≠ [] := fun hne hnil =>
    hne (by simp [Local.drop, hnil])
  refine comes_scanOn hnext seen (fun hlt => ?_) fun hleft => ?_
  · exact comes_drop hshorter hf h (hne (List.ne_nil_of_length_pos (Nat.zero_lt_of_lt hlt))) _
  · exact comes_drop hshorter hf h (hne hleft) _

/-- A scan with as many looks left as there are inputs to pass finds what is ready. -/
theorem comes_looking_of_ready (hshorter : Shorter next s l) (hf : Findable s l)
    {passed rest : List Nat} {i : Nat} (hq : l.queue = passed ++ i :: rest)
    (hpassed : ∀ j ∈ passed, s.blocksPoll j = true) (hi : s.blocksPoll i = false)
    (hseen : seen + passed.length < l.pending.length) :
    Comes (receive (.looking seen) next, l, s) := by
  induction passed generalizing l rest seen with
  | nil =>
    have hlooked := looked l s
    refine comes_of_advance ?_
    simp only [advance, step]
    cases hlook : look l s with
    | mk s₁ found =>
      rw [hlook] at hlooked
      cases hlooked with
      | row hq hy => exact hnext _ _ _
      | done h => exact comes_scanOn_drop hnext hshorter hf h seen
      | pending hq' hb =>
        rw [hq'] at hq
        cases hq
        rw [hi] at hb
        cases hb
  | cons j passed ih =>
    rw [List.cons_append] at hq
    rw [List.length_cons] at hseen
    have hon : scanOn (seen + 1) l.pass next = receive (.looking (seen + 1)) next := by
      refine if_pos ?_
      show seen + 1 < l.pending.length
      omega
    have hpass : l.pass.queue = passed ++ i :: (rest ++ [j]) := by
      rw [Local.queue_pass hq, List.append_assoc, List.cons_append]
    refine comes_of_advance ?_
    simp only [advance, step, look_of_queue hq,
      Shared.poll_of_blocksPoll (hpassed j List.mem_cons_self), hon]
    refine ih (l := l.pass) hshorter hf hpass (fun k hk => hpassed k (List.mem_cons_of_mem j hk)) ?_
    show seen + 1 + passed.length < l.pending.length
    omega

theorem comes_start (hshorter : Shorter next s l) (hf : Findable s l) :
    Comes (receive .start next, l, s) := by
  refine comes_of_advance ?_
  simp only [advance, step]
  split
  · exact hnext none l s
  · next hgo =>
    have hne : l.pending ≠ [] := fun hnil => hgo (by simp [hnil])
    obtain ⟨passed, i, rest, hq, hpassed, hi⟩ := exists_ready hf hne
    refine comes_looking_of_ready hnext hshorter hf hq hpassed hi ?_
    have hlength : l.queue.length = l.pending.length := List.length_rotate ..
    rw [hq, List.length_append, List.length_cons] at hlength
    omega

theorem comes_waiting (hshorter : Shorter next s l) (hf : Findable s l) :
    Comes (receive .waiting next, l, s) := by
  have hlooked := looked l s
  refine comes_of_advance ?_
  simp only [advance, step]
  cases hlook : look l s with
  | mk s₁ found =>
    rw [hlook] at hlooked
    cases hlooked with
    | row hq hy => exact hnext _ _ _
    | done h => exact comes_start hnext hshorter.drop (hf.sifts (Local.sifts_drop h))
    | pending hq hb => exact comes_start hnext hshorter hf

/-- A scan that has already passed some inputs may end in vain, but then a new one starts. -/
theorem comes_looking (hshorter : Shorter next s l) (hf : Findable s l) (seen : Nat) :
    Comes (receive (.looking seen) next, l, s) := by
  induction hleft : l.pending.length - seen using Nat.strong_induction_on generalizing l seen with
  | h left ih =>
    have hlooked := looked l s
    refine comes_of_advance ?_
    simp only [advance, step]
    cases hlook : look l s with
    | mk s₁ found =>
      rw [hlook] at hlooked
      cases hlooked with
      | row hq hy => exact hnext _ _ _
      | done h => exact comes_scanOn_drop hnext hshorter hf h seen
      | pending hq hb =>
        refine comes_scanOn hnext (seen + 1) (fun hlt => ?_) fun _ =>
          comes_waiting (l := l.pass) hnext hshorter hf
        have hlt' : seen + 1 < l.pending.length := hlt
        refine ih (l.pending.length - (seen + 1)) (by omega) (l := l.pass) hshorter hf
          (seen + 1) rfl

/-- A search that has something to find comes to its end. -/
theorem comes_receive (hf : Findable s l) (scan : Scan) : Comes (receive scan next, l, s) := by
  induction hlength : l.pending.length using Nat.strong_induction_on generalizing l scan with
  | h length ih =>
    have hshorter : Shorter next s l := fun l' scan hlt hf' => ih _ (hlength ▸ hlt) hf' scan rfl
    cases scan with
    | start => exact comes_start hnext hshorter hf
    | looking seen => exact comes_looking hnext hshorter hf seen
    | waiting => exact comes_waiting hnext hshorter hf

end Comes

def answered (r : Option Row) : Program (Option Row) := act (.mark (.got r)) fun _ => done r

/-- Where a call for a row stands. -/
inductive Inquiry (l : Local) (s : Shared) : Program (Option Row) × Local × Shared → Prop
  | begun : Inquiry l s (getRow, l, s)
  | searching {scan : Scan} {l' : Local} (h : l.Sifts s l') :
      Inquiry l s (receive scan answered, l', s)
  | found {i : Nat} {row : Row} {p : Program (Option Row)} {l' : Local} {s' : Shared}
      (h : l.Sifts s l') (hi : i ∈ l'.pending) (hy : s.Yields i row s')
      (hp : p = answered (some row) ∨ p = done (some row)) :
      Inquiry l s (p, l'.taken row, s')
  | dry {p : Program (Option Row)} {l' : Local} (h : l.Sifts s l')
      (hend : s.control.stopped = true ∨ l'.pending = [])
      (hp : p = answered none ∨ p = done none) :
      Inquiry l s (p, l', s)

theorem Inquiry.advance {x : Program (Option Row) × Local × Shared} (h : Inquiry l s x) :
    Inquiry l s (advance x) := by
  cases h with
  | begun => exact .searching (.refl s l)
  | @searching scan l' h =>
    have hsearched : Searched answered l' s (Program.advance (receive scan answered, l', s)) :=
      searched_advance scan l' s
    generalize Program.advance _ = y at hsearched ⊢
    cases hsearched with
    | on h' => exact .searching (h.trans h')
    | found hi hy => exact .found h hi hy (.inl rfl)
    | dry h' hend => exact .dry (h.trans h') hend (.inl rfl)
  | found h hi hy hp =>
    rcases hp with rfl | rfl
    · exact .found h hi hy (.inr rfl)
    · exact .found h hi hy (.inr rfl)
  | dry h hend hp =>
    rcases hp with rfl | rfl
    · exact .dry h hend (.inr rfl)
    · exact .dry h hend (.inr rfl)

theorem inquiry (l : Local) (s : Shared) (n : Nat) :
    Inquiry l s (advance^[n] (getRow, l, s)) := by
  induction n with
  | zero => exact .begun
  | succ n ih =>
    rw [Function.iterate_succ_apply']
    exact ih.advance

/-- A call for a row comes back with the answer, and nobody else has done anything. -/
def Returns (l : Local) (s : Shared) (answer : Option Row) (l' : Local) (s' : Shared) : Prop :=
  ∃ n, advance^[n] (getRow, l, s) = (done answer, l', s')

/-- What a call that has come back has found. -/
inductive Upshot (l : Local) (s : Shared) : Option Row → Local → Shared → Prop
  | found {i : Nat} {row : Row} {l' : Local} {s' : Shared} (h : l.Sifts s l') (hi : i ∈ l.pending)
      (hy : s.Yields i row s') : Upshot l s (some row) (l'.taken row) s'
  | dry {l' : Local} (h : l.Sifts s l') (hend : s.control.stopped = true ∨ l'.pending = []) :
      Upshot l s none l' s

theorem Returns.upshot {r : Option Row} (h : Returns l s r l' s') : Upshot l s r l' s' := by
  obtain ⟨n, hn⟩ := h
  have hinquiry := inquiry l s n
  rw [hn] at hinquiry
  generalize hx : (done r, l', s') = x at hinquiry
  cases hinquiry with
  | begun => cases hx
  | searching _ => cases hx
  | found h hi hy hp =>
    rcases hp with rfl | rfl
    · cases hx
    · cases hx
      exact .found h (h.sublist.subset hi) hy
  | dry h hend hp =>
    rcases hp with rfl | rfl
    · cases hx
    · cases hx
      exact .dry h hend

theorem Returns.unique {r r' : Option Row} {l'' : Local} {s'' : Shared}
    (h : Returns l s r l' s') (h' : Returns l s r' l'' s'') : r = r' ∧ l' = l'' ∧ s' = s'' := by
  obtain ⟨n, hn⟩ := h
  obtain ⟨m, hm⟩ := h'
  have hlast : (done r, l', s') = (done r', l'', s'') := by
    rw [← advance_done m r, ← hn, ← Function.iterate_add_apply, Nat.add_comm,
      Function.iterate_add_apply, hm, advance_done]
  cases hlast
  exact ⟨rfl, rfl, rfl⟩

theorem returns_of_stopped (hflag : s.control.stopped = true) (l : Local) :
    Returns l s none l s := by
  have hstart : advance (receive .start answered, l, s) =
      (answered none, l, s) := by
    simp only [advance, step, hflag, Bool.true_or, if_true]
  refine ⟨3, ?_⟩
  show advance (advance (receive .start answered, l, s)) = _
  rw [hstart]
  rfl

theorem exists_returns (hf : Findable s l) : ∃ r l' s', Returns l s r l' s' := by
  have hcomes : Comes (getRow, l, s) :=
    comes_of_advance (comes_receive (fun r l s => comes_of_advance (comes_done r l s)) hf .start)
  obtain ⟨n, r, l', s', hn⟩ := hcomes
  exact ⟨r, l', s', n, hn⟩

/-- If an input has a row and the run goes on, a call comes back with the oldest row of one. -/
theorem returns_row (hflag : s.control.stopped = false) {j : Nat} (hj : j ∈ l.pending)
    (hholds : s.holds j = true) : ∃ i ∈ l.pending, ∃ row s' pending cursor, s.Yields i row s' ∧
      Returns l s (some row) ((l.seeking pending cursor).taken row) s' := by
  obtain ⟨r, l', s', hreturns⟩ := exists_returns (.inl ⟨j, hj, hholds⟩)
  cases hreturns.upshot with
  | @found i row l' s' h hi hy =>
    refine ⟨i, hi, row, s', l'.pending, l'.cursor, hy, ?_⟩
    rwa [← h.rests]
  | dry h hend =>
    refine absurd (h.mem hj (Shared.not_isDone_of_holds hholds)) ?_
    rw [hend.resolve_left (by simp [hflag])]
    exact List.not_mem_nil

/-- If all inputs have ended, a call comes back without a row. -/
theorem returns_none (hflag : s.control.stopped = false) (hdone : ∀ i ∈ l.pending, s.IsDone i) :
    ∃ cursor, Returns l s none (l.seeking [] cursor) s := by
  obtain ⟨r, l', s', hreturns⟩ := exists_returns (.inr hdone)
  cases hreturns.upshot with
  | found h hi hy => exact absurd (hdone _ hi) (Shared.not_isDone_of_holds hy.holds)
  | dry h hend =>
    refine ⟨l'.cursor, ?_⟩
    have hrests := h.rests
    rw [hend.resolve_left (by simp [hflag])] at hrests
    rwa [← hrests]

theorem not_returns_of_blocksPoll (hflag : s.control.stopped = false)
    (hempty : ∀ i ∈ l.pending, s.holds i = false) {j : Nat} (hj : j ∈ l.pending)
    (hb : s.blocksPoll j = true) (r : Option Row) : ¬ Returns l s r l' s' := by
  intro hreturns
  cases hreturns.upshot with
  | found h hi hy =>
    have hholds := hy.holds
    rw [hempty _ hi] at hholds
    cases hholds
  | dry h hend =>
    refine absurd (h.mem hj (Shared.not_isDone_of_blocksPoll hb)) ?_
    rw [hend.resolve_left (by simp [hflag])]
    exact List.not_mem_nil

/-- A call goes on for ever just if it waits for the others. -/
theorem forall_not_returns_iff : (∀ r l' s', ¬ Returns l s r l' s') ↔ s.control.stopped = false ∧
    (∀ i ∈ l.pending, s.holds i = false) ∧ ∃ i ∈ l.pending, s.blocksPoll i = true := by
  constructor
  · intro hnever
    have hflag : s.control.stopped = false :=
      Bool.eq_false_iff.mpr fun hflag => hnever none l s (returns_of_stopped hflag l)
    refine ⟨hflag, (findable_or_waits s l).resolve_left fun hf => ?_⟩
    obtain ⟨r, l', s', hreturns⟩ := exists_returns hf
    exact hnever r l' s' hreturns
  · rintro ⟨hflag, hempty, j, hj, hb⟩ r l' s'
    exact not_returns_of_blocksPoll hflag hempty hj hb r

/-- At any time during a call no input has left that had not ended. -/
theorem Inquiry.keeps {x : Program (Option Row) × Local × Shared} (h : Inquiry l s x) :
    x.2.1.pending.Sublist l.pending ∧
      ∀ i, ¬ s.IsDone i → x.2.1.pending.count i = l.pending.count i := by
  cases h with
  | begun => exact ⟨.refl _, fun _ _ => rfl⟩
  | searching h => exact ⟨h.sublist, h.kept⟩
  | found h _ _ _ => exact ⟨h.sublist, h.kept⟩
  | dry h _ _ => exact ⟨h.sublist, h.kept⟩

/-- A call for a row reads what there is.  It comes back in one way at most; it waits for
others only when all its pending inputs are empty and one is open; and no row is skipped,
since an input leaves only when it has ended. -/
structure ReadsAvailable (l : Local) (s : Shared) : Prop where
  unique : ∀ {r r' l' l'' s' s''}, Returns l s r l' s' → Returns l s r' l'' s'' →
    r = r' ∧ l' = l'' ∧ s' = s''
  stopped : s.control.stopped = true → Returns l s none l s
  reads : s.control.stopped = false → (∃ i ∈ l.pending, s.holds i = true) →
    ∃ i ∈ l.pending, ∃ row s' pending cursor, s.Yields i row s' ∧
      Returns l s (some row)
        { l with
          pending
          cursor
          counts := l.counts.add 1 .read
          inputSchema := l.inputSchema.or (some row.schema) } s'
  ended : s.control.stopped = false → (∀ i ∈ l.pending, s.IsDone i) →
    ∃ cursor, Returns l s none { l with pending := [], cursor } s
  waits : (∀ r l' s', ¬ Returns l s r l' s') ↔ s.control.stopped = false ∧
    (∀ i ∈ l.pending, s.holds i = false) ∧ ∃ i ∈ l.pending, s.blocksPoll i = true
  keeps : ∀ n, let l' := (advance^[n] (getRow, l, s)).2.1
    l'.pending.Sublist l.pending ∧ ∀ i, ¬ s.IsDone i → l'.pending.count i = l.pending.count i

theorem readsAvailable_getRow (l : Local) (s : Shared) : ReadsAvailable l s := by
  constructor
  case unique => exact Returns.unique
  case stopped => exact fun hflag => returns_of_stopped hflag l
  case reads =>
    rintro hflag ⟨j, hj, hholds⟩
    obtain ⟨i, hi, row, s', pending, cursor, hy, hreturns⟩ := returns_row hflag hj hholds
    exact ⟨i, hi, row, s', pending, _, hy, hreturns⟩
  case ended => exact returns_none
  case waits => exact forall_not_returns_iff
  case keeps => exact fun n => (inquiry l s n).keeps

end Program
end RowFlow
