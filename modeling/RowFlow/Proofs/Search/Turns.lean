import RowFlow.Proofs.Search.Available

/-
No input is starved.  A copy calls for rows, one call after the other, while producers add
rows to its inputs at any time; the run goes on and no input ends.

Each look at an input sends it to the end of the queue, whether a row was found or not
(`queue_seeks`, `Taking.queue`).  So an input that has a row comes nearer to the head of
the queue with each input in front of it that is looked at, and it is read when it gets
there.  A call makes one such look at least, and its last one reads a row: after as many
calls as there are inputs none has been left out.
-/
namespace RowFlow
namespace Turns

open Program

/-- Where a copy stands in a call for a row, with what is shared at that time. -/
abbrev Stand := Program (Option Row) × Local × Shared

/-- The run goes on, and none of the pending inputs has ended. -/
structure Calm (l : Local) (s : Shared) : Prop where
  goesOn : s.control.stopped = false
  lasting : ∀ i ∈ l.pending, ¬ s.IsDone i

/-- One action without reading a row, after which producers may have added rows. -/
structure Seeks (x y : Stand) : Prop where
  calm : Calm x.2.1 x.2.2
  idle : ∀ i row, x.1.deed? x.2.1 x.2.2 ≠ some (.take i row)
  program : y.1 = (advance x).1
  own : y.2.1 = (advance x).2.1
  fed : ∀ i ∈ y.2.1.pending, (advance x).2.2.holds i = true → y.2.2.holds i = true

inductive SeeksFor : Nat → Stand → Stand → Prop
  | here (x : Stand) : SeeksFor 0 x x
  | on {n : Nat} {x y z : Stand} (h : Seeks x y) (hs : SeeksFor n y z) : SeeksFor (n + 1) x z

/-- The next action reads a row from the input, and the call comes back with it. -/
structure Taking (x : Stand) (i : Nat) (l' : Local) : Prop where
  calm : Calm x.2.1 x.2.2
  takes : ∃ row s', x.1.deed? x.2.1 x.2.2 = some (.take i row) ∧
    advance^[2] x = (done (some row), l', s')

def Reads (l : Local) (s : Shared) (i : Nat) (l' : Local) : Prop :=
  ∃ n x, SeeksFor n (getRow, l, s) x ∧ Taking x i l'

/-- One call after the other, with what is shared at the start of each and the input that
it reads.  What the copy does in between leaves its inputs alone. -/
inductive Calls : Local → List Shared → List Nat → Prop
  | none (l : Local) : Calls l [] []
  | call {l l' m : Local} {s : Shared} {ss : List Shared} {i : Nat} {is : List Nat}
      (h : Reads l s i l') (hpending : m.pending = l'.pending) (hcursor : m.cursor = l'.cursor)
      (hs : Calls m ss is) : Calls l (s :: ss) (i :: is)

variable {next : Option Row → Program (Option Row)} {scan : Scan} {l l' : Local}
  {s s' : Shared} {i j seen n : Nat} {rest : List Nat} {x y : Stand}

theorem Calm.looked (h : Calm l s) (hq : l.queue = j :: rest) :
    (∃ row s', s.Yields j row s' ∧ look l s = (s', .row row)) ∨
      s.blocksPoll j = true ∧ look l s = (s, .pending) := by
  rw [look_of_queue hq]
  rcases s.input_cases j with ⟨row, s', hy⟩ | hdone | hb
  · exact .inl ⟨row, s', hy, hy.poll⟩
  · exact absurd hdone (h.lasting j (Local.mem_queue.mp (hq ▸ List.mem_cons_self)))
  · exact .inr ⟨hb, Shared.poll_of_blocksPoll hb⟩

theorem deed?_looking (hq : l.queue = j :: rest) (next : Option Row → Program (Option Row))
    (seen : Nat) {row : Row} (hlook : (look l s).2 = .row row) :
    (receive (.looking seen) next).deed? l s = some (.take j row) := by
  simp only [deed?, lookDeed?, Local.getElem?_place hq, hlook]

/-- A look that reads nothing has passed an input that has nothing. -/
theorem Seeks.looking (h : Seeks (receive (.looking seen) next, l, s) y)
    (hq : l.queue = j :: rest) : s.blocksPoll j = true ∧
      y = (scanOn (seen + 1) l.pass next, l.pass, y.2.2) ∧
      ∀ i ∈ l.pending, s.holds i = true → y.2.2.holds i = true := by
  rcases h.calm.looked hq with ⟨row, s', hy, hlook⟩ | ⟨hb, hlook⟩
  · exact absurd (deed?_looking hq next seen (by rw [hlook])) (h.idle j row)
  · have hstep : advance (receive (.looking seen) next, l, s) =
        (scanOn (seen + 1) l.pass next, l.pass, s) := by
      simp only [advance, step, hlook]
    have hprogram := h.program
    have hown := h.own
    have hfed := h.fed
    rw [hstep] at hprogram hown hfed
    rw [hown] at hfed
    exact ⟨hb, Prod.ext hprogram (Prod.ext hown rfl), hfed⟩

theorem idxOf_turn (hi : i ∈ j :: rest) (hne : j ≠ i) :
    (rest ++ [j]).idxOf i + 1 = (j :: rest).idxOf i := by
  have hrest : i ∈ rest := (List.mem_cons.mp hi).resolve_left fun heq => hne heq.symm
  rw [List.idxOf_append_of_mem hrest, List.idxOf_cons_ne _ hne]

/-- A scan that has as many looks left as there are inputs in front of one that has a row
passes these, one with each action. -/
theorem SeeksFor.looking (h : SeeksFor n (receive (.looking seen) next, l, s) y)
    (hi : i ∈ l.pending) (hholds : s.holds i = true)
    (hseen : seen + l.queue.idxOf i < l.pending.length) :
    ∃ m s', y = (receive (.looking (seen + n)) next, m, s') ∧ m.pending = l.pending ∧
      s'.holds i = true ∧ m.queue = l.queue.rotate n ∧ m.queue.idxOf i + n = l.queue.idxOf i := by
  induction n generalizing l s seen with
  | zero =>
    cases h
    exact ⟨l, s, rfl, rfl, hholds, (List.rotate_zero _).symm, rfl⟩
  | succ n ih =>
    obtain ⟨j, rest, hq⟩ := List.exists_cons_of_ne_nil
      (List.ne_nil_of_mem (Local.mem_queue.mpr hi))
    cases h with
    | @on _ _ x _ hseek hs =>
      obtain ⟨hb, hx, hfed⟩ := hseek.looking hq
      have hne : j ≠ i := by
        rintro rfl
        rw [Shared.blocksPoll_of_holds hholds] at hb
        cases hb
      have hmem : i ∈ j :: rest := by
        rw [← hq]
        exact Local.mem_queue.mpr hi
      have hturn : l.pass.queue.idxOf i + 1 = l.queue.idxOf i := by
        rw [Local.queue_pass hq, hq]
        exact idxOf_turn hmem hne
      have hlt : seen + 1 + l.pass.queue.idxOf i < l.pending.length := by omega
      have hon : scanOn (seen + 1) l.pass next = receive (.looking (seen + 1)) next := by
        refine if_pos ?_
        show seen + 1 < l.pending.length
        omega
      rw [hx, hon] at hs
      obtain ⟨m, s', hy, hpending, hholds', hqueue, hidx⟩ :=
        ih (l := l.pass) hs hi (hfed i hi hholds) hlt
      refine ⟨m, s', ?_, hpending, hholds', ?_, ?_⟩
      · rw [hy, Nat.add_assoc, Nat.add_comm 1 n]
      · rw [hqueue, Local.queue_pass hq, hq, List.rotate_cons_succ]
      · omega

/-- Where a call stands after some of its actions, if the input has a row throughout. -/
inductive Calling (l : Local) (i : Nat) : Nat → Stand → Prop
  | begun (s : Shared) : Calling l i 0 (getRow, l, s)
  | entered (s : Shared) : Calling l i 1 (receive .start answered, l, s)
  | looking {n : Nat} {m : Local} (s : Shared) (hpending : m.pending = l.pending)
      (hqueue : m.queue = l.queue.rotate n) (hidx : m.queue.idxOf i + n = l.queue.idxOf i) :
      Calling l i (n + 2) (receive (.looking n) answered, m, s)

theorem SeeksFor.calling (h : SeeksFor n (getRow, l, s) x) (hi : i ∈ l.pending)
    (hholds : s.holds i = true) : Calling l i n x := by
  cases h with
  | here => exact .begun s
  | @on n _ y _ hmark hs =>
    obtain ⟨p, m, s₁⟩ := y
    have hp : p = _ := hmark.program
    have hm : m = l := hmark.own
    subst hp hm
    have hholds₁ : s₁.holds i = true := hmark.fed i hi hholds
    cases hs with
    | here => exact .entered s₁
    | @on n _ z _ hstart hs =>
      obtain ⟨q, m', s₂⟩ := z
      have hgo : (s₁.control.stopped || m.pending.isEmpty) = false := by
        have hne : m.pending.isEmpty = false := by
          rw [List.isEmpty_eq_false_iff]
          exact List.ne_nil_of_mem hi
        rw [hne, Bool.or_false]
        exact hstart.calm.goesOn
      have hadvance : advance (receive .start answered, m, s₁) =
          (receive (.looking 0) answered, m, s₁) := by
        simp only [advance, step, hgo, Bool.false_eq_true, if_false]
      have hq : q = _ := hstart.program.trans (congrArg Prod.fst hadvance)
      have hm' : m' = m := hstart.own.trans (congrArg (·.2.1) hadvance)
      subst hq hm'
      have hholds₂ : s₂.holds i = true := by
        refine hstart.fed i hi ?_
        show (advance (receive .start answered, m', s₁)).2.2.holds i = true
        rw [hadvance]
        exact hholds₁
      have hseen : 0 + m'.queue.idxOf i < m'.pending.length := by
        have hlt := List.idxOf_lt_length_of_mem (Local.mem_queue.mpr hi)
        rwa [Local.queue, List.length_rotate, ← Local.queue, ← Nat.zero_add (List.idxOf _ _)] at hlt
      obtain ⟨m, s', rfl, hpending, -, hqueue, hidx⟩ := hs.looking hi hholds₂ hseen
      rw [Nat.zero_add]
      exact .looking s' hpending hqueue hidx

/-- What is read is at the head of the queue, and goes to its end. -/
theorem Calling.taking {l' : Local} (h : Calling l i n x) (ht : Taking x j l') :
    ∃ rest k, l.queue.rotate k = j :: rest ∧ l'.queue = rest ++ [j] ∧ l'.pending = l.pending ∧
      (j :: rest).idxOf i + k = l.queue.idxOf i := by
  obtain ⟨row, s', hdeed, hlast⟩ := ht.takes
  cases h with
  | begun s => cases hdeed
  | entered s => cases hdeed
  | @looking k m s hpending hqueue hidx =>
    cases hq : m.queue with
    | nil =>
      have hplace : m.pending[m.place]? = none := by
        rw [← Local.head?_queue, hq]
        rfl
      simp only [deed?, lookDeed?, hplace] at hdeed
      cases hdeed
    | cons j' rest =>
      rcases ht.calm.looked hq with ⟨row', s'', hy, hlook⟩ | ⟨hb, hlook⟩
      · rw [deed?_looking hq answered k (by rw [hlook])] at hdeed
        cases hdeed
        have hfirst : advance (receive (.looking k) answered, m, s) =
            (answered (some row), m.taken row, s'') := by
          simp only [advance, step, hlook]
        have htaken : (done (some row), m.taken row, s'') = (done (some row), l', s') := by
          rw [← hlast, Function.iterate_succ_apply, hfirst]
          rfl
        cases htaken
        refine ⟨rest, k, hqueue ▸ hq, Local.queue_pass hq, hpending, ?_⟩
        rw [← hq]
        exact hidx
      · have hnone : (receive (.looking k) answered).deed? m s = none :=
          lookDeed?_of_ne_row hlook (by simp)
        rw [hnone] at hdeed
        cases hdeed

/-- An input that has a row and is not read comes nearer to the head of the queue. -/
theorem Reads.nearer (h : Reads l s j l') (hi : i ∈ l.pending) (hholds : s.holds i = true)
    (hne : j ≠ i) : l'.pending = l.pending ∧ l'.queue.idxOf i < l.queue.idxOf i := by
  obtain ⟨n, x, hseeks, htaking⟩ := h
  obtain ⟨rest, k, hq, hqueue, hpending, hidx⟩ := (hseeks.calling hi hholds).taking htaking
  refine ⟨hpending, ?_⟩
  have hmem : i ∈ j :: rest := by
    rw [← hq, List.mem_rotate]
    exact Local.mem_queue.mpr hi
  have hturn := idxOf_turn hmem hne
  rw [hqueue]
  omega

/-- If the input at the head of the queue has a row, it is the one that is read. -/
theorem Reads.head (h : Reads l s j l') (hq : l.queue = i :: rest) (hholds : s.holds i = true) :
    j = i ∧ l'.pending = l.pending ∧ l'.queue = rest ++ [i] := by
  obtain ⟨n, x, hseeks, htaking⟩ := h
  have hi : i ∈ l.pending := Local.mem_queue.mp (hq ▸ List.mem_cons_self)
  obtain ⟨rest', k, hq', hqueue, hpending, hidx⟩ := (hseeks.calling hi hholds).taking htaking
  rw [hq, List.idxOf_cons_self] at hidx
  have hk : k = 0 := by omega
  rw [hk, List.rotate_zero, hq] at hq'
  cases hq'
  exact ⟨rfl, hpending, hqueue⟩

theorem queue_congr {m : Local} (hpending : m.pending = l.pending) (hcursor : m.cursor = l.cursor) :
    m.queue = l.queue := by
  rw [Local.queue, Local.queue, hpending, hcursor]

/-- An input with a row throughout is read by the time that all in front of it can have been. -/
theorem Calls.mem {ss : List Shared} {is : List Nat} (h : Calls l ss is) (hi : i ∈ l.pending)
    (hholds : ∀ s ∈ ss, s.holds i = true) (hidx : l.queue.idxOf i < ss.length) : i ∈ is := by
  induction h with
  | none l => exact absurd hidx (Nat.not_lt_zero _)
  | @call l l' m s ss j is h hpending hcursor hs ih =>
    by_cases hne : j = i
    · exact hne ▸ List.mem_cons_self
    · obtain ⟨hpending', hlt⟩ := h.nearer hi (hholds s List.mem_cons_self) hne
      refine List.mem_cons_of_mem _
        (ih ?_ (fun s' hs' => hholds s' (List.mem_cons_of_mem s hs')) ?_)
      · rwa [hpending, hpending']
      · rw [queue_congr hpending hcursor]
        rw [List.length_cons] at hidx
        omega

/-- If all inputs have rows throughout, they are read in the order of the queue. -/
theorem Calls.eq_take {ss : List Shared} {is : List Nat} (h : Calls l ss is)
    (hholds : ∀ s ∈ ss, ∀ i ∈ l.pending, s.holds i = true)
    (hlength : ss.length ≤ l.pending.length) :
    is = l.queue.take ss.length := by
  induction h with
  | none l => rfl
  | @call l l' m s ss j is h hpending hcursor hs ih =>
    rw [List.length_cons] at hlength
    obtain ⟨i, rest, hq⟩ : ∃ i rest, l.queue = i :: rest := by
      refine List.exists_cons_of_ne_nil fun hnil => ?_
      rw [List.rotate_eq_nil_iff.mp hnil] at hlength
      exact absurd hlength (Nat.not_succ_le_zero _)
    have hi : i ∈ l.pending := Local.mem_queue.mp (hq ▸ List.mem_cons_self)
    obtain ⟨rfl, hpending', hqueue⟩ := h.head hq (hholds s List.mem_cons_self i hi)
    have hrest : is = (rest ++ [j]).take ss.length := by
      rw [← hqueue, ← queue_congr hpending hcursor]
      refine ih (fun s' hs' i' hi' => ?_) ?_
      · rw [hpending, hpending'] at hi'
        exact hholds s' (List.mem_cons_of_mem s hs') i' hi'
      · rw [hpending, hpending']
        omega
    have hle : ss.length ≤ rest.length := by
      have hlength' : l.queue.length = l.pending.length := List.length_rotate ..
      rw [hq, List.length_cons] at hlength'
      omega
    rw [hrest, hq, List.length_cons, List.take_succ_cons, List.take_append_of_le_length hle]

/-- Nobody is left out of as many calls as there are inputs, and no call goes on for long. -/
structure Unstarved (l : Local) (ss : List Shared) (is : List Nat) : Prop where
  reads : ∀ i ∈ l.pending, (∀ s ∈ ss, s.holds i = true) → i ∈ is
  once : (∀ s ∈ ss, ∀ i ∈ l.pending, s.holds i = true) → is.Perm l.pending
  prompt : ∀ s, (∃ i ∈ l.pending, s.holds i = true) →
    ∀ n x, SeeksFor n (getRow, l, s) x → n ≤ l.pending.length + 1

theorem unstarved_of_calls {ss : List Shared} {is : List Nat} (h : Calls l ss is)
    (hlength : ss.length = l.pending.length) : Unstarved l ss is := by
  have hqueue : l.queue.length = l.pending.length := List.length_rotate ..
  constructor
  case reads =>
    intro i hi hholds
    refine h.mem hi hholds ?_
    rw [hlength, ← hqueue]
    exact List.idxOf_lt_length_of_mem (Local.mem_queue.mpr hi)
  case once =>
    intro hholds
    rw [h.eq_take hholds (Nat.le_of_eq hlength), hlength, ← hqueue, List.take_length]
    exact List.rotate_perm ..
  case prompt =>
    rintro s ⟨i, hi, hholds⟩ n x hseeks
    cases hseeks.calling hi hholds with
    | begun s => omega
    | entered s => omega
    | looking s _ _ hidx =>
      have hlt := List.idxOf_lt_length_of_mem (Local.mem_queue.mpr hi)
      omega

/-- Such a call there is, whenever the input at the head of the queue has a row. -/
theorem reads_of_yields {row : Row} (hcalm : Calm l s) (hq : l.queue = i :: rest)
    (hy : s.Yields i row s') : Reads l s i (l.taken row) := by
  have hgo : (s.control.stopped || l.pending.isEmpty) = false := by
    have hne : l.pending ≠ [] := List.ne_nil_of_mem (Local.mem_queue.mp (hq ▸ List.mem_cons_self))
    rw [hcalm.goesOn, List.isEmpty_eq_false_iff.mpr hne]
    rfl
  have hstart : advance (receive .start answered, l, s) =
      (receive (.looking 0) answered, l, s) := by
    simp only [advance, step, hgo, Bool.false_eq_true, if_false]
  have hlook : look l s = (s', .row row) := by rw [look_of_queue hq, hy.poll]
  have hlast : advance (receive (.looking 0) answered, l, s) =
      (answered (some row), l.taken row, s') := by
    simp only [advance, step, hlook]
  refine ⟨2, (receive (.looking 0) answered, l, s),
    .on (y := (receive .start answered, l, s)) ⟨hcalm, ?_, rfl, rfl, fun _ _ h => h⟩
      (.on ⟨hcalm, ?_, ?_, ?_, fun _ _ h => ?_⟩ (.here _)), hcalm, row, s', ?_, ?_⟩
  · exact fun i row h => by cases h
  · exact fun i row h => by cases h
  · rw [hstart]
  · rw [hstart]
  · rwa [hstart] at h
  · exact deed?_looking hq answered 0 (by rw [hlook])
  · rw [Function.iterate_succ_apply, hlast]
    rfl

def blank : Row := ⟨⟨[]⟩, [], rfl⟩

def pair : Local :=
  { info := { name := "merge" }, inputs := [0, 1], pending := [0, 1], cursor := 1 }

def pairShared (first second : List Row) : Shared where
  rowSets := [{ name := "first", capacity := 2, buffer := first },
    { name := "second", capacity := 2, buffer := second }]

theorem calm_pair {m : Local} (hm : m.pending = [0, 1]) (first second : List Row) :
    Calm m (pairShared first second) where
  goesOn := rfl
  lasting i hi hdone := by
    have hplace : i = 0 ∨ i = 1 := by simpa [hm] using hi
    rcases hplace with rfl | rfl
    · exact Bool.false_ne_true (hdone _ rfl)
    · exact Bool.false_ne_true (hdone _ rfl)

theorem calls_pair :
    Calls pair [pairShared [blank] [blank], pairShared [blank] [blank, blank]] [1, 0] :=
  .call (reads_of_yields (calm_pair rfl _ _) rfl ⟨_, _, rfl, rfl, rfl⟩) rfl rfl
    (.call (reads_of_yields (calm_pair rfl _ _) rfl ⟨_, _, rfl, rfl, rfl⟩) rfl rfl (.none _))

theorem unstarved_of_calls_pair :
    Calls pair [pairShared [blank] [blank], pairShared [blank] [blank, blank]] [1, 0] ∧
      Unstarved pair [pairShared [blank] [blank], pairShared [blank] [blank, blank]] [1, 0] :=
  ⟨calls_pair, unstarved_of_calls calls_pair rfl⟩

end Turns
end RowFlow
