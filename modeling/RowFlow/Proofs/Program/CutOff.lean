import RowFlow.Copy.Basic

/-
Code that need not end.  A behaviour is a finite tree, so code that asks for rows until there
are none is no behaviour: nothing says how often it asks.  Such code is given by its places
and by what it does at each (`Code`).  Cut off after so many requests it is a behaviour
(`Code.cutOff`), and up to there the two have the same courses (`comes_cutOff_iff`).

As programs, two behaviours cut off late enough do the same for any given number of actions.
`p.Agrees n p'` says of two programs that they cannot be told apart by their first `n`
actions; each step takes one off (`Agrees.step`).
-/
namespace RowFlow

/-- At each place the code is done, or it asks for something and goes on from the answer. -/
structure Code (α : Type) where
  Place : Type
  start : Place
  next : Place → α ⊕ (q : Request) × (q.Answer → Place)

abbrev Exchange : Type := (q : Request) × q.Answer

namespace Code

variable {α : Type} (c : Code α)

/-- The code from a place on, with `a` in the place of what it comes to after `n` requests. -/
def cutOff (a : α) : Nat → c.Place → Behaviour α
  | 0, s =>
    match c.next s with
    | .inl b => .done b
    | .inr _ => .done a
  | n + 1, s =>
    match c.next s with
    | .inl b => .done b
    | .inr ⟨q, next⟩ => .ask q fun v => cutOff a n (next v)

inductive Comes : c.Place → List Exchange → c.Place → Prop
  | refl (s : c.Place) : Comes s [] s
  | ask {s s' : c.Place} {q : Request} {next : q.Answer → c.Place} {v : q.Answer}
      {past : List Exchange} (h : c.next s = .inr ⟨q, next⟩) (hrest : Comes (next v) past s') :
      Comes s (⟨q, v⟩ :: past) s'

variable {c} {a b : α} {n : Nat} {s : c.Place}

theorem cutOff_of_done (h : c.next s = .inl b) (a : α) (n : Nat) :
    c.cutOff a n s = .done b := by
  cases n <;> simp [cutOff, h]

theorem cutOff_of_ask {q : Request} {next : q.Answer → c.Place} (h : c.next s = .inr ⟨q, next⟩)
    (a : α) (n : Nat) : c.cutOff a (n + 1) s = .ask q fun v => c.cutOff a n (next v) := by
  simp [cutOff, h]

end Code

namespace Behaviour

variable {α : Type}

inductive Comes : Behaviour α → List Exchange → Behaviour α → Prop
  | refl (b : Behaviour α) : Comes b [] b
  | ask {q : Request} {next : q.Answer → Behaviour α} {v : q.Answer} {past : List Exchange}
      {b : Behaviour α} (h : Comes (next v) past b) : Comes (.ask q next) (⟨q, v⟩ :: past) b

theorem comes_nil_iff {b b' : Behaviour α} : b.Comes [] b' ↔ b' = b := by
  constructor
  · intro h
    cases h
    rfl
  · rintro rfl
    exact .refl _

end Behaviour

namespace Code

variable {α : Type} {c : Code α} {a : α}

/-- As long as it has not been cut off, code has the courses that it has when it is cut off
later. -/
theorem comes_cutOff_iff {past : List Exchange} {n : Nat} (hle : past.length ≤ n) {s : c.Place}
    {b : Behaviour α} : (c.cutOff a n s).Comes past b ↔
      ∃ s', c.Comes s past s' ∧ b = c.cutOff a (n - past.length) s' := by
  induction past generalizing n s with
  | nil =>
    rw [Behaviour.comes_nil_iff]
    constructor
    · rintro rfl
      exact ⟨s, .refl s, rfl⟩
    · rintro ⟨s', h, rfl⟩
      cases h
      rfl
  | cons e past ih =>
    obtain ⟨n, rfl⟩ : ∃ m, n = m + 1 := ⟨n - 1, by simp at hle; omega⟩
    have hle' : past.length ≤ n := by simpa using hle
    have hlength : n + 1 - (e :: past).length = n - past.length := by simp
    rw [hlength]
    constructor
    · intro h
      cases hnext : c.next s with
      | inl b' =>
        rw [cutOff_of_done hnext] at h
        cases h
      | inr e =>
        obtain ⟨q, next⟩ := e
        rw [cutOff_of_ask hnext] at h
        cases h with
        | ask h =>
          obtain ⟨s', hcomes, hb⟩ := (ih hle').mp h
          exact ⟨s', .ask hnext hcomes, hb⟩
    · rintro ⟨s', h, rfl⟩
      cases h with
      | ask hnext hrest =>
        rw [cutOff_of_ask hnext]
        exact .ask ((ih hle').mpr ⟨s', hrest, rfl⟩)

/-- Code comes to its end by just the courses by which it does so when it is cut off later. -/
theorem ends_cutOff_iff {past : List Exchange} {n : Nat} (hlt : past.length < n) {s : c.Place}
    {b : α} : (c.cutOff a n s).Comes past (.done b) ↔
      ∃ s', c.Comes s past s' ∧ c.next s' = .inl b := by
  rw [comes_cutOff_iff (Nat.le_of_lt hlt)]
  refine exists_congr fun s' => and_congr_right fun _ => ?_
  obtain ⟨m, hm⟩ : ∃ m, n - past.length = m + 1 := ⟨n - past.length - 1, by omega⟩
  rw [hm]
  cases hnext : c.next s' with
  | inl b' =>
    rw [cutOff_of_done hnext]
    simp [eq_comm]
  | inr e =>
    obtain ⟨q, next⟩ := e
    rw [cutOff_of_ask hnext]
    simp

/-- Takes rows until there are none. -/
def drain : Code (Unit × Ending Bool) where
  Place := Bool
  start := true
  next
    | true => .inr ⟨.getRow, Option.isSome⟩
    | false => .inl ((), .returned (.ok false))

/-- However many rows there are, the code takes them all if it is cut off later. -/
theorem comes_drain (rows : List Row) {n : Nat} (hlt : rows.length + 1 < n)
    (a : Unit × Ending Bool) : (drain.cutOff a n drain.start).Comes
      (rows.map (fun row => ⟨.getRow, some row⟩) ++ [⟨.getRow, none⟩])
      (.done ((), .returned (.ok false))) := by
  refine (ends_cutOff_iff (by simpa using hlt)).mpr ⟨false, ?_, rfl⟩
  clear hlt
  induction rows with
  | nil => exact .ask rfl (.refl _)
  | cons row rest ih => exact .ask rfl ih

end Code

namespace Program

variable {α β : Type}

/-- The programs do the same as far as their first `n` actions go. -/
inductive Agrees : Nat → Program α → Program α → Prop
  | unseen (p p' : Program α) : Agrees 0 p p'
  | done {n : Nat} (a : α) : Agrees (n + 1) (.done a) (.done a)
  | act {n : Nat} {a : Action} {next next' : a.Answer → Program α}
      (h : ∀ v, Agrees n (next v) (next' v)) : Agrees (n + 1) (.act a next) (.act a next')
  | receive {n : Nat} (scan : Scan) {next next' : Option Row → Program α}
      (h : ∀ v, Agrees n (next v) (next' v)) :
      Agrees (n + 1) (.receive scan next) (.receive scan next')
  | deliver {n : Nat} (i : Nat) (row : Row) (refused : Bool)
      {next next' : Except Fault Delivery → Program α} (h : ∀ v, Agrees n (next v) (next' v)) :
      Agrees (n + 1) (.deliver i row refused next) (.deliver i row refused next')

namespace Agrees

variable {n k : Nat} {p p' : Program α} {l : Local} {s : Shared}

theorem refl (n : Nat) (p : Program α) : p.Agrees n p := by
  induction p generalizing n with
  | done a => cases n with
    | zero => exact .unseen _ _
    | succ n => exact .done a
  | act a next ih => cases n with
    | zero => exact .unseen _ _
    | succ n => exact .act fun v => ih v n
  | receive scan next ih => cases n with
    | zero => exact .unseen _ _
    | succ n => exact .receive scan fun v => ih v n
  | deliver i row refused next ih => cases n with
    | zero => exact .unseen _ _
    | succ n => exact .deliver i row refused fun v => ih v n

theorem mono (h : p.Agrees n p') (hle : k ≤ n) : p.Agrees k p' := by
  induction h generalizing k with
  | unseen p p' =>
    obtain rfl := Nat.le_zero.mp hle
    exact .unseen p p'
  | done a => exact refl k _
  | act h ih => cases k with
    | zero => exact .unseen _ _
    | succ k => exact .act fun v => ih v (Nat.le_of_succ_le_succ hle)
  | receive scan h ih => cases k with
    | zero => exact .unseen _ _
    | succ k => exact .receive scan fun v => ih v (Nat.le_of_succ_le_succ hle)
  | deliver i row refused h ih => cases k with
    | zero => exact .unseen _ _
    | succ k => exact .deliver i row refused fun v => ih v (Nat.le_of_succ_le_succ hle)

theorem bind (h : p.Agrees n p') {f f' : α → Program β} (hf : ∀ a, (f a).Agrees n (f' a)) :
    (p >>= f).Agrees n (p' >>= f') := by
  show (p.bind f).Agrees n (p'.bind f')
  induction h with
  | unseen p p' => exact .unseen _ _
  | done a => exact hf a
  | act h ih => exact .act fun v => ih v fun a => (hf a).mono (Nat.le_succ _)
  | receive scan h ih => exact .receive scan fun v => ih v fun a => (hf a).mono (Nat.le_succ _)
  | deliver i row refused h ih =>
    exact .deliver i row refused fun v => ih v fun a => (hf a).mono (Nat.le_succ _)

/-- What follows a program is seen later, if the program does anything. -/
theorem bind_of_not_done (hp : p.isDone = false) {f f' : α → Program β}
    (hf : ∀ a, (f a).Agrees n (f' a)) : (p.bind f).Agrees (n + 1) (p.bind f') := by
  cases p with
  | done a => cases hp
  | act a next => exact .act fun v => (refl n (next v)).bind hf
  | receive scan next => exact .receive scan fun v => (refl n (next v)).bind hf
  | deliver i row refused next => exact .deliver i row refused fun v => (refl n (next v)).bind hf

theorem scanOn {next next' : Option Row → Program α} (h : ∀ v, (next v).Agrees n (next' v))
    (seen : Nat) (l : Local) :
    (Program.scanOn seen l next).Agrees n (Program.scanOn seen l next') := by
  have hagain : ∀ scan, (Program.receive scan next).Agrees n (.receive scan next') :=
    fun scan => (receive scan h).mono (Nat.le_succ _)
  unfold Program.scanOn
  split
  · exact hagain _
  · split
    · exact h none
    · exact hagain _

theorem step_receive {next next' : Option Row → Program α} (h : ∀ v, (next v).Agrees n (next' v))
    (scan : Scan) : ((Program.receive scan next).step l s).1.Agrees n
        ((Program.receive scan next').step l s).1 ∧
      ((Program.receive scan next').step l s).2 = ((Program.receive scan next).step l s).2 := by
  have hagain := fun scan => (receive scan h).mono (Nat.le_succ n)
  cases scan with
  | start =>
    simp only [Program.step]
    split
    · exact ⟨h none, rfl⟩
    · exact ⟨hagain _, rfl⟩
  | looking seen =>
    rcases hx : look l s with ⟨s', row | _ | _⟩
    · simp only [Program.step, hx]
      exact ⟨h _, trivial⟩
    · simp only [Program.step, hx]
      exact ⟨scanOn h _ _, trivial⟩
    · simp only [Program.step, hx]
      exact ⟨scanOn h _ _, trivial⟩
  | waiting =>
    rcases hx : look l s with ⟨s', row | _ | _⟩
    · simp only [Program.step, hx]
      exact ⟨h _, trivial⟩
    · simp only [Program.step, hx]
      exact ⟨hagain _, trivial⟩
    · simp only [Program.step, hx]
      exact ⟨hagain _, trivial⟩

theorem step_deliver {next next' : Except Fault Delivery → Program α}
    (h : ∀ v, (next v).Agrees n (next' v)) (i : Nat) (row : Row) (refused : Bool) :
    ((Program.deliver i row refused next).step l s).1.Agrees n
        ((Program.deliver i row refused next').step l s).1 ∧
      ((Program.deliver i row refused next').step l s).2 =
        ((Program.deliver i row refused next).step l s).2 := by
  have hagain := fun row refused => (deliver i row refused h).mono (Nat.le_succ n)
  cases refused with
  | true =>
    simp only [Program.step]
    split
    · exact ⟨h _, rfl⟩
    · exact ⟨hagain _ _, rfl⟩
  | false =>
    rcases hx : s.offer i row with ⟨s', f | _ | _ | row'⟩
    · simp only [Program.step, hx]
      exact ⟨h _, trivial⟩
    · simp only [Program.step, hx]
      exact ⟨h _, trivial⟩
    · simp only [Program.step, hx]
      exact ⟨h _, trivial⟩
    · simp only [Program.step, hx]
      exact ⟨hagain _ _, trivial⟩

/-- A step of both leads to programs that agree for one action less, and it leads to the same
for everything else. -/
theorem step (h : p.Agrees (n + 1) p') : (p.step l s).1.Agrees n (p'.step l s).1 ∧
    (p'.step l s).2 = (p.step l s).2 := by
  cases h with
  | done a => exact ⟨refl n _, rfl⟩
  | @act _ a next next' h =>
    rcases hx : a.perform l s with ⟨_ | x, l', s'⟩
    · simp only [Program.step, hx]
      exact ⟨(act h).mono (Nat.le_succ _), trivial⟩
    · simp only [Program.step, hx]
      exact ⟨h x, trivial⟩
  | receive scan h => exact step_receive h scan
  | deliver i row refused h => exact step_deliver h i row refused

theorem isDone (h : p.Agrees (n + 1) p') : p'.isDone = p.isDone := by
  cases h <;> rfl

theorem marked {before : Mark} {after : α → Mark} (h : p.Agrees n p') :
    (Program.marked before after p).Agrees n (Program.marked before after p') :=
  (refl n _).bind fun _ => h.bind fun _ => refl n _

end Agrees

/-- Every request takes an action at least. -/
theorem isDone_request (q : Request) : q.program.isDone = false := by
  cases q <;> rfl

/-- Code that is cut off after `n` requests or later does the same for `n` actions. -/
theorem agrees_cutOff {c : Code α} (a a' : α) {n k k' : Nat} (hk : n ≤ k) (hk' : n ≤ k')
    (s : c.Place) : (c.cutOff a k s).program.Agrees n (c.cutOff a' k' s).program := by
  induction n generalizing k k' s with
  | zero => exact .unseen _ _
  | succ n ih =>
    obtain ⟨k, rfl⟩ : ∃ m, k = m + 1 := ⟨k - 1, by omega⟩
    obtain ⟨k', rfl⟩ : ∃ m, k' = m + 1 := ⟨k' - 1, by omega⟩
    cases hnext : c.next s with
    | inl b =>
      rw [Code.cutOff_of_done hnext, Code.cutOff_of_done hnext]
      exact .done b
    | inr e =>
      obtain ⟨q, next⟩ := e
      rw [Code.cutOff_of_ask hnext, Code.cutOff_of_ask hnext]
      exact .bind_of_not_done (isDone_request q) fun v =>
        ih (Nat.le_of_succ_le_succ hk) (Nat.le_of_succ_le_succ hk') (next v)

end Program
end RowFlow
