import RowFlow.Proofs.Program.Steps

/-
Programs under watch.  A watch follows what a copy does, one thing after the other; what
it does not expect has no next state.  It may know that the run is stopped, and what it
knows may come true by what others do, so between two things its state drifts.

`p.Heeds w o Q x` says of a program of a copy that was made as `o` that nothing it does,
begun under watch in state `x`, comes unexpected, and that `Q` holds of what it comes to.
The definition follows the program tree: an action is looked at with each answer that it
can have.  A search that is begun in a stopped run ends without a row.

The rules for composing programs are `Heeds.bind` and `Heeds.mono`; a step of a program
that heeds a watch moves the watch on (`Heeds.goes`).  Code that asks for nothing
unexpected stays where it is (`stays_behaviour`).
-/
namespace RowFlow

structure Watch where
  State : Type
  Next : State → Doing → State → Prop
  /-- What may come true by what others do. -/
  Drift : State → State → Prop
  /-- The run is known to be stopped. -/
  Down : State → Prop

structure Watch.Lawful (w : Watch) : Prop where
  refl : ∀ x, w.Drift x x
  trans : ∀ x y z, w.Drift x y → w.Drift y z → w.Drift x z
  /-- The watch is not mistaken about the run. -/
  right : ∀ {x z d} {p q : Position}, w.Next x d z → d.Leads p q →
    (w.Down x → p.shared.control.stopped = true) → w.Down z → q.shared.control.stopped = true

/-- What the answer to an action can be for a copy that was made as `o`. -/
def Action.Tells (o : Local) (down : Prop) : (a : Action) → a.Answer → Prop
  | .own, l => l.origin = o
  | .isStopped, stopped => down → stopped = true
  | .choose outlet, chosen => ∀ i ∈ chosen, ∃ b ∈ o.branch? outlet, i ∈ b.rowSets
  | _, _ => True

namespace Program

variable {α β : Type} {w : Watch} {o : Local}

def Heeds (w : Watch) (o : Local) (Q : α → w.State → Prop) : Program α → w.State → Prop
  | .done a, x => ∀ y, w.Drift x y → Q a y
  | .act a next, x => ∀ y, w.Drift x y → ∀ v, a.Tells o (w.Down y) v →
    ∃ z, w.Next y (.act a v) z ∧ (next v).Heeds w o Q z
  | .receive scan next, x => ∀ y, w.Drift x y →
    (∃ z, w.Next y .dry z ∧ (next none).Heeds w o Q z) ∧
      ((scan = .start → ¬ w.Down y) → ∀ y', w.Drift y y' → ∀ row,
        ∃ z, w.Next y' (.took row) z ∧ (next (some row)).Heeds w o Q z)
  | .deliver i row _ next, x => ∀ y, w.Drift x y → ∀ r,
    ∃ z, w.Next y (.delivered i row r) z ∧ (next r).Heeds w o Q z

variable {Q Q' : α → w.State → Prop} {p : Program α} {x y : w.State}

theorem Heeds.drift (hw : w.Lawful) (h : p.Heeds w o Q x) (hd : w.Drift x y) :
    p.Heeds w o Q y := by
  cases p with
  | done a => exact fun z hz => h z (hw.trans _ _ _ hd hz)
  | act a next => exact fun z hz => h z (hw.trans _ _ _ hd hz)
  | receive scan next => exact fun z hz => h z (hw.trans _ _ _ hd hz)
  | deliver i row refused next => exact fun z hz => h z (hw.trans _ _ _ hd hz)

/-- What is heeded wherever others have led is heeded here. -/
theorem Heeds.of_drift (hw : w.Lawful) (h : ∀ y, w.Drift x y → p.Heeds w o Q y) :
    p.Heeds w o Q x := by
  cases p with
  | done a => exact fun y hy => h y hy y (hw.refl y)
  | act a next => exact fun y hy => h y hy y (hw.refl y)
  | receive scan next => exact fun y hy => h y hy y (hw.refl y)
  | deliver i row refused next => exact fun y hy => h y hy y (hw.refl y)

theorem Heeds.mono (h : p.Heeds w o Q x) (hQ : ∀ a y, Q a y → Q' a y) : p.Heeds w o Q' x := by
  induction p generalizing x with
  | done a => exact fun y hd => hQ a y (h y hd)
  | act a next ih =>
    intro y hd v hv
    obtain ⟨z, hz, hnext⟩ := h y hd v hv
    exact ⟨z, hz, ih v hnext⟩
  | receive scan next ih =>
    intro y hd
    obtain ⟨⟨z, hz, hnext⟩, htook⟩ := h y hd
    refine ⟨⟨z, hz, ih none hnext⟩, fun hscan y' hd' row => ?_⟩
    obtain ⟨z, hz, hnext⟩ := htook hscan y' hd' row
    exact ⟨z, hz, ih (some row) hnext⟩
  | deliver i row refused next ih =>
    intro y hd r
    obtain ⟨z, hz, hnext⟩ := h y hd r
    exact ⟨z, hz, ih r hnext⟩

theorem Heeds.bind (hw : w.Lawful) {f : α → Program β} {R : β → w.State → Prop}
    (h : p.Heeds w o (fun a y => (f a).Heeds w o R y) x) : (p >>= f).Heeds w o R x := by
  show (p.bind f).Heeds w o R x
  induction p generalizing x with
  | done a => exact .of_drift hw h
  | act a next ih =>
    intro y hd v hv
    obtain ⟨z, hz, hnext⟩ := h y hd v hv
    exact ⟨z, hz, ih v hnext⟩
  | receive scan next ih =>
    intro y hd
    obtain ⟨⟨z, hz, hnext⟩, htook⟩ := h y hd
    refine ⟨⟨z, hz, ih none hnext⟩, fun hscan y' hd' row => ?_⟩
    obtain ⟨z, hz, hnext⟩ := htook hscan y' hd' row
    exact ⟨z, hz, ih (some row) hnext⟩
  | deliver i row refused next ih =>
    intro y hd r
    obtain ⟨z, hz, hnext⟩ := h y hd r
    exact ⟨z, hz, ih r hnext⟩

/-- Where the first program ends the other one goes on. -/
theorem Heeds.chain (hw : w.Lawful) {f : α → Program β} {R : β → w.State → Prop}
    (h : p.Heeds w o Q x) (hf : ∀ a y, Q a y → (f a).Heeds w o R y) : (p >>= f).Heeds w o R x :=
  .bind hw (h.mono hf)

theorem tells_choose {l : Local} {outlet : Outlet} {i : Nat} (hi : i ∈ (l.choose outlet).2) :
    ∃ b ∈ l.origin.branch? outlet, i ∈ b.rowSets := by
  obtain ⟨b, hb, hcurrent⟩ := Option.bind_eq_some_iff.mp hi
  refine ⟨b.origin, ?_, List.mem_of_getElem? hcurrent⟩
  rw [l.branch?_origin, hb]
  rfl

theorem Heeds.goes (hw : w.Lawful) {l l' : Local} {s s' : Shared} {d : Doing}
    {deed : Option Deed} {p' : Program α} (hg : p.Goes l s (some d) deed p' l' s')
    (h : p.Heeds w l.origin Q x) (hdown : w.Down x → s.control.stopped = true) :
    ∃ z, w.Next x d z ∧ p'.Heeds w l.origin Q z := by
  have hx := hw.refl x
  cases hg with
  | @act a next v l' s' ha =>
    refine h x hx v ?_
    cases a with
    | own =>
      cases ha
      rfl
    | isStopped =>
      cases ha
      exact hdown
    | choose outlet =>
      cases ha
      exact fun i hi => tells_choose hi
    | _ => trivial
  | dry pending cursor => exact (h x hx).1
  | took hscan hi hrow => exact (h x hx).2 (fun he => absurd he hscan) x hx _
  | gave ha => exact h x hx _
  | kept hr => exact h x hx _

theorem Heeds.rests (hw : w.Lawful) {l l' : Local} {s s' : Shared} {deed : Option Deed}
    {p' : Program α} (hg : p.Goes l s none deed p' l' s') (h : p.Heeds w l.origin Q x)
    (hdown : w.Down x → s.control.stopped = true) : p'.Heeds w l.origin Q x := by
  cases hg with
  | enter hs =>
    have hup : ¬ w.Down x := fun hd => by
      rw [hdown hd] at hs
      cases hs
    exact fun y hd => ⟨(h y hd).1, fun _ y' hd' =>
      (h x (hw.refl x)).2 (fun _ => hup) y' (hw.trans _ _ _ hd hd')⟩
  | search pending cursor hscan =>
    exact fun y hd => ⟨(h y hd).1, fun _ => (h y hd).2 fun he => absurd he hscan⟩
  | _ => exact h

/-- Such an action has an answer. -/
theorem exists_tells (l : Local) (down : Prop) (a : Action) : ∃ v, a.Tells l.origin down v := by
  cases a with
  | own => exact ⟨l, rfl⟩
  | isStopped => exact ⟨true, fun _ => rfl⟩
  | choose outlet => exact ⟨none, by simp [Action.Tells]⟩
  | add c n => exact ⟨(0 : Nat), trivial⟩
  | close i => exact ⟨true, trivial⟩
  | countErrors n => exact ⟨⟨0, true⟩, trivial⟩
  | countSourceRows n => exact ⟨⟨0, true⟩, trivial⟩
  | raiseFlag => exact ⟨true, trivial⟩
  | _ => exact ⟨(), trivial⟩

/-- A program that heeds a watch is at its end, or about to do something expected. -/
theorem Heeds.exists_next (hw : w.Lawful) {l : Local} (h : p.Heeds w l.origin Q x) :
    (∃ a, p = .done a ∧ Q a x) ∨ ∃ d z, p.node? = some d.node ∧ w.Next x d z := by
  have hx := hw.refl x
  cases p with
  | done a => exact .inl ⟨a, rfl, h x hx⟩
  | act a next =>
    obtain ⟨v, hv⟩ := exists_tells l (w.Down x) a
    obtain ⟨z, hz, -⟩ := h x hx v hv
    exact .inr ⟨.act a v, z, rfl, hz⟩
  | receive scan next =>
    obtain ⟨⟨z, hz, -⟩, -⟩ := h x hx
    exact .inr ⟨.dry, z, rfl, hz⟩
  | deliver i row refused next =>
    obtain ⟨z, hz, -⟩ := h x hx (.ok .dropped)
    exact .inr ⟨.delivered i row (.ok .dropped), z, rfl, hz⟩

end Program

def Watch.Lasts (w : Watch) (H : w.State → Prop) : Prop := ∀ x y, w.Drift x y → H x → H y

namespace Program

variable {α β : Type} {w : Watch} {o : Local} {H : w.State → Prop} {p : Program α}

/-- Wherever `H` holds the program can be run, and it leaves `H` true. -/
def Stays (w : Watch) (o : Local) (H : w.State → Prop) (p : Program α) : Prop :=
  ∀ x, H x → p.Heeds w o (fun _ => H) x

theorem stays_pure (hH : w.Lasts H) (a : α) : (pure a : Program α).Stays w o H :=
  fun x hx y hd => hH x y hd hx

theorem Stays.bind (hw : w.Lawful) {f : α → Program β} (hp : p.Stays w o H)
    (hf : ∀ a, (f a).Stays w o H) : (p >>= f).Stays w o H :=
  fun x hx => (hp x hx).chain hw fun a y hy => hf a y hy

/-- A program of which each part is expected, whatever comes of it. -/
theorem stays_within (hH : w.Lasts H) {allowed : Node → Prop}
    (hnext : ∀ d x, allowed d.node → H x → ∃ y, w.Next x d y ∧ H y) (hp : p.Within allowed) :
    p.Stays w o H := by
  induction p with
  | done a => exact stays_pure hH a
  | act a next ih =>
    intro x hx y hd v _
    obtain ⟨z, hz, hnow⟩ := hnext (.act a v) y hp.1 (hH x y hd hx)
    exact ⟨z, hz, ih v (hp.2 v) z hnow⟩
  | receive scan next ih =>
    intro x hx y hd
    have hy := hH x y hd hx
    obtain ⟨z, hz, hnow⟩ := hnext .dry y hp.1 hy
    refine ⟨⟨z, hz, ih none (hp.2 none) z hnow⟩, fun _ y' hd' row => ?_⟩
    obtain ⟨z, hz, hnow⟩ := hnext (.took row) y' hp.1 (hH y y' hd' hy)
    exact ⟨z, hz, ih (some row) (hp.2 _) z hnow⟩
  | deliver i row refused next ih =>
    intro x hx y hd r
    obtain ⟨z, hz, hnow⟩ := hnext (.delivered i row r) y hp.1 (hH x y hd hx)
    exact ⟨z, hz, ih r (hp.2 r) z hnow⟩

/-- Code of which each request is expected. -/
theorem stays_behaviour (hw : w.Lawful) (hH : w.Lasts H) {allowed : Request → Prop}
    (hq : ∀ q, allowed q → q.program.Stays w o H) {b : Behaviour α} (hb : b.Asks allowed) :
    b.program.Stays w o H := by
  induction b with
  | done a => exact stays_pure hH a
  | ask q next ih => exact (hq q hb.1).bind hw fun v => ih v (hb.2 v)

end Program

/-- A watch that looks at the copy alone: nothing comes true by what others do. -/
def Watch.plain (State : Type) (Next : State → Doing → State → Prop) (Down : State → Prop) :
    Watch where
  State := State
  Next := Next
  Drift := Eq
  Down := Down

section Plain

variable {State : Type} {Next : State → Doing → State → Prop} {Down : State → Prop}

theorem Watch.lawful_plain (right : ∀ {x z d} {p q : Position}, Next x d z → d.Leads p q →
    (Down x → p.shared.control.stopped = true) → Down z → q.shared.control.stopped = true) :
    (plain State Next Down).Lawful where
  refl _ := rfl
  trans _ _ _ h h' := Eq.trans h h'
  right := right

theorem Watch.lasts_plain (H : State → Prop) : (plain State Next Down).Lasts H :=
  fun _ _ hd h => Eq.subst (motive := H) hd h

namespace Program

variable {α β : Type} {o : Local} {x : State} {Q : α → State → Prop} {R : β → State → Prop}

theorem heeds_pure {a : α} (h : Q a x) :
    (pure a : Program α).Heeds (.plain State Next Down) o Q x :=
  fun _ hd => Eq.subst (motive := Q a) hd h

theorem heeds_act {a : Action} {f : a.Answer → Program β}
    (h : ∀ v, a.Tells o (Down x) v →
      ∃ y, Next x (.act a v) y ∧ (f v).Heeds (.plain State Next Down) o R y) :
    (perform a >>= f).Heeds (.plain State Next Down) o R x := by
  rintro _ rfl v hv
  exact h v hv

variable {allowed : Node → Prop} (hskip : ∀ d, allowed d.node → Next x d x)
include hskip

/-- A program that does not concern the watch. -/
theorem heeds_aside {p : Program α} (hp : p.Within allowed) :
    p.Heeds (.plain State Next Down) o (fun _ y => y = x) x := by
  refine stays_within (H := (· = x)) (Watch.lasts_plain _) (fun d y hd hy => ?_) hp x rfl
  subst hy
  exact ⟨y, hskip d hd, rfl⟩

/-- Such a program followed by another one. -/
theorem heeds_skip (hw : (Watch.plain State Next Down).Lawful) {p : Program α}
    {f : α → Program β} (hp : p.Within allowed)
    (hf : ∀ a, (f a).Heeds (.plain State Next Down) o R x) :
    (p >>= f).Heeds (.plain State Next Down) o R x := by
  refine (heeds_aside hskip hp).chain hw fun a y hy => ?_
  cases hy
  exact hf a

end Program

end Plain

end RowFlow
