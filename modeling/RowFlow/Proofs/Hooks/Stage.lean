import RowFlow.Copy.Basic
import RowFlow.Proofs.Program.Frame

/-
The order in which a step copy calls its hooks, as a machine that reads the marks the
copy passes.  `stage?` is where the marks have led; it is none if a mark came out of
order.  What can be said of marks that came in order is said here once for all: how
the calls follow each other (`calls_of_stage?`), and which result of a call lets
another one follow (`cause_of_process`).
-/
namespace RowFlow

def Deed.mark? : Deed → Option Mark
  | mark m => some m
  | _ => none

def Mark.hook? : Mark → Option Hook
  | enter h => some h
  | _ => none

def marks (past : List Deed) : List Mark := past.reverse.filterMap Deed.mark?

def calls (past : List Deed) : List Hook := (marks past).filterMap Mark.hook?

@[simp] theorem marks_nil : marks [] = [] := rfl

@[simp] theorem marks_cons (d : Deed) (past : List Deed) :
    marks (d :: past) = marks past ++ d.mark?.toList := by
  rw [marks, List.reverse_cons, List.filterMap_append, ← marks]
  cases d <;> rfl

@[simp] theorem calls_cons (d : Deed) (past : List Deed) :
    calls (d :: past) = calls past ++ (d.mark?.bind Mark.hook?).toList := by
  rw [calls, marks_cons, List.filterMap_append, ← calls]
  rcases d with m | _ | _
  · cases m <;> rfl
  · rfl
  · rfl

inductive Stage where
  | fresh
  | inside (hook : Hook)
  /-- There may be work. -/
  | idle
  /-- The work on a row has failed. -/
  | faulted (row : Row) (d : Diagnostic)
  | routing
  /-- Only the hook for the end is left. -/
  | spent
  | closed

namespace Stage

def afterExit : Hook → Except Fault Bool → Stage
  | .init, .ok _ => idle
  | .process, .ok true => idle
  | .process, .error (.rowFailed row d) => faulted row d
  | .dispose, _ => closed
  | _, _ => spent

def next? : Stage → Mark → Option Stage
  | fresh, .enter .init => some (inside .init)
  | idle, .enter .process => some (inside .process)
  | idle, .enter .dispose => some (inside .dispose)
  | spent, .enter .dispose => some (inside .dispose)
  | faulted _ _, .enter .dispose => some (inside .dispose)
  | faulted row d, .reject row' d' => if row' = row ∧ d' = d then some routing else none
  | routing, .rejectDone (.ok _) => some idle
  | routing, .rejectDone (.error _) => some spent
  | inside _, .enter _ => none
  | inside h, .exit h' r => if h' = h then some (afterExit h r) else none
  | inside h, _ => some (inside h)
  | _, _ => none

def run? (st : Stage) (ms : List Mark) : Option Stage := ms.foldlM next? st

theorem run?_append (st : Stage) (xs ys : List Mark) :
    st.run? (xs ++ ys) = (st.run? xs).bind (·.run? ys) := List.foldlM_append

@[simp] theorem run?_cons (st : Stage) (m : Mark) (ms : List Mark) :
    st.run? (m :: ms) = (st.next? m).bind (·.run? ms) := rfl

def stage? (past : List Deed) : Option Stage := fresh.run? (marks past)

theorem stage?_cons (d : Deed) (past : List Deed) :
    stage? (d :: past) = match d.mark? with
      | none => stage? past
      | some m => (stage? past).bind (·.next? m) := by
  rw [stage?, marks_cons, run?_append, ← stage?]
  cases d.mark? with
  | none =>
    show (stage? past).bind some = _
    simp
  | some m =>
    show (stage? past).bind (fun st => (st.next? m).bind some) = _
    simp

theorem next?_inside {h : Hook} {m : Mark} (hm : m.Inner) :
    (inside h).next? m = some (inside h) := by
  cases m <;> first | rfl | exact absurd hm id

def Called : Stage → List Hook → Prop
  | fresh, cs => cs = []
  | inside .init, cs => cs = [.init]
  | inside .process, cs => ∃ n, cs = .init :: List.replicate (n + 1) .process
  | inside .dispose, cs => ∃ n, cs = .init :: List.replicate n .process ++ [.dispose]
  | closed, cs => ∃ n, cs = .init :: List.replicate n .process ++ [.dispose]
  | _, cs => ∃ n, cs = .init :: List.replicate n .process

theorem called_afterExit {h : Hook} {cs : List Hook} (hcs : (inside h).Called cs)
    (r : Except Fault Bool) : (afterExit h r).Called cs := by
  cases h with
  | init =>
    cases r with
    | error f => exact ⟨0, hcs⟩
    | ok more => exact ⟨0, hcs⟩
  | process =>
    obtain ⟨n, rfl⟩ := hcs
    match r with
    | .ok true => exact ⟨n + 1, rfl⟩
    | .ok false => exact ⟨n + 1, rfl⟩
    | .error f => cases f <;> exact ⟨n + 1, rfl⟩
  | dispose => cases r <;> exact hcs

theorem Called.next {st st' : Stage} {m : Mark} {cs : List Hook} (h : st.Called cs)
    (hm : st.next? m = some st') : st'.Called (cs ++ m.hook?.toList) := by
  have same : ∀ {m : Mark}, m.hook? = none → cs ++ m.hook?.toList = cs := fun h => by simp [h]
  have ended : ∀ n, cs = .init :: List.replicate n .process →
      (inside .dispose).Called (cs ++ [.dispose]) := fun n hn => ⟨n, by rw [hn]⟩
  unfold next? at hm
  split at hm
  · cases hm
    show cs ++ [.init] = [.init]
    rw [show cs = [] from h]
    rfl
  · cases hm
    obtain ⟨n, rfl⟩ := h
    exact ⟨n, by simp [Mark.hook?, List.replicate_succ']⟩
  · cases hm
    exact ended _ h.choose_spec
  · cases hm
    exact ended _ h.choose_spec
  · cases hm
    exact ended _ h.choose_spec
  · split at hm
    · cases hm
      rw [same rfl]
      exact h
    · cases hm
  · cases hm
    rw [same rfl]
    exact h
  · cases hm
    rw [same rfl]
    exact h
  · cases hm
  · split at hm
    · cases hm
      rw [same rfl]
      exact called_afterExit h _
    · cases hm
  · next henter _ =>
    cases hm
    have hhook : m.hook? = none := by
      cases m with
      | enter hook => exact absurd rfl (henter hook)
      | _ => rfl
    rw [same hhook]
    exact h
  · cases hm

/-- How the calls of a copy follow each other. -/
theorem called_of_stage? {past : List Deed} {st : Stage} (h : stage? past = some st) :
    st.Called (calls past) := by
  induction past generalizing st with
  | nil =>
    cases h
    rfl
  | cons d past ih =>
    rw [stage?_cons] at h
    rw [calls_cons]
    cases hd : d.mark? with
    | none =>
      rw [hd] at h
      simpa using ih h
    | some m =>
      rw [hd] at h
      obtain ⟨st₀, hst₀, hm⟩ := Option.bind_eq_some_iff.mp h
      exact (ih hst₀).next hm

/-- First the hook for the start, then those for work, and at last the one for the end. -/
theorem calls_prefix {past : List Deed} {st : Stage} (h : stage? past = some st) :
    ∃ n, calls past <+: .init :: List.replicate n .process ++ [.dispose] := by
  have hcalled := called_of_stage? h
  have worked : (∃ n, calls past = .init :: List.replicate n .process) →
      ∃ n, calls past <+: .init :: List.replicate n .process ++ [.dispose] :=
    fun ⟨n, hn⟩ => ⟨n, by rw [hn]; exact List.prefix_append _ _⟩
  have ended : (∃ n, calls past = .init :: List.replicate n .process ++ [.dispose]) →
      ∃ n, calls past <+: .init :: List.replicate n .process ++ [.dispose] :=
    fun ⟨n, hn⟩ => ⟨n, hn ▸ List.prefix_rfl⟩
  cases st with
  | fresh => exact ⟨0, by rw [show calls past = [] from hcalled]; exact List.nil_prefix⟩
  | inside hook =>
    cases hook with
    | init => exact worked ⟨0, hcalled⟩
    | process => exact worked ⟨_, hcalled.choose_spec⟩
    | dispose => exact ended hcalled
  | closed => exact ended hcalled
  | _ => exact worked hcalled

/-- From here no more work is done. -/
def IsSpent : Stage → Prop
  | spent => True
  | inside .dispose => True
  | closed => True
  | _ => False

theorem isSpent_spent : spent.IsSpent := trivial

theorem isSpent_inside_dispose : (inside .dispose).IsSpent := trivial

theorem IsSpent.next {st st' : Stage} {m : Mark} (h : st.IsSpent) (hm : st.next? m = some st') :
    st'.IsSpent ∧ m ≠ .enter .process := by
  cases st with
  | spent =>
    cases m with
    | enter hook =>
      cases hook with
      | dispose => cases hm; exact ⟨trivial, by simp⟩
      | _ => cases hm
    | _ => cases hm
  | inside hook =>
    cases hook with
    | dispose =>
      cases m with
      | enter hook => cases hm
      | exit hook r =>
        simp only [next?, Option.ite_none_right_eq_some, Option.some.injEq] at hm
        obtain ⟨-, rfl⟩ := hm
        cases r <;> exact ⟨trivial, by simp⟩
      | _ => cases hm; exact ⟨trivial, by simp⟩
    | _ => exact absurd h id
  | closed => cases m <;> cases hm
  | _ => exact absurd h id

theorem IsSpent.run {st st' : Stage} {ms : List Mark} (h : st.IsSpent)
    (hms : st.run? ms = some st') : .enter .process ∉ ms := by
  induction ms generalizing st with
  | nil => exact List.not_mem_nil
  | cons m ms ih =>
    obtain ⟨st₁, hm, hrest⟩ := Option.bind_eq_some_iff.mp hms
    obtain ⟨hspent, hne⟩ := h.next hm
    intro hmem
    rcases List.mem_cons.mp hmem with heq | hmem
    · exact hne heq.symm
    · exact ih hspent hrest hmem

theorem IsSpent.last {st st' : Stage} {ms : List Mark} (h : st.IsSpent)
    (hms : st.run? ms = some st') : st'.IsSpent := by
  induction ms generalizing st with
  | nil => exact Option.some.inj hms ▸ h
  | cons m ms ih =>
    obtain ⟨st₁, hm, hrest⟩ := Option.bind_eq_some_iff.mp hms
    exact ih (h.next hm).1 hrest

/-- After the work on a row has failed there is more only if the row went where rejected
rows go. -/
theorem routed_of_process {row : Row} {d : Diagnostic} {ms : List Mark} {st : Stage}
    (h : (faulted row d).run? ms = some st) (hp : .enter .process ∈ ms) :
    [.reject row d, .rejectDone (.ok ())] <+: ms := by
  cases ms with
  | nil => cases hp
  | cons m ms =>
    obtain ⟨st₁, hm, hrest⟩ := Option.bind_eq_some_iff.mp h
    cases m with
    | enter hook =>
      cases hook with
      | dispose =>
        cases hm
        rcases List.mem_cons.mp hp with heq | hp
        · cases heq
        · exact absurd hp (isSpent_inside_dispose.run hrest)
      | _ => cases hm
    | reject row' d' =>
      simp only [next?, Option.ite_none_right_eq_some, Option.some.injEq] at hm
      obtain ⟨⟨rfl, rfl⟩, rfl⟩ := hm
      have hp' : Mark.enter .process ∈ ms := by simpa using hp
      cases ms with
      | nil => cases hp'
      | cons m ms =>
        obtain ⟨st₂, hm, hrest⟩ := Option.bind_eq_some_iff.mp hrest
        cases m with
        | rejectDone r =>
          cases r with
          | ok _ => exact List.prefix_append [_, _] ms
          | error f =>
            cases hm
            rcases List.mem_cons.mp hp' with heq | hp'
            · cases heq
            · exact absurd hp' (isSpent_spent.run hrest)
        | enter hook => cases hook <;> cases hm
        | _ => cases hm
    | _ => cases hm

/-- Work is asked for again only if the hook said that there may be more, or if it failed on a
row that was routed to the error output. -/
theorem cause_of_process {past : List Deed} {st : Stage} (h : stage? past = some st)
    {before after : List Mark} {r : Except Fault Bool}
    (hms : marks past = before ++ .exit .process r :: after) (hp : .enter .process ∈ after) :
    r = .ok true ∨ ∃ row d, r = .error (.rowFailed row d) ∧
      [.reject row d, .rejectDone (.ok ())] <+: after := by
  rw [stage?, hms, run?_append] at h
  obtain ⟨st₁, -, hrest⟩ := Option.bind_eq_some_iff.mp h
  obtain ⟨st₂, hm, hrest⟩ := Option.bind_eq_some_iff.mp hrest
  have hst₂ : st₂ = afterExit .process r := by
    cases st₁ with
    | inside hook =>
      simp only [next?, Option.ite_none_right_eq_some, Option.some.injEq] at hm
      obtain ⟨rfl, rfl⟩ := hm
      rfl
    | _ => cases hm
  subst hst₂
  match r with
  | .ok true => exact .inl rfl
  | .ok false => exact absurd hp (isSpent_spent.run hrest)
  | .error f =>
    cases f with
    | rowFailed row d => exact .inr ⟨row, d, rfl, routed_of_process hrest hp⟩
    | _ => exact absurd hp (isSpent_spent.run hrest)

/-- A copy whose hook for the start has failed is not going to work. -/
theorem isSpent_of_failed {past : List Deed} {st : Stage} (h : stage? past = some st) {f : Fault}
    (hf : .mark (.exit .init (.error f)) ∈ past) : st.IsSpent := by
  have hmem : Mark.exit .init (.error f) ∈ marks past :=
    List.mem_filterMap.mpr ⟨_, List.mem_reverse.mpr hf, rfl⟩
  obtain ⟨before, after, hms⟩ := List.append_of_mem hmem
  rw [stage?, hms, run?_append] at h
  obtain ⟨st₁, -, hrest⟩ := Option.bind_eq_some_iff.mp h
  obtain ⟨st₂, hm, hrest⟩ := Option.bind_eq_some_iff.mp hrest
  have hst₂ : st₂ = spent := by
    cases st₁ with
    | inside hook =>
      simp only [next?, Option.ite_none_right_eq_some, Option.some.injEq] at hm
      obtain ⟨rfl, rfl⟩ := hm
      rfl
    | _ => cases hm
  subst hst₂
  exact isSpent_spent.last hrest

end Stage
end RowFlow
