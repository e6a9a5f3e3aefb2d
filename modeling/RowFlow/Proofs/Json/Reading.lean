import RowFlow.Proofs.Json.Lexing
import RowFlow.Json.Reader

/-
Every value is read back from its text, in one line or with an item to a line.  The
reader keeps its own stack, so what is shown of a value is that its tokens take the
reader past it whatever brackets are open: from a state in which a value has to follow
to the one in which that value is complete.
-/
namespace RowFlow
namespace Json

/-- Values that can be told from their text: nothing in them is `other`. -/
inductive Plain : Json → Prop
  | null : Plain .null
  | bool (b : Bool) : Plain (.bool b)
  | integer (n : Int) : Plain (.integer n)
  | string (s : String) : Plain (.string s)
  | array {items : List Json} (h : ∀ v ∈ items, Plain v) : Plain (.array items)
  | object {members : List (String × Json)} (h : ∀ m ∈ members, Plain m.2) :
    Plain (.object members)

/-- Reading each of what was written gives back what was there. -/
theorem mapM_map_eq_some {α β : Type} {write : α → β} {read : β → Option α} {as : List α}
    (h : ∀ a ∈ as, read (write a) = some a) : (as.map write).mapM read = some as := by
  induction as with
  | nil => rfl
  | cons a as ih =>
    obtain ⟨ha, has⟩ := List.forall_mem_cons.mp h
    simp [ha, ih has, -List.mapM_map]

theorem ofMembers_named (ms : List (String × Json)) :
    ofMembers (ms.map fun m => (some m.1, m.2)) = object ms := by
  rw [ofMembers, mapM_map_eq_some]
  exact fun _ _ => rfl

namespace Reading

/-- A value is read from its tokens, whatever brackets are open. -/
def Reads (v : Json) : Prop :=
  ∀ frames, v.tokens.foldlM step (value frames) = some (complete v frames)

/-- The first item of a list is read like any other value. -/
theorem foldlM_items (v : Json) (frames : List Frame) :
    v.tokens.foldlM step (items frames) = v.tokens.foldlM step (value (.array [] :: frames)) := by
  cases v with
  | array vs => cases vs <;> rfl
  | object ms => cases ms <;> rfl
  | _ => rfl

/-- The rest of a list, after an item. -/
theorem foldlM_itemTokens {vs : List Json} (h : ∀ v ∈ vs, Reads v) (v : Json)
    (before : List Json) (frames : List Frame) :
    (itemTokens vs ++ [Token.closeArray]).foldlM step (complete v (.array before :: frames)) =
      some (complete (.array (before.reverse ++ v :: vs)) frames) := by
  induction vs generalizing v before with
  | nil => simp [itemTokens, step]
  | cons w vs ih =>
    obtain ⟨hw, hvs⟩ := List.forall_mem_cons.mp h
    show (w.tokens ++ itemTokens vs ++ [Token.closeArray]).foldlM step
      (value (.array (v :: before) :: frames)) = _
    rw [List.append_assoc, List.foldlM_append, hw, Option.bind_eq_bind, Option.bind_some,
      ih hvs w (v :: before)]
    simp

/-- The rest of an object, after a member. -/
theorem foldlM_memberTokens {ms : List (String × Json)} (h : ∀ m ∈ ms, Reads m.2) (k : String)
    (v : Json) (before : List (Option String × Json)) (frames : List Frame) :
    (memberTokens ms ++ [Token.closeObject]).foldlM step
        (complete v (.object before (some k) :: frames)) =
      some (complete (ofMembers (before.reverse ++ ((k, v) :: ms).map fun m => (some m.1, m.2)))
        frames) := by
  induction ms generalizing k v before with
  | nil => simp [memberTokens, step]
  | cons m ms ih =>
    obtain ⟨hm, hms⟩ := List.forall_mem_cons.mp h
    show (m.2.tokens ++ memberTokens ms ++ [Token.closeObject]).foldlM step
      (value (.object ((some k, v) :: before) (some m.1) :: frames)) = _
    rw [List.append_assoc, List.foldlM_append, hm, Option.bind_eq_bind, Option.bind_some,
      ih hms m.1 m.2 ((some k, v) :: before)]
    simp

theorem reads_of_plain {v : Json} (h : v.Plain) : Reads v := by
  induction h with
  | null => intro frames; rfl
  | bool b => intro frames; rfl
  | integer n => intro frames; rfl
  | string s => intro frames; rfl
  | @array items _ ih =>
    intro frames
    cases items with
    | nil => rfl
    | cons v vs =>
      obtain ⟨hv, hvs⟩ := List.forall_mem_cons.mp ih
      show (v.tokens ++ itemTokens vs ++ [Token.closeArray]).foldlM step (.items frames) = _
      rw [List.append_assoc, List.foldlM_append, foldlM_items, hv, Option.bind_eq_bind,
        Option.bind_some, foldlM_itemTokens hvs v []]
      rfl
  | @object members _ ih =>
    intro frames
    cases members with
    | nil => rfl
    | cons m ms =>
      obtain ⟨hm, hms⟩ := List.forall_mem_cons.mp ih
      show (m.2.tokens ++ memberTokens ms ++ [Token.closeObject]).foldlM step
        (value (.object [] (some m.1) :: frames)) = _
      rw [List.append_assoc, List.foldlM_append, hm, Option.bind_eq_bind, Option.bind_some,
        foldlM_memberTokens hms m.1 m.2 []]
      exact congrArg (fun v => some (complete v frames)) (ofMembers_named (m :: ms))

end Reading

/-- A value is read back from its text. -/
theorem parse?_print {l : Layout} (hl : l.Blank) {v : Json} (hv : v.Plain) :
    parse? (v.print l 0) = some v := by
  have hlex := lex_print hl v 0 [] (by intro c hc; cases hc)
  simp only [List.append_nil, Token.lex, Option.map_some] at hlex
  simp [parse?, hlex, ofTokens?, Reading.reads_of_plain hv [], Reading.result?]

end Json
end RowFlow
