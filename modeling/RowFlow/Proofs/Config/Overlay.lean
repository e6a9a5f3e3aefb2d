import RowFlow.Config
import RowFlow.Proofs.Text.Numerals

/-
Variables laid over the defaults.  A setting is what its own variable reads as, or the default
if that is not set, whatever the other variables hold (`overlay_eq_ok_iff`).  So settings come
out if all variables are numerals of 64 bits and neither the capacity nor the limit of errors is
zero, and whatever settings are written into variables come back.
-/
namespace RowFlow
namespace Config

open Text

namespace Variable

def all : List String := [queueSize, waitMillis, feedbackSize, maxErrors, rowLimit]

theorem forall_mem_all {P : String → Prop} : (∀ name ∈ all, P name) ↔
    P queueSize ∧ P waitMillis ∧ P feedbackSize ∧ P maxErrors ∧ P rowLimit := by
  simp [all]

/-- What a variable gives, if it is set. -/
inductive Gives : Option String → Option UInt64 → Prop
  | unset : Gives none none
  | set {raw : String} {n : UInt64} (h : Numeral.Reads raw n.toNat) : Gives (some raw) (some n)

/-- The variable holds a setting: it has the decimal text of the number, or it is not set if
there is none. -/
inductive Holds : Option String → Option UInt64 → Prop
  | unset : Holds none none
  | set {raw : String} {n : UInt64} (h : Numeral.Spells raw n.toNat) : Holds (some raw) (some n)

variable {lookup : String → Option String} {name : String} {raw? : Option String}
  {v w : Option UInt64}

theorem Holds.gives (h : Holds raw? v) : Gives raw? v := by
  cases h with
  | unset => exact .unset
  | set h => exact .set (Numeral.reads_of_spells h)

theorem Gives.unique (hv : Gives raw? v) (hw : Gives raw? w) : v = w := by
  cases hv with
  | unset =>
    cases hw
    rfl
  | set hv =>
    cases hw with
    | set hw => rw [UInt64.toNat_inj.mp (hv.unique hw)]

theorem exists_gives_iff :
    (∃ v, Gives raw? v) ↔ ∀ raw, raw? = some raw → ∃ n < UInt64.size, Numeral.Reads raw n := by
  cases raw? with
  | none => exact ⟨fun _ _ h => (by cases h), fun _ => ⟨none, .unset⟩⟩
  | some raw =>
    constructor
    · rintro ⟨v, h⟩ raw' hraw
      cases hraw
      cases h with
      | set h => exact ⟨_, UInt64.toNat_lt_size _, h⟩
    · intro h
      obtain ⟨n, hlt, hn⟩ := h raw rfl
      exact ⟨some (UInt64.ofNat n), .set (by rwa [UInt64.toNat_ofNat_of_lt' hlt])⟩

theorem read_eq_ok_iff : read lookup name = .ok v ↔ Gives (lookup name) v := by
  unfold read
  cases lookup name with
  | none => exact ⟨fun h => (by cases h; exact .unset), fun h => (by cases h; rfl)⟩
  | some raw =>
    simp only
    cases hword : Numeral.word? raw with
    | none =>
      refine iff_of_false (fun h => by cases h) fun h => ?_
      cases h with
      | set h =>
        rw [Numeral.word?_eq_some_iff.mpr h] at hword
        cases hword
    | some n =>
      have hn : Gives (some raw) (some n) := .set (Numeral.word?_eq_some_iff.mp hword)
      constructor
      · intro h
        cases h
        exact hn
      · intro h
        cases hn.unique h
        rfl

/-- A variable gives zero if it is a numeral of zero. -/
theorem Gives.eq_some_zero_iff (h : Gives raw? v) :
    v = some 0 ↔ ∃ raw, raw? = some raw ∧ Numeral.Reads raw 0 := by
  constructor
  · rintro rfl
    cases h with
    | set h => exact ⟨_, rfl, h⟩
  · rintro ⟨raw, rfl, hzero⟩
    exact h.unique (.set hzero)

theorem Gives.getD_eq_zero_iff {default : UInt64} (hdefault : default ≠ 0) (h : Gives raw? v) :
    v.getD default = 0 ↔ ∃ raw, raw? = some raw ∧ Numeral.Reads raw 0 := by
  rw [← h.eq_some_zero_iff]
  cases v with
  | none => exact iff_of_false hdefault nofun
  | some n => exact Option.some_inj.symm

theorem eq_of_gives {n m default : UInt64} (hn : ∃ v, Gives raw? v ∧ n = v.getD default)
    (hm : ∃ v, Gives raw? v ∧ m = v.getD default) : n = m := by
  obtain ⟨v, hv, rfl⟩ := hn
  obtain ⟨w, hw, rfl⟩ := hm
  rw [hv.unique hw]

end Variable

open Variable

/-- Each setting is what its own variable gives, or else the default. -/
structure Overlaid (lookup : String → Option String) (c : Config) : Prop where
  queueSize : ∃ v, Gives (lookup Variable.queueSize) v ∧ c.queueSize = v.getD 100
  waitMillis : ∃ v, Gives (lookup Variable.waitMillis) v ∧ c.waitMillis = v.getD 20
  feedbackSize : ∃ v, Gives (lookup Variable.feedbackSize) v ∧ c.feedbackSize = v.getD 50000
  maxErrors : Gives (lookup Variable.maxErrors) c.maxErrors
  rowLimit : Gives (lookup Variable.rowLimit) c.rowLimit

/-- The variables hold the settings, in decimal. -/
structure Written (c : Config) (lookup : String → Option String) : Prop where
  queueSize : Holds (lookup Variable.queueSize) (some c.queueSize)
  waitMillis : Holds (lookup Variable.waitMillis) (some c.waitMillis)
  feedbackSize : Holds (lookup Variable.feedbackSize) (some c.feedbackSize)
  maxErrors : Holds (lookup Variable.maxErrors) c.maxErrors
  rowLimit : Holds (lookup Variable.rowLimit) c.rowLimit

/-- Every variable that is set is a numeral of 64 bits, and those that must not be zero are not. -/
structure Readable (lookup : String → Option String) : Prop where
  numeral : ∀ name ∈ Variable.all, ∀ raw, lookup name = some raw →
    ∃ n < UInt64.size, Numeral.Reads raw n
  queue : ∀ raw, lookup Variable.queueSize = some raw → ¬ Numeral.Reads raw 0
  errors : ∀ raw, lookup Variable.maxErrors = some raw → ¬ Numeral.Reads raw 0

/-- Settings that come from the same text for a variable are the same. -/
structure Apart (lookup lookup' : String → Option String) (c c' : Config) : Prop where
  queueSize : lookup Variable.queueSize = lookup' Variable.queueSize → c.queueSize = c'.queueSize
  waitMillis :
    lookup Variable.waitMillis = lookup' Variable.waitMillis → c.waitMillis = c'.waitMillis
  feedbackSize : lookup Variable.feedbackSize = lookup' Variable.feedbackSize →
    c.feedbackSize = c'.feedbackSize
  maxErrors : lookup Variable.maxErrors = lookup' Variable.maxErrors → c.maxErrors = c'.maxErrors
  rowLimit : lookup Variable.rowLimit = lookup' Variable.rowLimit → c.rowLimit = c'.rowLimit

variable {lookup lookup' : String → Option String} {c c' : Config}

theorem bind_eq_ok_iff {ε α β : Type} {x : Except ε α} {f : α → Except ε β} {b : β} :
    (x >>= f) = .ok b ↔ ∃ a, x = .ok a ∧ f a = .ok b := by
  cases x with
  | error e => exact ⟨fun h => (by cases h), fun ⟨_, h, _⟩ => (by cases h)⟩
  | ok a => exact ⟨fun h => ⟨a, rfl, h⟩, fun ⟨_, ha, h⟩ => (by cases ha; exact h)⟩

theorem overlay_eq_ok_iff : overlay lookup = .ok c ↔ Overlaid lookup c := by
  simp only [overlay, bind_eq_ok_iff, read_eq_ok_iff]
  constructor
  · rintro ⟨queue, hqueue, wait, hwait, feedback, hfeedback, errors, herrors, limit, hlimit, h⟩
    cases h
    exact ⟨⟨queue, hqueue, rfl⟩, ⟨wait, hwait, rfl⟩, ⟨feedback, hfeedback, rfl⟩, herrors, hlimit⟩
  · rintro ⟨⟨queue, hqueue, hq⟩, ⟨wait, hwait, hw⟩, ⟨feedback, hfeedback, hf⟩, herrors, hlimit⟩
    obtain ⟨queueSize, waitMillis, feedbackSize, maxErrors, rowLimit⟩ := c
    cases hq
    cases hw
    cases hf
    exact ⟨queue, hqueue, wait, hwait, feedback, hfeedback, _, herrors, _, hlimit, rfl⟩

theorem problem?_eq_none_iff : c.problem? = none ↔ c.queueSize ≠ 0 ∧ c.maxErrors ≠ some 0 := by
  unfold problem?
  split
  · next h => simp [h]
  · next h =>
    split
    · next h' => simp [h']
    · next h' => simp [h, h']

theorem validate_eq_ok_iff : c.validate = .ok () ↔ c.problem? = none := by
  unfold validate
  split
  · next p h => simp [h]
  · next h => simp [h]

theorem ofVariables_eq_ok_iff :
    ofVariables lookup = .ok c ↔ Overlaid lookup c ∧ c.problem? = none := by
  rw [← overlay_eq_ok_iff]
  unfold ofVariables
  cases overlay lookup with
  | error p => exact iff_of_false (fun h => by cases h) fun h => by cases h.1
  | ok d =>
    simp only
    cases hd : d.problem? with
    | some p =>
      refine iff_of_false (fun h => by cases h) ?_
      rintro ⟨⟨⟩, hc⟩
      rw [hd] at hc
      cases hc
    | none =>
      constructor
      · rintro ⟨⟩
        exact ⟨rfl, hd⟩
      · rintro ⟨⟨⟩, -⟩
        rfl

theorem Written.overlaid (h : Written c lookup) : Overlaid lookup c where
  queueSize := ⟨_, h.queueSize.gives, rfl⟩
  waitMillis := ⟨_, h.waitMillis.gives, rfl⟩
  feedbackSize := ⟨_, h.feedbackSize.gives, rfl⟩
  maxErrors := h.maxErrors.gives
  rowLimit := h.rowLimit.gives

theorem exists_ofVariables_iff : (∃ c, ofVariables lookup = .ok c) ↔ Readable lookup := by
  have hdefault : (100 : UInt64) ≠ 0 := by decide
  simp only [ofVariables_eq_ok_iff, problem?_eq_none_iff]
  constructor
  · rintro ⟨c, h, hqueue, herrors⟩
    obtain ⟨queue, hq, hsize⟩ := h.queueSize
    obtain ⟨wait, hw, -⟩ := h.waitMillis
    obtain ⟨feedback, hf, -⟩ := h.feedbackSize
    rw [hsize, Ne, hq.getD_eq_zero_iff hdefault] at hqueue
    rw [Ne, h.maxErrors.eq_some_zero_iff] at herrors
    refine ⟨forall_mem_all.mpr ?_, fun raw hraw hzero => hqueue ⟨raw, hraw, hzero⟩,
      fun raw hraw hzero => herrors ⟨raw, hraw, hzero⟩⟩
    simp only [← exists_gives_iff]
    exact ⟨⟨_, hq⟩, ⟨_, hw⟩, ⟨_, hf⟩, ⟨_, h.maxErrors⟩, ⟨_, h.rowLimit⟩⟩
  · rintro ⟨hreads, hqueue, herrors⟩
    have hgives := forall_mem_all.mp hreads
    simp only [← exists_gives_iff] at hgives
    obtain ⟨⟨queue, hq⟩, ⟨wait, hw⟩, ⟨feedback, hf⟩, ⟨errors, he⟩, ⟨limit, hl⟩⟩ := hgives
    refine ⟨⟨queue.getD 100, wait.getD 20, feedback.getD 50000, errors, limit⟩,
      ⟨⟨queue, hq, rfl⟩, ⟨wait, hw, rfl⟩, ⟨feedback, hf, rfl⟩, he, hl⟩, ?_, ?_⟩
    · rw [Ne, hq.getD_eq_zero_iff hdefault]
      exact fun ⟨raw, hraw, hzero⟩ => hqueue raw hraw hzero
    · rw [Ne, he.eq_some_zero_iff]
      exact fun ⟨raw, hraw, hzero⟩ => herrors raw hraw hzero

theorem Overlaid.apart (h : Overlaid lookup c) (h' : Overlaid lookup' c') :
    Apart lookup lookup' c c' where
  queueSize heq := eq_of_gives (heq ▸ h.queueSize) h'.queueSize
  waitMillis heq := eq_of_gives (heq ▸ h.waitMillis) h'.waitMillis
  feedbackSize heq := eq_of_gives (heq ▸ h.feedbackSize) h'.feedbackSize
  maxErrors heq := Gives.unique (heq ▸ h.maxErrors) h'.maxErrors
  rowLimit heq := Gives.unique (heq ▸ h.rowLimit) h'.rowLimit

/-- Settings that are fit for use come back from variables that hold them; and from any variables
settings come just if they can be read, each of them from its own variable. -/
theorem exact_ofVariables :
    (∀ c lookup, c.validate = .ok () → Written c lookup → ofVariables lookup = .ok c) ∧
    (∀ lookup, (∃ c, ofVariables lookup = .ok c) ↔ Readable lookup) ∧
    (∀ lookup c, ofVariables lookup = .ok c → Overlaid lookup c) ∧
    ∀ lookup lookup' c c', ofVariables lookup = .ok c → ofVariables lookup' = .ok c' →
      Apart lookup lookup' c c' := by
  refine ⟨fun c lookup hvalid hwritten => ?_, fun lookup => exists_ofVariables_iff,
    fun lookup c h => (ofVariables_eq_ok_iff.mp h).1, fun lookup lookup' c c' h h' => ?_⟩
  · exact ofVariables_eq_ok_iff.mpr ⟨hwritten.overlaid, validate_eq_ok_iff.mp hvalid⟩
  · exact (ofVariables_eq_ok_iff.mp h).1.apart (ofVariables_eq_ok_iff.mp h').1

/-- Variables with blanks, signs and zeros, and one that is not set. -/
def spelt : String → Option String := fun name =>
  [(Variable.queueSize, "  +0008\t"), (Variable.waitMillis, "18446744073709551615"),
    (Variable.feedbackSize, "000"), (Variable.maxErrors, "\u00a0+5")].lookup name

def speltConfig : Config where
  queueSize := 8
  waitMillis := 18446744073709551615
  feedbackSize := 0
  maxErrors := some 5

theorem written_spelt : Written speltConfig spelt where
  queueSize := .set ⟨[' ', ' '], ['+'], 3, ['\t'], by decide, List.all_eq_true.mp rfl, .inr rfl,
    List.all_eq_true.mp rfl⟩
  waitMillis := .set ⟨[], [], 0, [], by decide, nofun, .inl rfl, nofun⟩
  feedbackSize := .set ⟨[], [], 2, [], by decide, nofun, .inl rfl, nofun⟩
  maxErrors := .set ⟨['\u00a0'], ['+'], 0, [], by decide, List.all_eq_true.mp rfl, .inr rfl, nofun⟩
  rowLimit := .unset

theorem exact_ofVariables_spelt :
    speltConfig.validate = .ok () ∧ Written speltConfig spelt ∧
    ofVariables spelt = .ok speltConfig ∧ Readable spelt ∧ Overlaid spelt speltConfig ∧
    ofVariables (fun _ => none) = .ok {} ∧ Apart spelt (fun _ => none) speltConfig {} := by
  obtain ⟨hback, hreadable, hoverlaid, hapart⟩ := exact_ofVariables
  have hset := hback speltConfig spelt rfl written_spelt
  exact ⟨rfl, written_spelt, hset, (hreadable spelt).mp ⟨_, hset⟩, hoverlaid _ _ hset, rfl,
    hapart _ _ _ _ hset rfl⟩

end Config
end RowFlow
