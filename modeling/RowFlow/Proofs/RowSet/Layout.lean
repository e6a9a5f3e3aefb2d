import RowFlow.Proofs.RowSet.Fifo

/-
All rows of a row set have one layout.  The first row that is accepted fixes it, and from
then on a row is accepted only if its schema is compatible with the fixed one.
Compatibility is an equivalence, so any two rows that were ever accepted are compatible;
and since the values of a row have the types of its own schema, they have those of the
fixed one too.

Of the calls only the accepted ones touch the layout (`layout_step`), which is all that the
induction on the calls needs.
-/
namespace RowFlow

namespace Schema

/-- Names and hints do not count. -/
theorem isCompatible_iff (s t : Schema) : s.isCompatible t = true ↔ s.size = t.size ∧
    ∀ (i : Nat) (f g : Field), s.fields[i]? = some f → t.fields[i]? = some g →
      f.type = g.type := by
  have hget : ∀ (u : Schema) (i : Nat),
      (u.fields.map (·.type))[i]? = u.fields[i]?.map (·.type) := fun u i => List.getElem?_map
  rw [isCompatible, beq_iff_eq]
  constructor
  · intro h
    refine ⟨by simpa [size] using congrArg List.length h, fun i f g hf hg => ?_⟩
    have hi := congrArg (fun types => types[i]?) h
    simpa only [hget, hf, hg, Option.map_some, Option.some.injEq] using hi
  · rintro ⟨hsize, htypes⟩
    refine List.ext_getElem (by simpa [size] using hsize) fun i hs ht => ?_
    rw [List.length_map] at hs ht
    simpa only [List.getElem_map] using
      htypes i _ _ (List.getElem?_eq_getElem hs) (List.getElem?_eq_getElem ht)

theorem equivalence_isCompatible : Equivalence fun s t : Schema => s.isCompatible t = true where
  refl s := by simp [isCompatible]
  symm h := by
    rw [isCompatible, beq_iff_eq] at h ⊢
    exact h.symm
  trans h h' := by
    rw [isCompatible, beq_iff_eq] at h h' ⊢
    exact h.trans h'

end Schema

theorem Value.type?_of_hasType {v : Value} {t : ValueType} (h : v.hasType t = true)
    (hnull : v.isNull = false) : v.type? = some t := by
  refine (Value.hasType_iff.mp h).resolve_left fun hnone => ?_
  rw [Value.isNull, hnone] at hnull
  cases hnull

namespace Row

theorem hasType_get? (r : Row) {i : Nat} {f : Field} {v : Value}
    (hf : r.schema.fields[i]? = some f) (hv : r.get? i = some v) : v.hasType f.type = true := by
  have hfits := r.fits
  rw [Schema.misfit?, if_pos r.size_eq] at hfits
  exact (Schema.typeMisfit?_eq_none_iff r.size_eq).mp hfits i f v hf hv

/-- The values are not null, or of the types that a compatible schema has in their places. -/
theorem type?_of_isCompatible {r : Row} {s : Schema} (h : s.isCompatible r.schema = true)
    {i : Nat} {f : Field} {v : Value} (hf : s.fields[i]? = some f) (hv : r.get? i = some v)
    (hnull : v.isNull = false) : v.type? = some f.type := by
  obtain ⟨hsize, htypes⟩ := (Schema.isCompatible_iff _ _).mp h
  have hlt : i < r.schema.fields.length := by
    rw [← Schema.size, ← hsize]
    exact (List.getElem?_eq_some_iff.mp hf).1
  have hg := List.getElem?_eq_getElem hlt
  rw [htypes i _ _ hf hg]
  exact Value.type?_of_hasType (r.hasType_get? hg hv) hnull

end Row

namespace RowSet

/-- The schema is compatible with the fixed layout, if there is one yet. -/
def Takes (s : RowSet) (schema : Schema) : Prop :=
  ∀ fixed, s.layout = some fixed → fixed.isCompatible schema = true

theorem refusal?_eq_none_iff {s : RowSet} {schema : Schema} :
    s.refusal? schema = none ↔ s.Takes schema := by
  rw [refusal?, Option.bind_eq_none_iff]
  exact forall₂_congr fun fixed _ => Schema.difference?_eq_none_iff

/-- The layout is looked at last: nothing else keeps the row set from taking a row. -/
structure Reaches (s : RowSet) : Prop where
  isOpen : s.closed = false
  attached : s.detached = false
  hasRoom : s.isFull = false

theorem Reaches.offer_of_takes {s : RowSet} (h : s.Reaches) {row : Row} (ht : s.Takes row.schema) :
    s.offer row =
      ({ s with buffer := s.buffer ++ [row], layout := s.layout.or (some row.schema) },
        .ok .accepted) := by
  simp [offer, h.isOpen, h.attached, h.hasRoom, refusal?_eq_none_iff.mpr ht]

theorem Reaches.offer_of_refusal? {s : RowSet} (h : s.Reaches) {row : Row}
    {difference : Schema.Difference} (hd : s.refusal? row.schema = some difference) :
    s.offer row = (s, .error (.incompatible s.name difference.text)) := by
  simp [offer, h.isOpen, h.attached, h.hasRoom, hd]

theorem reaches_of_accepted {s : RowSet} {row : Row} (h : (s.offer row).2 = .ok .accepted) :
    s.Reaches ∧ s.Takes row.schema := by
  unfold offer at h
  split at h
  · cases h
  · next hclosed =>
    split at h
    · cases h
    · next hdetached =>
      split at h
      · cases h
      · next hfull =>
        cases hd : s.refusal? row.schema with
        | some difference => simp [hd] at h
        | none =>
          simp only [Bool.not_eq_true] at hclosed hdetached hfull
          exact ⟨⟨hclosed, hdetached, hfull⟩, refusal?_eq_none_iff.mp hd⟩

theorem Reaches.offer_iff {s : RowSet} (h : s.Reaches) (row : Row) :
    (s.offer row).2 = .ok .accepted ↔ s.Takes row.schema :=
  ⟨fun ha => (reaches_of_accepted ha).2, fun ht => by rw [h.offer_of_takes ht]⟩

theorem Reaches.put_iff {s : RowSet} (h : s.Reaches) (row : Row) :
    (s.put row).2 = some (.ok ()) ↔ s.Takes row.schema := by
  cases hd : s.refusal? row.schema with
  | none =>
    have ht := refusal?_eq_none_iff.mp hd
    simp [put, h.offer_of_takes ht, ht]
  | some difference =>
    have ht : ¬ s.Takes row.schema := fun ht => by
      rw [refusal?_eq_none_iff.mpr ht] at hd
      cases hd
    simp [put, h.offer_of_refusal? hd, ht]

theorem layout_poll (s : RowSet) : s.poll.1.layout = s.layout := by
  unfold poll
  split <;> rfl

theorem layout_close (s : RowSet) : s.close.1.layout = s.layout := by
  unfold close
  split <;> rfl

theorem ask_get (s : RowSet) : (s.ask .get).1 = s.poll.1 := by
  rw [ask, get]
  rcases s.poll with ⟨t, row | pending | done⟩ <;> rfl

namespace Passage

variable {p : Passage} {c : Call}

/-- A call that adds no row leaves the layout alone; one that adds a row adds one that the
layout takes, and fixes it if it was not fixed yet. -/
inductive Lays (p q : Passage) : Prop
  | same (haccepted : q.accepted = p.accepted) (hlayout : q.rowSet.layout = p.rowSet.layout)
  | row (row : Row) (ht : p.rowSet.Takes row.schema)
      (haccepted : q.accepted = p.accepted ++ [row])
      (hlayout : q.rowSet.layout = p.rowSet.layout.or (some row.schema))

theorem lays_of_nil (hlayout : (p.rowSet.ask c).1.layout = p.rowSet.layout)
    (haccepted : c.accepted p.rowSet (p.rowSet.ask c).2 = []) : p.Lays (p.step c) :=
  .same (by simp [step, haccepted]) hlayout

theorem lays_of_accepted {row : Row} {r : Reply} (h : (p.rowSet.offer row).2 = .ok .accepted)
    (hask : p.rowSet.ask c = ((p.rowSet.offer row).1, r))
    (haccepted : c.accepted p.rowSet r = [row]) : p.Lays (p.step c) := by
  obtain ⟨hreaches, ht⟩ := reaches_of_accepted h
  rw [hreaches.offer_of_takes ht] at hask
  exact .row row ht (by simp [step, hask, haccepted]) (by simp [step, hask])

theorem lays_offer (p : Passage) (row : Row) (time : Nat) :
    p.Lays (p.step (.offer row time)) := by
  have hask : p.rowSet.ask (.offer row time) =
      ((p.rowSet.offer row).1, .offered (p.rowSet.offer row).2) := rfl
  rcases p.rowSet.offer_cases row with ⟨f, h⟩ | ⟨-, h⟩ | h | ⟨-, layout, h⟩
  · exact lays_of_nil (by rw [hask, h]) (by rw [hask, h]; rfl)
  · exact lays_of_nil (by rw [hask, h]) (by rw [hask, h]; rfl)
  · exact lays_of_nil (by rw [hask, h]) (by rw [hask, h]; rfl)
  · exact lays_of_accepted (by rw [h]) hask (by rw [h]; rfl)

/-- A put does what an offer does. -/
theorem lays_put (p : Passage) (row : Row) : p.Lays (p.step (.put row)) := by
  rcases p.rowSet.offer_cases row with ⟨f, h⟩ | ⟨hdetached, h⟩ | h | ⟨hopen, layout, h⟩
  · have hask : p.rowSet.ask (.put row) = (p.rowSet, .finished (.error f)) := by
      simp only [ask, put, h]
    exact lays_of_nil (by rw [hask]) (by rw [hask]; rfl)
  · have hask : p.rowSet.ask (.put row) = (p.rowSet, .finished (.ok ())) := by
      simp only [ask, put, h]
    exact lays_of_nil (by rw [hask]) (by rw [hask]; exact if_pos hdetached)
  · have hask : p.rowSet.ask (.put row) = (p.rowSet, .waiting) := by
      simp only [ask, put, h]
    exact lays_of_nil (by rw [hask]) (by rw [hask]; rfl)
  · have hask : p.rowSet.ask (.put row) = ((p.rowSet.offer row).1, .finished (.ok ())) := by
      simp only [ask, put, h]
    exact lays_of_accepted (by rw [h]) hask (if_neg (by simp [hopen.2.1]))

theorem lays_step (p : Passage) (c : Call) : p.Lays (p.step c) := by
  cases c with
  | offer row time => exact p.lays_offer row time
  | put row => exact p.lays_put row
  | poll time => exact lays_of_nil p.rowSet.layout_poll rfl
  | get => exact lays_of_nil (by rw [ask_get, layout_poll]) rfl
  | close => exact lays_of_nil p.rowSet.layout_close rfl
  | detach => exact lays_of_nil rfl rfl
  | layout => exact lays_of_nil rfl rfl
  | refuse f => exact lays_of_nil rfl rfl

structure Laid (p : Passage) : Prop where
  first : p.rowSet.layout = p.accepted.head?.map (·.schema)
  taken : ∀ row ∈ p.accepted, p.rowSet.Takes row.schema

theorem laid_new (name : String) (capacity : Nat) : Laid (new name capacity) where
  first := rfl
  taken _ h := absurd h List.not_mem_nil

theorem Laid.lays {q : Passage} (hp : Laid p) (h : p.Lays q) : Laid q := by
  cases h with
  | same haccepted hlayout =>
    refine ⟨?_, fun row hrow fixed hfixed => ?_⟩
    · rw [hlayout, haccepted, hp.first]
    · rw [haccepted] at hrow
      rw [hlayout] at hfixed
      exact hp.taken row hrow fixed hfixed
  | row row ht haccepted hlayout =>
    rcases hrows : p.accepted with _ | ⟨first, rest⟩
    · have hnone : p.rowSet.layout = none := by rw [hp.first, hrows]; rfl
      rw [hrows, List.nil_append] at haccepted
      rw [hnone, Option.none_or] at hlayout
      refine ⟨by rw [hlayout, haccepted]; rfl, fun other hother fixed hfixed => ?_⟩
      rw [haccepted, List.mem_singleton] at hother
      rw [hlayout] at hfixed
      cases hother
      cases hfixed
      exact Schema.equivalence_isCompatible.refl _
    · have hsome : p.rowSet.layout = some first.schema := by rw [hp.first, hrows]; rfl
      have hsame : q.rowSet.layout = p.rowSet.layout := by rw [hlayout, hsome]; rfl
      refine ⟨by rw [hsame, hp.first, haccepted, hrows]; rfl, fun other hother fixed hfixed => ?_⟩
      rw [hsame] at hfixed
      rw [haccepted] at hother
      rcases List.mem_append.mp hother with hold | hnew
      · exact hp.taken other hold fixed hfixed
      · cases List.mem_singleton.mp hnew
        exact ht fixed hfixed

theorem Laid.after (hp : Laid p) (calls : List Call) : Laid (p.after calls) := by
  induction calls generalizing p with
  | nil => exact hp
  | cons c calls ih => exact ih (hp.lays (p.lays_step c))

theorem layout_of_lays {q : Passage} {fixed : Schema} (h : p.Lays q)
    (hp : p.rowSet.layout = some fixed) : q.rowSet.layout = some fixed := by
  cases h with
  | same _ hlayout => rw [hlayout, hp]
  | row _ _ _ hlayout => rw [hlayout, hp, Option.some_or]

/-- Once fixed, the layout stays. -/
theorem layout_after {fixed : Schema} (hp : p.rowSet.layout = some fixed) (calls : List Call) :
    (p.after calls).rowSet.layout = some fixed := by
  induction calls generalizing p with
  | nil => exact hp
  | cons c calls ih => exact ih (layout_of_lays (p.lays_step c) hp)

theorem Laid.exists_layout (hp : Laid p) {row : Row} (h : row ∈ p.accepted) :
    ∃ fixed, p.rowSet.layout = some fixed := by
  rw [hp.first, ← Option.isSome_iff_exists, Option.isSome_map, List.isSome_head?]
  exact List.ne_nil_of_mem h

/-- Rows that were accepted are compatible with each other, since all are compatible with the
first. -/
theorem Laid.isCompatible (hp : Laid p) {a b : Row} (ha : a ∈ p.accepted) (hb : b ∈ p.accepted) :
    a.schema.isCompatible b.schema = true := by
  obtain ⟨fixed, hfixed⟩ := hp.exists_layout ha
  have hequiv := Schema.equivalence_isCompatible
  exact hequiv.trans (hequiv.symm (hp.taken a ha fixed hfixed)) (hp.taken b hb fixed hfixed)

end Passage

/-- The row set, in whatever state calls have left it, has one layout for all its rows. -/
structure Uniform (p : Passage) : Prop where
  compatible : ∀ a ∈ p.accepted, ∀ b ∈ p.accepted, a.schema.isCompatible b.schema = true
  /-- The layout that is told is the schema of the first row that was accepted. -/
  told : p.rowSet.ask .layout = (p.rowSet, .layout (p.accepted.head?.map (·.schema)))
  lasting : ∀ fixed, p.rowSet.layout = some fixed → ∀ later,
    (p.after later).rowSet.ask .layout = ((p.after later).rowSet, .layout (some fixed))
  typed : ∀ row ∈ p.delivered, ∃ fixed, p.rowSet.layout = some fixed ∧ fixed.size = row.size ∧
    ∀ (i : Nat) (f : Field) (v : Value), fixed.fields[i]? = some f → row.get? i = some v →
      v.isNull = false → v.type? = some f.type
  /-- A row that nothing else keeps out is accepted if its schema is compatible with the fixed
  layout, or none is fixed yet; -/
  accepts : p.rowSet.Reaches → ∀ row time,
    ((p.rowSet.ask (.offer row time)).2 = .offered (.ok .accepted) ↔
      p.rowSet.Takes row.schema) ∧
    ((p.rowSet.ask (.put row)).2 = .finished (.ok ()) ↔ p.rowSet.Takes row.schema)
  /-- otherwise it is refused for the first difference of the two. -/
  refuses : p.rowSet.Reaches → ∀ row fixed difference, p.rowSet.layout = some fixed →
    fixed.difference? row.schema = some difference → ∀ time,
      (p.rowSet.ask (.offer row time)).2 =
        .offered (.error (.incompatible p.rowSet.name difference.text)) ∧
      (p.rowSet.ask (.put row)).2 =
        .finished (.error (.incompatible p.rowSet.name difference.text))
  /-- Such a refusal changes nothing. -/
  unchanged : ∀ c name reason,
    (p.rowSet.ask c).2 = .offered (.error (.incompatible name reason)) ∨
      (p.rowSet.ask c).2 = .finished (.error (.incompatible name reason)) → p.step c = p

theorem Reaches.ask_offer_iff {s : RowSet} (h : s.Reaches) (row : Row) (time : Nat) :
    (s.ask (.offer row time)).2 = .offered (.ok .accepted) ↔ s.Takes row.schema := by
  rw [← h.offer_iff row]
  exact Reply.offered.injEq .. ▸ Iff.rfl

theorem Reaches.ask_put_iff {s : RowSet} (h : s.Reaches) (row : Row) :
    (s.ask (.put row)).2 = .finished (.ok ()) ↔ s.Takes row.schema := by
  rw [← h.put_iff row, ask]
  rcases s.put row with ⟨t, r | r⟩ <;> simp

/-- Only an offer or a put is refused for its layout, or a row that could not be made. -/
theorem step_of_incompatible {p : Passage} {c : Call} {name reason : String}
    (h : (p.rowSet.ask c).2 = .offered (.error (.incompatible name reason)) ∨
      (p.rowSet.ask c).2 = .finished (.error (.incompatible name reason))) : p.step c = p := by
  cases c with
  | offer row time =>
    have hr : (p.rowSet.offer row).2 = .error (.incompatible name reason) :=
      Reply.offered.inj (h.resolve_right (by simp [ask]))
    have hsame : (p.rowSet.offer row).1 = p.rowSet := offer_of_ne_accepted (by simp [hr])
    exact Passage.step_eq_self (by rw [ask, hsame, hr]) rfl rfl (by simp)
  | put row =>
    rcases p.rowSet.offer_cases row with ⟨f, ho⟩ | ⟨-, ho⟩ | ho | ⟨-, layout, ho⟩
    · have hask : p.rowSet.ask (.put row) = (p.rowSet, .finished (.error f)) := by
        simp only [ask, put, ho]
      exact Passage.step_eq_self hask rfl rfl (by simp)
    · simp [ask, put, ho] at h
    · simp [ask, put, ho] at h
    · simp [ask, put, ho] at h
  | get =>
    rw [ask] at h
    split at h <;> simp at h
  | close =>
    simp only [ask, close] at h
    split at h <;> simp at h
  | refuse f => exact Passage.step_eq_self rfl rfl rfl (by simp)
  | _ => simp [ask] at h

/-- After any calls a row set has one layout, which its first row has fixed. -/
theorem uniform_after :
    (Equivalence fun s t : Schema => s.isCompatible t = true) ∧
    (∀ s t : Schema, (s.difference? t = none ↔ s.isCompatible t = true) ∧
      (s.isCompatible t = true ↔ s.size = t.size ∧ ∀ (i : Nat) (f g : Field),
        s.fields[i]? = some f → t.fields[i]? = some g → f.type = g.type)) ∧
    ∀ name capacity calls, Uniform ((Passage.new name capacity).after calls) := by
  refine ⟨Schema.equivalence_isCompatible,
    fun s t => ⟨Schema.difference?_eq_none_iff, Schema.isCompatible_iff s t⟩,
    fun name capacity calls => ?_⟩
  have hlaid := (Passage.laid_new name capacity).after calls
  have hconserved := ((Passage.sound_new name capacity).after calls).conserved
  generalize (Passage.new name capacity).after calls = p at hlaid hconserved
  constructor
  case compatible => exact fun a ha b hb => hlaid.isCompatible ha hb
  case told => rw [ask, hlaid.first]
  case lasting =>
    intro fixed hfixed later
    rw [ask, Passage.layout_after hfixed later]
  case typed =>
    intro row hrow
    have hmem : row ∈ p.accepted := by simp [hconserved, hrow]
    obtain ⟨fixed, hfixed⟩ := hlaid.exists_layout hmem
    have htaken := hlaid.taken row hmem fixed hfixed
    have hsize : fixed.size = row.size :=
      ((Schema.isCompatible_iff _ _).mp htaken).1.trans row.size_eq
    exact ⟨fixed, hfixed, hsize, fun i f v => Row.type?_of_isCompatible htaken⟩
  case accepts => exact fun h row time => ⟨h.ask_offer_iff row time, h.ask_put_iff row⟩
  case refuses =>
    intro h row fixed difference hfixed hd time
    have hrefusal : p.rowSet.refusal? row.schema = some difference := by
      rw [refusal?, hfixed, Option.bind_some, hd]
    have hoffer := h.offer_of_refusal? hrefusal
    exact ⟨by rw [ask, hoffer], by simp only [ask, put, hoffer]⟩
  case unchanged => exact fun c name reason h => step_of_incompatible h

end RowSet
end RowFlow
