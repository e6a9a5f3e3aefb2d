import RowFlow.Copy.ErrorLayout
import RowFlow.Proofs.Program.Faults
import RowFlow.Proofs.RowSet.Layout
import RowFlow.Proofs.Sending.Calls

/-
A row that is rejected goes out with its diagnostic and counts, or it does neither.

The layout that a copy keeps from one call to the next makes no difference: in whatever way the
copy has come to keep it, it is the extension of the schema at its address
(`Extension.Kept.sound`), and so the call does what it would do without it
(`rejectRowFrom_bind`).  The rest is read off the ways in which a call can end.  Since nobody
else writes to the row set, the layout that the row meets there is the one from the beginning of
the call (`Passes.sole`).
-/
namespace RowFlow

open Doing

/-- What is kept is the extension of the schema at its address. -/
def Extension.Sound (heap : Heap) (last : Option Extension) : Prop :=
  ∀ e, last = some e → ∃ source, heap e.address = some source ∧
    source.extended Program.errorFields = .ok e.extended

namespace Program

variable {heap : Heap} {last : Option Extension} {address : Nat} {row : Row} {d : Diagnostic}

/-- A layout that was kept is the one that would be made. -/
theorem extensionFor_fst (hlast : Extension.Sound heap last) {source : Schema}
    (hsource : heap address = some source) :
    (extensionFor last address source).1 = source.extended errorFields := by
  unfold extensionFor
  split
  · next e he =>
    obtain ⟨he, haddress⟩ := Option.filter_eq_some_iff.mp he
    obtain ⟨source', hsource', hextended⟩ := hlast e he
    rw [of_decide_eq_true haddress, hsource, Option.some.injEq] at hsource'
    rw [hsource', hextended]
  · split
    · next f hf => rw [hf]
    · next extended hextended => rw [hextended]

/-- What is kept afterwards is right too. -/
theorem sound_extensionFor (hlast : Extension.Sound heap last) {source : Schema}
    (hsource : heap address = some source) :
    Extension.Sound heap (extensionFor last address source).2 := by
  unfold extensionFor
  split
  · exact hlast
  · split
    · exact hlast
    · next extended hextended =>
      intro e he
      cases he
      exact ⟨source, hsource, hextended⟩

theorem marked_bind {α β : Type} (before : Mark) (after : β → Mark) (g : α → β) (p : Program α) :
    (marked before (fun a => after (g a)) p).bind (fun a => .done (g a)) =
      marked before after (p.bind fun a => .done (g a)) := by
  show ((perform (.mark before)).bind fun _ => p.bind fun a =>
    (perform (.mark (after (g a)))).bind fun _ => .done a).bind _ =
      (perform (.mark before)).bind fun _ => (p.bind fun a => .done (g a)).bind fun b =>
        (perform (.mark (after b))).bind fun _ => .done b
  simp only [bind_assoc, done_bind]

/-- The layout that was kept makes no difference. -/
theorem rejectRowFrom_bind (hlast : Extension.Sound heap last)
    (hsource : heap address = some row.schema) :
    (rejectRowFrom last address row d).bind (fun x => .done x.1) = rejectRow row d := by
  have hfirst := extensionFor_fst hlast hsource
  rw [rejectRowFrom, marked_bind, rejectRow]
  congr 1
  show ((own.bind fun l => _).bind _ : Program (Except Fault Unit)) = own.bind fun l => _
  rw [bind_assoc]
  congr 1
  funext l
  cases l.errorHandling with
  | false => rfl
  | true =>
    rcases hext : extensionFor last address row.schema with ⟨f | schema, kept⟩
    · have hrow : errorRow row d = .error f := by
        rw [errorRow, ← hfirst, hext]
        rfl
      rw [hrow]
      rfl
    · have hrow : errorRow row d = row.extend schema (errorValues d) := by
        rw [errorRow, ← hfirst, hext]
        rfl
      rw [hrow]
      simp only [Bool.not_true, Bool.false_eq_true, if_false]
      cases row.extend schema (errorValues d) with
      | error f => rfl
      | ok out =>
        show ((sendError out).bind _).bind _ = (sendError out).bind _
        rw [bind_assoc]
        congr 1
        funext x
        cases x with
        | error f => rfl
        | ok x =>
          show ((perform (.add .rejected 1)).bind fun _ => addError.bind fun _ => _).bind _ =
            (perform (.add .rejected 1)).bind fun _ => addError.bind fun _ => _
          simp only [bind_assoc]
          rfl

/-- A call keeps what is right. -/
theorem ends_rejectRowFrom (hlast : Extension.Sound heap last)
    (hsource : heap address = some row.schema) :
    (rejectRowFrom last address row d).Ends fun x => Extension.Sound heap x.2 := by
  have hkept := sound_extensionFor hlast hsource
  refine ends_bind (perform (.mark _)) fun _ => ?_
  suffices h : Ends (fun x : Except Fault Unit × Option Extension => Extension.Sound heap x.2) _
    from h.bind fun x hx => ends_bind (perform (.mark _)) fun _ => hx
  refine ends_bind own fun l => ?_
  cases l.errorHandling with
  | false => exact hlast
  | true =>
    revert hkept
    rcases extensionFor last address row.schema with ⟨f | schema, kept⟩ <;> intro hkept
    · exact hkept
    · simp only [Bool.not_true, Bool.false_eq_true, if_false]
      cases row.extend schema (errorValues d) with
      | error f => exact hkept
      | ok out =>
        refine ends_bind (sendError out) fun x => ?_
        cases x with
        | error f => exact hkept
        | ok x =>
          exact ends_bind (perform (.add .rejected 1)) fun _ => ends_bind addError fun _ => hkept

end Program

/-- What a copy may keep that has rejected rows before.  Between its calls the memory may be
used for other schemas, but for that whose address is kept. -/
inductive Extension.Kept : Heap → Option Extension → Prop
  | nothing (heap : Heap) : Kept heap none
  | call {heap : Heap} {last kept : Option Extension} {address : Nat} {row : Row} {d : Diagnostic}
      {os : List Nat} {l m : Local} {s t : Shared} {hs : List Happening} {r : Except Fault Unit}
      (h : Kept heap last) (hsource : heap address = some row.schema)
      (hcall : (Program.rejectRowFrom last address row d).Amid os l s hs (r, kept) m t) :
      Kept heap kept
  | memory {heap heap' : Heap} {last : Option Extension} (h : Kept heap last)
      (hheld : ∀ e, last = some e → heap' e.address = heap e.address) : Kept heap' last

theorem Extension.Kept.sound {heap : Heap} {last : Option Extension} (h : Kept heap last) :
    Sound heap last := by
  induction h with
  | nothing heap => exact fun e he => by cases he
  | call h hsource hcall ih => exact hcall.runs.ends (Program.ends_rejectRowFrom ih hsource)
  | memory h hheld ih =>
    intro e he
    obtain ⟨source, hsource, hextended⟩ := ih e he
    exact ⟨source, (hheld e he).trans hsource, hextended⟩

namespace RowSet

variable {s t : RowSet} {row : Row}

theorem Takes.of_served {schema : Schema} (h : s.Served [] t) :
    t.Takes schema ↔ s.Takes schema := by
  rw [Takes, Takes, h.layout]
  simp

/-- An open row set refuses a row for its layout only. -/
theorem not_takes_of_error {f : Fault} (hopen : s.closed = false)
    (h : (s.offer row).2 = .error f) : s.detached = false ∧ ¬ s.Takes row.schema := by
  obtain ⟨hattached, difference, hdifference, -⟩ := refusal_of_error hopen h
  refine ⟨hattached, fun htakes => ?_⟩
  rw [refusal?_eq_none_iff.mpr htakes] at hdifference
  cases hdifference

end RowSet

namespace Program

variable {row out : Row} {d : Diagnostic}

theorem of_errorRow_ok (h : errorRow row d = .ok out) :
    out.schema = ⟨row.schema.fields ++ errorFields⟩ ∧ out.values = row.values ++ errorValues d := by
  unfold errorRow at h
  cases hs : row.schema.extended errorFields with
  | error f =>
    rw [hs] at h
    cases h
  | ok schema =>
    rw [hs] at h
    obtain ⟨rfl, -⟩ := Schema.extended_ok_iff.mp hs
    exact Row.ofValues_eq_ok_iff.mp h

/-- With names that are all different, a row can be told unless it has a name of a diagnostic. -/
theorem errorRow_ok_iff_disjoint (h : row.schema.names.Nodup) : (∃ out, errorRow row d = .ok out) ↔
    ∀ f ∈ errorFields, f.name ∉ row.schema.names := by
  have hfields : (errorFields.map (·.name)).Nodup := by decide
  rw [errorRow_ok_iff, List.nodup_append]
  constructor
  · rintro ⟨-, -, hdisjoint⟩ f hf hmem
    exact hdisjoint _ hmem _ (List.mem_map_of_mem hf) rfl
  · intro hnames
    refine ⟨h, hfields, fun name hname name' hname' heq => ?_⟩
    obtain ⟨f, hf, rfl⟩ := List.mem_map.mp hname'
    exact hnames f hf (heq ▸ hname)

structure Carries (row : Row) (d : Diagnostic) (out : Row) : Prop where
  fields : out.schema.fields = row.schema.fields ++ errorFields
  names : out.schema.names = row.schema.names ++
    ["error_count", "error_description", "error_field", "error_code"]
  values : out.values = row.values ++
    [.integer 1, .string d.message, (d.field.map Value.string).getD .null, .string d.code]

theorem carries_of_errorRow (h : errorRow row d = .ok out) : Carries row d out := by
  obtain ⟨hschema, hvalues⟩ := of_errorRow_ok h
  refine ⟨by rw [hschema], ?_, ?_⟩
  · rw [hschema, Schema.names, List.map_append]
    rfl
  · rw [hvalues, errorValues]
    cases d.field <;> rfl

/-- While the flag is down a row goes to the row set whose turn it is. -/
theorem Reports.sent_of_some {i : Nat} {ds : List Doing} {r : Except Fault Unit}
    (h : Reports out (some i) ds r) (hlooks : true ∉ looks ds) :
    ∃ x, sendings ds = [⟨i, out, x⟩] ∧ r = x.map fun _ => () := by
  cases h with
  | nowhere h _ _ => cases h
  | stopped _ hask _ =>
    rw [hask] at hlooks
    exact absurd (List.mem_singleton_self true) hlooks
  | sent h _ x hsent =>
    cases h
    exact ⟨x, hsent, rfl⟩

section Call

variable {os : List Nat} {l m : Local} {s t : Shared} {hs : List Happening} {r : Except Fault Unit}
  {i : Nat} {rs rs' : RowSet}

/-- A row was sent to the row set `i`, which is `rs` before that and `rs'` afterwards, and
nothing else was sent.  The row set takes it for its layout, or because it has lost its consumer
by then (`gone`). -/
structure Decided (out : Row) (i : Nat) (rs rs' : RowSet) (ds : List Doing)
    (r : Except Fault Unit) : Prop where
  decides : ∃ gone : Bool, (rs.detached = true → gone = true) ∧
    (gone = true → rs'.detached = true) ∧ (r = .ok () ↔ rs.Takes out.schema ∨ gone = true)
  sent : r = .ok () → ∃ x : Delivery, (x = .accepted ∨ x = .discarded) ∧
    sendings ds = [⟨i, out, .ok x⟩]
  refused : ∀ f, r = .error f → sendings ds = [⟨i, out, .error f⟩]

/-- A row that is sent while the flag is down.  The row set is open to the end of the call. -/
theorem Reports.decided (h : Reports out (some i) (Happening.doings hs) r)
    (hpasses : s.Passes os hs t) (hos : i ∈ os) (hrs : s.rowSets[i]? = some rs)
    (hrs' : t.rowSets[i]? = some rs') (hopen : rs'.closed = false)
    (hdown : ∀ x ∈ hs, x.doing.sends = true → x.found.control.stopped = false) :
    Decided out i rs rs' (Happening.doings hs) r := by
  obtain ⟨x, hone, rfl⟩ := h.sent_of_some (not_mem_looks hpasses hdown)
  obtain ⟨z, hz, hd, rs₁, u, hrs₁, hserved, hanswers, hlater⟩ := hpasses.sole hone hos hrs
  have hle := hlater rs' hrs'
  have hopen₁ : rs₁.closed = false := by
    cases hclosed : rs₁.closed with
    | false => rfl
    | true => rw [hle.closed hclosed] at hopen; cases hopen
  have htakes : rs₁.Takes out.schema ↔ rs.Takes out.schema := RowSet.Takes.of_served hserved
  generalize hy : (⟨i, out, x⟩ : Sending) = y at hanswers
  cases hy
  cases hanswers with
  | accepted hoffer =>
    rw [Shared.offer_answer hrs₁] at hoffer
    exact ⟨⟨rs₁.detached, hserved.le.detached, hle.detached,
      iff_of_true rfl (.inl (htakes.mp (RowSet.reaches_of_accepted hoffer).2))⟩,
      fun _ => ⟨_, .inl rfl, hone⟩, fun f hf => by cases hf⟩
  | discarded hoffer =>
    rw [Shared.offer_answer hrs₁] at hoffer
    exact ⟨⟨rs₁.detached, hserved.le.detached, hle.detached,
      iff_of_true rfl (.inr (RowSet.detached_of_discarded hoffer))⟩,
      fun _ => ⟨_, .inr rfl, hone⟩, fun f hf => by cases hf⟩
  | refused hoffer =>
    rw [Shared.offer_answer hrs₁] at hoffer
    obtain ⟨hattached, hrefuses⟩ := RowSet.not_takes_of_error hopen₁ hoffer
    refine ⟨⟨rs₁.detached, hserved.le.detached, hle.detached, iff_of_false nofun ?_⟩, nofun,
      fun f hf => ?_⟩
    · rw [hattached]
      rintro (htakes' | hfalse)
      · exact hrefuses (htakes.mpr htakes')
      · cases hfalse
    · cases hf
      exact hone
  | dropped hstopped =>
    rw [hdown z hz (by rw [hd]; rfl)] at hstopped
    cases hstopped

/-- A call to reject a row, when it is the turn of the row set `i`, which is `rs` before the
call and `rs'` after it. -/
structure AllOrNothing (row : Row) (d : Diagnostic) (l : Local) (i : Nat) (rs rs' : RowSet)
    (ds : List Doing) (r : Except Fault Unit) (m : Local) : Prop where
  /-- The call succeeds just if the row has no field named as one of the diagnostic, and the row
  set takes the longer row, or has lost its consumer by then. -/
  succeeds : ∃ gone : Bool, (rs.detached = true → gone = true) ∧
    (gone = true → rs'.detached = true) ∧
    (r = .ok () ↔ (∀ f ∈ errorFields, f.name ∉ row.schema.names) ∧
      (rs.Takes ⟨row.schema.fields ++ errorFields⟩ ∨ gone = true))
  /-- If so, one row is sent to the row set, and everything is counted; -/
  all : r = .ok () → ∃ out x, Carries row d out ∧ (x = .accepted ∨ x = .discarded) ∧
    sendings ds = [⟨i, out, .ok x⟩] ∧ m.errorOutput = l.errorOutput.map Branch.advance ∧
    m.counts = (l.counts.add 1 .rejected).add 1 .errors ∧
    ∀ k, told k ds = if .errors = k then 1 else 0
  /-- otherwise no row set has received anything, and nothing is counted. -/
  nothing : ∀ f, r = .error f → (∀ j, received j ds = []) ∧ Uncounted l ds m
  added : rs.Served (received i ds) rs'

theorem Rejects.allOrNothing (h : Rejects row d l (Happening.doings hs) r m)
    (hpasses : s.Passes os hs t) (hnames : row.schema.names.Nodup) (he : l.errorHandling = true)
    (hi : l.errorOutput.bind Branch.current? = some i) (hos : i ∈ os)
    (hrs : s.rowSets[i]? = some rs) (hrs' : t.rowSets[i]? = some rs') (hopen : rs'.closed = false)
    (hdown : ∀ x ∈ hs, x.doing.sends = true → x.found.control.stopped = false) :
    AllOrNothing row d l i rs rs' (Happening.doings hs) r m := by
  obtain ⟨rs₂, hrs₂, hadded⟩ := hpasses.served hos hrs
  rw [hrs', Option.some.injEq] at hrs₂
  subst hrs₂
  have hdisjoint := errorRow_ok_iff_disjoint (d := d) hnames
  cases h with
  | disabled hoff =>
    rw [he] at hoff
    cases hoff
  | unmade _ hout hsent hc =>
    constructor
    case succeeds =>
      refine ⟨rs.detached, id, hadded.le.detached, iff_of_false (fun h => by cases h) fun h => ?_⟩
      obtain ⟨out, hout'⟩ := hdisjoint.mpr h.1
      rw [hout] at hout'
      cases hout'
    case all => exact fun h => by cases h
    case nothing => exact fun f hf => ⟨fun j => by rw [received, hsent]; rfl, hc⟩
    case added => exact hadded
  | refused _ hout hsent hc hturn =>
    rw [hi] at hsent
    obtain ⟨⟨gone, hbefore, hafter, hiff⟩, -, hone⟩ :=
      hsent.decided hpasses hos hrs hrs' hopen hdown
    constructor
    case succeeds =>
      refine ⟨gone, hbefore, hafter, iff_of_false (fun h => by cases h) fun h => ?_⟩
      rw [(of_errorRow_ok hout).1] at hiff
      cases hiff.mpr h.2
    case all => exact fun h => by cases h
    case nothing => exact fun f hf => ⟨fun j => by rw [received, hone f hf]; rfl, hc⟩
    case added => exact hadded
  | counted _ hout hsent hcounts htold hturn =>
    rw [hi] at hsent
    obtain ⟨⟨gone, hbefore, hafter, hiff⟩, hone, -⟩ :=
      hsent.decided hpasses hos hrs hrs' hopen hdown
    constructor
    case succeeds =>
      refine ⟨gone, hbefore, hafter, iff_of_true rfl ⟨hdisjoint.mp ⟨_, hout⟩, ?_⟩⟩
      rw [← (of_errorRow_ok hout).1]
      exact hiff.mp rfl
    case all =>
      intro hr
      obtain ⟨x, hx, hsent⟩ := hone hr
      exact ⟨_, x, carries_of_errorRow hout, hx, hsent, hturn, hcounts, htold⟩
    case nothing => exact fun f hf => by cases hf
    case added => exact hadded

/-- A call to reject a row does all of it or nothing, whatever layout was kept from the calls
before, and the layout that was kept makes no difference. -/
theorem rejected_of_kept {heap : Heap} {last kept : Option Extension} {address : Nat}
    (hkept : Extension.Kept heap last) (hsource : heap address = some row.schema)
    (hnames : row.schema.names.Nodup)
    (h : (rejectRowFrom last address row d).Amid os l s hs (r, kept) m t)
    (he : l.errorHandling = true) (hi : l.errorOutput.bind Branch.current? = some i)
    (hos : i ∈ os) (hrs : s.rowSets[i]? = some rs) (hrs' : t.rowSets[i]? = some rs')
    (hopen : rs'.closed = false)
    (hdown : ∀ x ∈ hs, x.doing.sends = true → x.found.control.stopped = false) :
    (rejectRowFrom last address row d).bind (fun x => .done x.1) = rejectRow row d ∧
      AllOrNothing row d l i rs rs' (Happening.doings hs) r m := by
  have hsame := rejectRowFrom_bind (d := d) hkept.sound hsource
  have hruns : (rejectRow row d).Runs l (Happening.doings hs) r m := by
    rw [← hsame]
    exact h.runs.map Prod.fst
  exact ⟨hsame, (runs_rejectRow_rejects hruns).allOrNothing h.passes hnames he hi hos hrs hrs'
    hopen hdown⟩

end Call

section Narrow

def narrowHeap : Heap := fun address => if address = 7 then some (numbered 1).schema else none

def narrowFirst :
    List Happening × Program (Except Fault Unit × Option Extension) × Local × Shared :=
  (rejectRowFrom none 7 (numbered 1) flaw).unaided 14 narrow narrowShared

def narrowKept : Option Extension := some ⟨7, ⟨(numbered 1).schema.fields ++ errorFields⟩⟩

theorem kept_narrow : Extension.Kept narrowHeap narrowKept :=
  .call (.nothing _) rfl
    (amid_unaided (l := narrow) (s := narrowShared) (n := 14) (v := (.ok (), narrowKept))
      (p := rejectRowFrom none 7 (numbered 1) flaw) [0, 1] rfl)

def narrowSecond :
    List Happening × Program (Except Fault Unit × Option Extension) × Local × Shared :=
  (rejectRowFrom narrowKept 7 (numbered 2) flaw).unaided 14 narrowFirst.2.2.1
    (narrowFirst.2.2.2.poll 1).1

theorem rejected_of_kept_narrow : ∃ rs rs', narrowFirst.2.2.2.rowSets[1]? = some rs ∧
    narrowSecond.2.2.2.rowSets[1]? = some rs' ∧
    AllOrNothing (numbered 2) flaw narrowFirst.2.2.1 1 rs rs' (Happening.doings narrowSecond.1)
      (.ok ()) narrowSecond.2.2.1 :=
  ⟨_, _, rfl, rfl, (rejected_of_kept kept_narrow rfl (by decide)
    ((amid_unaided [0, 1] rfl).before (Shared.meanwhile_poll narrowFirst.2.2.2 1)) rfl rfl
    (by decide) rfl rfl rfl (by decide)).2⟩

end Narrow
end Program
end RowFlow
