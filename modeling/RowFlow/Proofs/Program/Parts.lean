import RowFlow.Proofs.Program.Frame

/-
What the requests of a step's code come down to: for each of them the actions that its
program is made of, and no others (`within_parts`).
-/
namespace RowFlow

/-- What follows a count: if it has reached a limit the run stops for this reason. -/
inductive Node.Limits (reason : StopReason) : Node → Prop
  | giveReason : Limits reason (.act (.giveReason reason))
  | raiseFlag : Limits reason (.act .raiseFlag)

inductive Node.Fails : Node → Prop
  | add : Fails (.act (.add .errors 1))
  | count : Fails (.act (.countErrors 1))
  | limit {n : Node} (h : n.Limits .errorLimit) : Fails n

inductive Request.Parts : Request → Node → Prop
  | get : Parts .getRow (.act (.mark .get))
  | receive : Parts .getRow .receive
  | got (row : Option Row) : Parts .getRow (.act (.mark (.got row)))
  | put (row : Row) : Parts (.putRow row) (.act (.mark (.put row)))
  | putOwn (row : Row) : Parts (.putRow row) (.act .own)
  | putLooks (row : Row) : Parts (.putRow row) (.act .isStopped)
  | putChooses (row : Row) (place : Nat) : Parts (.putRow row) (.act (.choose (.output place)))
  | delivers (row : Row) (i : Nat) : Parts (.putRow row) (.deliver i row)
  | adds (row : Row) : Parts (.putRow row) (.act (.add .written 1))
  | counts (row : Row) : Parts (.putRow row) (.act (.countSourceRows 1))
  | putLimit (row : Row) {n : Node} (h : n.Limits .rowLimit) : Parts (.putRow row) n
  | putDone (row : Row) (r : Except Fault Unit) : Parts (.putRow row) (.act (.mark (.putDone r)))
  | reject (row : Row) (d : Diagnostic) :
      Parts (.rejectRow row d) (.act (.mark (.reject row d)))
  | rejectOwn (row : Row) (d : Diagnostic) : Parts (.rejectRow row d) (.act .own)
  | rejectLooks (row : Row) (d : Diagnostic) : Parts (.rejectRow row d) (.act .isStopped)
  | rejectChooses (row : Row) (d : Diagnostic) : Parts (.rejectRow row d) (.act (.choose .error))
  | sends (row : Row) (d : Diagnostic) (i : Nat) (out : Row) :
      Parts (.rejectRow row d) (.deliver i out)
  | rejects (row : Row) (d : Diagnostic) : Parts (.rejectRow row d) (.act (.add .rejected 1))
  | rejectFails (row : Row) (d : Diagnostic) {n : Node} (h : n.Fails) : Parts (.rejectRow row d) n
  | rejectDone (row : Row) (d : Diagnostic) (r : Except Fault Unit) :
      Parts (.rejectRow row d) (.act (.mark (.rejectDone r)))
  | endOwn : Parts .endOutput (.act .own)
  | ends : Parts .endOutput (.act .endOutput)
  | closes (i : Nat) : Parts .endOutput (.act (.close i))
  | error {n : Node} (h : n.Fails) : Parts .addError n
  | add (c : Counter) (n : Nat) : Parts (.add c n) (.act (.add c n))
  | look : Parts .look (.act .own)
  | isStopped : Parts .isStopped (.act .isStopped)
  | stop {r : StopReason} {n : Node} (h : n.Limits r) : Parts (.stop r) n
  | countErrors (n : Nat) : Parts (.addRunErrors n) (.act (.countErrors n))
  | errorLimit (k : Nat) {n : Node} (h : n.Limits .errorLimit) : Parts (.addRunErrors k) n
  | countSourceRows (n : Nat) : Parts (.recordSourceRows n) (.act (.countSourceRows n))
  | rowLimit (k : Nat) {n : Node} (h : n.Limits .rowLimit) : Parts (.recordSourceRows k) n
  | note (n : Note) : Parts (.note n) (.act (.note n))
  | hold : Parts .hold (.act .hold)

namespace Program

variable {allowed : Node → Prop}

theorem within_limits {r : StopReason} (h : ∀ n, n.Limits r → allowed n) :
    (stop r).Within allowed :=
  (within_perform (h _ .giveReason)).bind fun _ => within_perform (h _ .raiseFlag)

theorem within_parts_addRunErrors {n : Nat} (hcount : allowed (.act (.countErrors n)))
    (hlimit : ∀ n, n.Limits .errorLimit → allowed n) : (addRunErrors n).Within allowed := by
  refine (within_perform hcount).bind fun tally => ?_
  split
  · exact (within_limits hlimit).bind fun _ => within_pure _
  · exact within_pure _

theorem within_parts_recordSourceRows {n : Nat} (hcount : allowed (.act (.countSourceRows n)))
    (hlimit : ∀ n, n.Limits .rowLimit → allowed n) : (recordSourceRows n).Within allowed := by
  refine (within_perform hcount).bind fun tally => ?_
  split
  · exact (within_limits hlimit).bind fun _ => within_pure _
  · exact within_pure _

theorem within_fails (h : ∀ n, n.Fails → allowed n) : addError.Within allowed :=
  (within_perform (h _ .add)).bind fun _ =>
    (within_parts_addRunErrors (h _ .count) fun n hn => h n (.limit hn)).bind fun _ =>
      within_pure _

theorem within_parts_sendTo {o : Outlet} {row : Row} (hchoose : allowed (.act (.choose o)))
    (hdeliver : ∀ i, allowed (.deliver i row)) : (sendTo o row).Within allowed := by
  refine (within_perform hchoose).bind fun i? => ?_
  cases i? with
  | none => exact within_pure _
  | some i => exact ⟨hdeliver i, fun _ => trivial⟩

theorem within_parts_sendToAll {row : Row}
    (hchoose : ∀ place, allowed (.act (.choose (.output place))))
    (hdeliver : ∀ i, allowed (.deliver i row)) (places : List Nat) :
    (sendToAll row places).Within allowed := by
  induction places with
  | nil => exact within_pure _
  | cons place rest ih =>
    refine (within_parts_sendTo (hchoose place) hdeliver).bind fun r => ?_
    cases r with
    | ok _ => exact ih
    | error f => exact within_pure _

theorem within_parts_putRow (row : Row) : (putRow row).Within (Request.putRow row).Parts := by
  refine (within_perform (.put row)).bind fun _ => Within.bind ?_ fun r =>
    (within_perform (.putDone row r)).bind fun _ => within_pure r
  refine (within_perform (a := .own) (.putOwn row)).bind fun l => ?_
  split
  · exact within_pure _
  · refine (within_perform (a := .isStopped) (.putLooks row)).bind fun stopped => ?_
    split
    · exact within_pure _
    · refine (within_parts_sendToAll (.putChooses row) (.delivers row) _).bind fun r => ?_
      cases r with
      | error f => exact within_pure _
      | ok _ =>
        refine (within_perform (.adds row)).bind fun _ => ?_
        split
        · exact (within_parts_recordSourceRows (.counts row) fun n hn => .putLimit row hn).bind
            fun _ => within_pure _
        · exact within_pure _

theorem within_parts_sendError {row : Row} (hchoose : allowed (.act (.choose .error)))
    (hlook : allowed (.act .isStopped)) (hdeliver : ∀ i, allowed (.deliver i row)) :
    (sendError row).Within allowed := by
  refine (within_perform hchoose).bind fun i? => ?_
  cases i? with
  | none => exact within_pure _
  | some i =>
    refine (within_perform hlook).bind fun stopped => ?_
    split
    · exact within_pure _
    · exact ⟨hdeliver i, fun _ => trivial⟩

theorem within_parts_rejectRow (row : Row) (d : Diagnostic) :
    (rejectRow row d).Within (Request.rejectRow row d).Parts := by
  refine (within_perform (.reject row d)).bind fun _ => Within.bind ?_ fun r =>
    (within_perform (.rejectDone row d r)).bind fun _ => within_pure r
  refine (within_perform (a := .own) (.rejectOwn row d)).bind fun l => ?_
  split
  · exact within_pure _
  · split
    · exact within_pure _
    · next out _ =>
      refine (within_parts_sendError (.rejectChooses row d) (.rejectLooks row d)
        fun i => .sends row d i out).bind fun r => ?_
      cases r with
      | error f => exact within_pure _
      | ok _ =>
        exact (within_perform (.rejects row d)).bind fun _ =>
          (within_fails fun n hn => .rejectFails row d hn).bind fun _ => within_pure _

theorem within_parts_closeAll (hclose : ∀ i, allowed (.act (.close i))) (places : List Nat) :
    (closeAll places).Within allowed := by
  induction places with
  | nil => exact within_pure _
  | cons i rest ih => exact (within_perform (hclose i)).bind fun _ => ih

theorem within_parts_endOutput : endOutput.Within Request.endOutput.Parts := by
  refine (within_perform (a := .own) .endOwn).bind fun l => ?_
  split
  · exact within_pure _
  · exact (within_perform .ends).bind fun _ => within_parts_closeAll .closes _

/-- A request does what its parts do, and nothing else. -/
theorem within_parts (q : Request) : q.program.Within q.Parts := by
  cases q with
  | getRow =>
    exact (within_perform .get).bind fun _ => Within.bind ⟨.receive, fun _ => trivial⟩ fun row =>
      (within_perform (.got row)).bind fun _ => within_pure row
  | putRow row => exact within_parts_putRow row
  | rejectRow row d => exact within_parts_rejectRow row d
  | endOutput => exact within_parts_endOutput
  | addError => exact within_fails fun n hn => .error hn
  | add c n => exact within_perform (.add c n)
  | look => exact (within_perform (a := .own) .look).bind fun _ => within_pure _
  | isStopped => exact within_perform .isStopped
  | stop r => exact within_limits fun n hn => .stop hn
  | addRunErrors n => exact within_parts_addRunErrors (.countErrors n) fun _ hn => .errorLimit n hn
  | recordSourceRows n =>
    exact within_parts_recordSourceRows (.countSourceRows n) fun _ hn => .rowLimit n hn
  | note n => exact within_perform (.note n)
  | hold => exact within_perform .hold

end Program
end RowFlow
