import RowFlow.Fault
import RowFlow.Text.Numeral

/-
Settings of a run.  They come from a definition or from variables laid over the
defaults; either way they are checked before use.
-/
namespace RowFlow

structure Config where
  /-- The capacity of each row set. -/
  queueSize : UInt64 := 100
  /-- How long a waiting copy waits before it looks at the stop flag again. -/
  waitMillis : UInt64 := 20
  /-- Progress is told every so many rows; never if zero. -/
  feedbackSize : UInt64 := 50000
  maxErrors : Option UInt64 := none
  rowLimit : Option UInt64 := none
deriving DecidableEq, Repr

namespace Config

inductive Problem where
  | noQueue
  | noErrors
  | badValue (raw variableName : String)
deriving DecidableEq, Repr

namespace Problem

def text : Problem → String
  | noQueue => "queue_size must be at least 1"
  | noErrors => "max_errors must be at least 1"
  | badValue raw variableName => s!"invalid value '{raw}' for {variableName}"

def fault (p : Problem) : Fault := .config p.text

end Problem

def problem? (c : Config) : Option Problem :=
  if c.queueSize = 0 then some .noQueue
  else if c.maxErrors = some 0 then some .noErrors
  else none

def validate (c : Config) : Except Fault Unit :=
  match c.problem? with
  | some p => .error p.fault
  | none => .ok ()

/-- A wait is never shorter than a millisecond. -/
def effectiveWait (c : Config) : Nat := max c.waitMillis.toNat 1

/-- A wait in whole milliseconds, as long as 64 bits can hold. -/
def millis (seconds nanos : Nat) : UInt64 :=
  (min (seconds * 1000 + nanos / 1000000) (UInt64.size - 1)).toUInt64

namespace Variable

def queueSize : String := "ETX_QUEUE_SIZE"
def waitMillis : String := "ETX_WAIT_TIMEOUT_MS"
def feedbackSize : String := "ETX_FEEDBACK_SIZE"
def maxErrors : String := "ETX_MAX_ERRORS"
def rowLimit : String := "ETX_ROW_LIMIT"

def read (lookup : String → Option String) (name : String) : Except Problem (Option UInt64) :=
  match lookup name with
  | none => .ok none
  | some raw =>
    match Text.Numeral.word? raw with
    | some n => .ok (some n)
    | none => .error (.badValue raw name)

end Variable

/-- The variables that are set, laid over the defaults. -/
def overlay (lookup : String → Option String) : Except Problem Config := do
  let default : Config := {}
  let queueSize ← Variable.read lookup Variable.queueSize
  let waitMillis ← Variable.read lookup Variable.waitMillis
  let feedbackSize ← Variable.read lookup Variable.feedbackSize
  let maxErrors ← Variable.read lookup Variable.maxErrors
  let rowLimit ← Variable.read lookup Variable.rowLimit
  return {
    queueSize := queueSize.getD default.queueSize
    waitMillis := waitMillis.getD default.waitMillis
    feedbackSize := feedbackSize.getD default.feedbackSize
    maxErrors, rowLimit }

/-- Settings from variables, checked. -/
def ofVariables (lookup : String → Option String) : Except Fault Config :=
  match overlay lookup with
  | .error p => .error p.fault
  | .ok c =>
    match c.problem? with
    | some p => .error p.fault
    | none => .ok c

end Config
end RowFlow
