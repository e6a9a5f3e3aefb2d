import RowFlow.Row.Basic

/-
What can go wrong.  A fault is a cause; its wording is `Fault.message`.  A row
failure is the one kind of fault that a step can survive: it carries the row and
the diagnostic that go to the error output.
-/
namespace RowFlow

structure Diagnostic where
  message : String
  code : String
  field : Option String := none
deriving DecidableEq, Repr

inductive FileFailure where
  | notFound
  | isDirectory
  | notDirectory
  | alreadyExists
  | invalidPath
  | nameTooLong
  | notText
  | other (text : String)
deriving DecidableEq, Repr

def FileFailure.text : FileFailure → String
  | notFound => "no such file or directory"
  | isDirectory => "is a directory"
  | notDirectory => "not a directory"
  | alreadyExists => "file exists"
  | invalidPath => "file name contained an unexpected null character"
  | nameTooLong => "file name too long"
  | notText => "stream did not contain valid text"
  | other text => text

inductive Fault where
  | config (reason : String)
  | stepNotFound (step : String)
  | duplicateStep (step : String)
  | pluginNotFound (key : String)
  | duplicatePlugin (key : String)
  | cycle (steps : String)
  | schema (reason : String)
  | typeMismatch (field expected actual : String)
  | incompatible (rowSet reason : String)
  | fieldNotFound (field : String)
  | rowSetClosed (rowSet : String)
  | initFailed (step reason : String)
  | stepFailed (step reason : String)
  | rowFailed (row : Row) (diagnostic : Diagnostic)
  | errorHandlingDisabled (step : String)
  | resource (operation message : String)
  | cancelled (reason : String)
  | invalidOperation (message context : String)
  | thread (reason : String)
  | file (failure : FileFailure)
  | serialization (reason : String)
deriving DecidableEq, Repr

namespace Fault

def message : Fault → String
  | config reason => s!"configuration error: {reason}"
  | stepNotFound step => s!"step '{step}' not found"
  | duplicateStep step => s!"duplicate step '{step}'"
  | pluginNotFound key => s!"plugin '{key}' not registered"
  | duplicatePlugin key => s!"plugin '{key}' already registered"
  | cycle steps => s!"hop cycle detected through step '{steps}'"
  | schema reason => s!"schema error: {reason}"
  | typeMismatch field expected actual =>
    s!"type mismatch on field '{field}': expected {expected}, got {actual}"
  | incompatible rowSet reason => s!"incompatible row layout on row set '{rowSet}': {reason}"
  | fieldNotFound field => s!"field '{field}' not found"
  | rowSetClosed rowSet => s!"row set '{rowSet}' is already closed"
  | initFailed step reason => s!"step '{step}' failed to initialize: {reason}"
  | stepFailed step reason => s!"step '{step}' failed: {reason}"
  | rowFailed _ diagnostic => s!"row failed [{diagnostic.code}]: {diagnostic.message}"
  | errorHandlingDisabled step => s!"error handling is not enabled for step '{step}'"
  | resource operation message => s!"resource error during {operation}: {message}"
  | cancelled reason => s!"cancelled: {reason}"
  | invalidOperation message context => s!"invalid operation: {message}\nContext: {context}"
  | thread reason => s!"thread error: {reason}"
  | file failure => s!"io error: {failure.text}"
  | serialization reason => s!"serialization error: {reason}"

def isRowFailure : Fault → Bool
  | rowFailed _ _ => true
  | _ => false

end Fault

inductive Ending.{u} (α : Type u) where
  | returned (result : Except Fault α)
  | crashed (text : String)

/-- How a call ends that asks for more storage than there are addresses. -/
def Ending.overflow.{u} {α : Type u} : Ending α := .crashed "capacity overflow"

end RowFlow
