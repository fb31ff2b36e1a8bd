import ArmBackend.CompileError

/-!
# Diagnostics

A diagnostic is one message to the user; a report is the list of those given so
far, in order.
-/

namespace ArmBackend

inductive Severity where
  | error
  | warning
  | note
deriving DecidableEq

namespace Severity

def name : Severity → String
  | error => "error"
  | warning => "warning"
  | note => "note"

def all : List Severity :=
  [error, warning, note]

def ofName? (text : String) : Option Severity :=
  all.find? fun severity => severity.name == text

end Severity

structure Diagnostic where
  severity : Severity
  message : String
  position : Position
  notes : List String := []
deriving DecidableEq

namespace Diagnostic

def error (message : String) (position : Position) : Diagnostic :=
  { severity := .error, message, position }

def warning (message : String) (position : Position) : Diagnostic :=
  { severity := .warning, message, position }

def note (message : String) (position : Position) : Diagnostic :=
  { severity := .note, message, position }

def ofError (failure : CompileError) : Diagnostic :=
  error failure.text (failure.position?.getD .unknown)

def isError (diagnostic : Diagnostic) : Bool :=
  diagnostic.severity == .error

def isWarning (diagnostic : Diagnostic) : Bool :=
  diagnostic.severity == .warning

def text (diagnostic : Diagnostic) : String :=
  (if diagnostic.position.isKnown then diagnostic.position.text ++ ": " else "") ++
    diagnostic.severity.name ++ ": " ++ diagnostic.message ++
    String.join (diagnostic.notes.map fun note => "\n  note: " ++ note)

end Diagnostic

/-- The diagnostics given so far, the oldest first. -/
structure Report where
  diagnostics : List Diagnostic := []
deriving DecidableEq

namespace Report

def empty : Report := {}

def add (report : Report) (diagnostic : Diagnostic) : Report :=
  ⟨report.diagnostics ++ [diagnostic]⟩

def addAll (report : Report) (diagnostics : List Diagnostic) : Report :=
  ⟨report.diagnostics ++ diagnostics⟩

def addError (report : Report) (failure : CompileError) : Report :=
  report.add (.ofError failure)

def errorCount (report : Report) : Nat :=
  report.diagnostics.countP Diagnostic.isError

def warningCount (report : Report) : Nat :=
  report.diagnostics.countP Diagnostic.isWarning

def hasErrors (report : Report) : Bool :=
  decide (0 < report.errorCount)

def counted (count : Nat) (noun : String) : String :=
  toString count ++ " " ++ noun ++ if count = 1 then "" else "s"

def summary (report : Report) : String :=
  match report.errorCount, report.warningCount with
  | 0, 0 => "No errors or warnings"
  | 0, warnings => counted warnings "warning"
  | errors, 0 => counted errors "error"
  | errors, warnings => counted errors "error" ++ " and " ++ counted warnings "warning"

end Report

end ArmBackend
