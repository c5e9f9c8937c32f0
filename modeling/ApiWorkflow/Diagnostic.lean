import ApiWorkflow.Check.Problem
import ApiWorkflow.Error
import ApiWorkflow.Settings.Basic
import ApiWorkflow.Word

/-! # Findings as an editor shows them

Lines and characters of an editor are numbers of 32 bits; larger ones are cut
down to the largest of them.
-/

namespace ApiWorkflow

/-- A place in a text, counted from zero. -/
structure Position where
  line : Nat
  character : Nat
  deriving Repr, DecidableEq, Inhabited

/-- A part of a text. -/
structure Range where
  start : Position
  stop : Position
  deriving Repr, DecidableEq, Inhabited

/-- The largest number of an editor. -/
def greatestNumber : Nat := wordBound 32 - 1

/-- A number cut down to what an editor can take. -/
def clamp (n : Nat) : Nat :=
  min n greatestNumber

/-- The part of a line between two columns. -/
def Range.ofLine (line column endColumn : Nat) : Range :=
  ⟨⟨clamp line, clamp column⟩, ⟨clamp line, max endColumn (clamp column)⟩⟩

/-- A marked part of a text. -/
structure Diagnostic where
  range : Range
  severity : Severity
  source : String
  message : String
  deriving Repr, DecidableEq, Inhabited

namespace Diagnostic

/-- A document that cannot be read is marked on its first line. -/
def ofMessage (settings : DiagnosticSettings) (message : String) : Diagnostic :=
  ⟨Range.ofLine 0 0 settings.endColumn, .error, settings.source, message⟩

def ofError (settings : DiagnosticSettings) (error : Error) : Diagnostic :=
  ofMessage settings error.message

def ofFinding (settings : DiagnosticSettings) (f : Finding) : Diagnostic :=
  ⟨Range.ofLine f.line f.column settings.endColumn, f.severity, settings.source, f.message⟩

end Diagnostic

def Position.json (p : Position) : Json :=
  .object [("line", .int p.line), ("character", .int p.character)]

def Range.json (r : Range) : Json :=
  .object [("start", r.start.json), ("end", r.stop.json)]

/-- The number of a severity in an editor. -/
def Severity.number : Severity → Nat
  | .error => 1
  | .warning => 2

def Diagnostic.json (d : Diagnostic) : Json :=
  .object [("range", d.range.json), ("severity", .int d.severity.number),
    ("source", .string d.source), ("message", .string d.message)]

end ApiWorkflow
