import ConditionLint.Location

/-!
# Diagnostics

A diagnostic is what the user reads: a message with the locations that explain it, the last of which is
the primary one. Severity and cause are what options select by.
-/

namespace ConditionLint

/-- How serious a diagnostic is. -/
inductive Severity where
  | style
  | warning
  deriving DecidableEq, Repr

/-- The kind of reasoning behind a diagnostic; options suppress by it. -/
inductive Cause where
  | bitwise
  | comparison
  | logic
  | overflow
  | typeRange
  | knownCondition
  | other
  deriving DecidableEq, Repr

/-- A message about the source. -/
structure Diagnostic where
  path : List (Location × String)
  rule : String
  severity : Severity
  message : String
  cwe : Nat
  inconclusive : Bool
  cause : Cause
  deriving DecidableEq, Repr

/-- The word for a severity. -/
def Severity.text : Severity → String
  | .style => "style"
  | .warning => "warning"

namespace Diagnostic

/-- The location that the diagnostic is about. -/
def primary? (d : Diagnostic) : Option Location := d.path.getLast?.map Prod.fst

/-- Whether one diagnostic comes before another, or at the same location. Those without a location
come first. -/
def le (d e : Diagnostic) : Bool :=
  match d.primary?, e.primary? with
  | none, _ => true
  | some _, none => false
  | some a, some b => a.le b

/-- The diagnostic on one line. -/
def text (d : Diagnostic) : String :=
  (match d.primary? with
    | some l => l.text ++ ": "
    | none => "")
    ++ d.severity.text ++ ": " ++ d.message ++ " [" ++ d.rule ++ "]"
    ++ (if d.inconclusive then " (inconclusive)" else "")

end Diagnostic

end ConditionLint
