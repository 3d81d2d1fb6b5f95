import ConditionLint.Diagnostic
import ConditionLint.Platform

/-!
# Options of an analysis

Severities and the wish for inconclusive findings steer the checks; all of them together with the
suppressed causes filter what is shown in the end. A stopped analysis looks at nothing more.
-/

namespace ConditionLint

/-- What an analysis is asked to do. -/
structure Options where
  platform : Platform := .native
  inconclusive : Bool := false
  style : Bool := true
  warning : Bool := true
  suppressed : Option (List Cause) := none
  stopped : Bool := false
  deriving DecidableEq, Repr

namespace Options

/-- Whether diagnostics of a severity are wanted. -/
def isEnabled (o : Options) : Severity → Bool
  | .style => o.style
  | .warning => o.warning

/-- Whether diagnostics of a cause are unwanted. -/
def isSuppressed (o : Options) (c : Cause) : Bool :=
  match o.suppressed with
  | some causes => causes.contains c
  | none => false

/-- Whether a diagnostic is shown. -/
def admits (o : Options) (d : Diagnostic) : Bool :=
  o.isEnabled d.severity && (o.inconclusive || !d.inconclusive) && !o.isSuppressed d.cause

/-- The diagnostics that are shown, in the order of their primary locations. -/
def select (o : Options) (ds : List Diagnostic) : List Diagnostic :=
  (ds.mergeSort Diagnostic.le).filter o.admits

end Options

end ConditionLint
