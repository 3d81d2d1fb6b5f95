import ConditionLint.Check
import ConditionLint.Finding.Wording

/-!
# Analysis of a source unit

A session runs checks over one source unit and collects their findings in a ledger. Emitting turns
the findings into diagnostics, sends those that the options select, in their order, and counts them; the
reported conditions stay in place. An analysis runs all checks and emits; it fails when it was stopped.
-/

namespace ConditionLint

/-- An analysis under way. -/
structure Session where
  source : SourceUnit
  options : Options
  ledger : Ledger := {}

/-- Why an analysis has no result. -/
inductive AnalysisError where
  | cancelled
  deriving DecidableEq, Repr

/-- The message of an error. -/
def AnalysisError.message : AnalysisError → String
  | cancelled => "Analysis cancelled"

/-- The diagnostics that were sent at once, and how many they are. -/
structure Emission where
  sent : List Diagnostic
  count : Nat

/-- What an analysis that was not stopped tells about itself: how many checks ran, and how many diagnostics
were sent. -/
structure Summary where
  checksRun : Nat
  emitted : Nat
  deriving DecidableEq, Repr

/-- What an analysis gives: the diagnostics that were sent, and a summary. -/
structure Report where
  diagnostics : List Diagnostic
  summary : Except AnalysisError Summary

/-- How many checks ran. -/
def Report.checksRun (r : Report) : Except AnalysisError Nat := r.summary.map Summary.checksRun

namespace Session

/-- Run some checks. -/
def check (s : Session) (cs : List Check) : Session :=
  { s with ledger := Check.runAll cs s.options s.source s.ledger }

/-- Stop the analysis. -/
def stop (s : Session) : Session := { s with options := { s.options with stopped := true } }

/-- The diagnostics of the findings that were not emitted yet. -/
def pending (s : Session) : List Diagnostic := s.ledger.findings.map fun f => f.diagnostic s.source

/-- Emit the pending diagnostics that the options select. -/
def emit (s : Session) : Emission × Session :=
  let sent := s.options.select s.pending
  (⟨sent, sent.length⟩, { s with ledger := { s.ledger with findings := [] } })

/-- Run all checks and emit. -/
def complete (s : Session) : Report × Session :=
  let (emission, s) := (s.check Check.all).emit
  let summary := if s.options.stopped then .error .cancelled else .ok ⟨Check.all.length, emission.count⟩
  (⟨emission.sent, summary⟩, s)

end Session

/-- Analyze a source unit. -/
def SourceUnit.analyze (u : SourceUnit) (o : Options) : Report :=
  (Session.mk u o {}).complete.1

end ConditionLint
