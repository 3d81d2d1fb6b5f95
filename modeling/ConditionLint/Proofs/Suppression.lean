import ConditionLint.Session

/-!
# Suppressed causes

What is suppressed is left out of what is shown, and changes nothing else. No check reads the suppressed causes, so
a finding that will not be shown is made all the same, and covers its condition for the checks that run later. The
diagnostics are put in order before any of them is left out, so those that are shown stay in that order.
-/

namespace ConditionLint

namespace Check

variable (c : Check) (o : Options) (suppressed : Option (List Cause)) (u : SourceUnit) (l : Ledger)

/-- What a check finds at a node does not depend on what is suppressed. -/
theorem findingsAt_suppressing (p : Place) :
    c.findingsAt { o with suppressed := suppressed } u l p = c.findingsAt o u l p := by
  cases c <;> rfl

/-- A check runs whatever is suppressed. -/
theorem isEnabled_suppressing : c.isEnabled { o with suppressed := suppressed } = c.isEnabled o := by
  cases c <;> rfl

/-- A run of a check gives the same ledger whatever is suppressed. -/
theorem run_suppressing : c.run { o with suppressed := suppressed } u l = c.run o u l := by
  simp only [run, isEnabled_suppressing, findingsAt_suppressing]

/-- So does a run of several checks. -/
theorem runAll_suppressing (cs : List Check) :
    runAll cs { o with suppressed := suppressed } u l = runAll cs o u l := by
  simp only [runAll, run_suppressing]

end Check

namespace Options

variable (o : Options) (causes : List Cause)

/-- A diagnostic is shown if it is when nothing is suppressed, and its cause is not. -/
theorem admits_suppressing (d : Diagnostic) : { o with suppressed := some causes }.admits d =
    (decide (d.cause ∉ causes) && { o with suppressed := none }.admits d) := by
  by_cases hcause : d.cause ∈ causes <;> simp [admits, isSuppressed, isEnabled, hcause]

/-- What is suppressed is left out of what is shown otherwise. -/
theorem select_suppressing (ds : List Diagnostic) : { o with suppressed := some causes }.select ds =
    ({ o with suppressed := none }.select ds).filter fun d => d.cause ∉ causes := by
  rw [select, select, List.filter_filter]
  exact List.filter_congr fun d _ => o.admits_suppressing causes d

end Options

namespace SourceUnit

variable (u : SourceUnit) (o : Options)

/-- Whatever is suppressed, an analysis selects from the same diagnostics. -/
theorem diagnostics_suppressing (suppressed : Option (List Cause)) :
    (u.analyze { o with suppressed := suppressed }).diagnostics =
      { o with suppressed := suppressed }.select ((Session.mk u o {}).check Check.all).pending := by
  have hledger : Check.runAll Check.all { o with suppressed := suppressed } u {} = Check.runAll Check.all o u {} :=
    Check.runAll_suppressing o suppressed u {} Check.all
  rw [Session.pending, Session.check, ← hledger]
  rfl

/-- An analysis runs all checks, unless it was stopped. -/
theorem checksRun_analyze :
    (u.analyze o).checksRun = if o.stopped then .error .cancelled else .ok Check.all.length := by
  change Except.map Summary.checksRun (if o.stopped then _ else _) = _
  split <;> rfl

/-- With some causes suppressed, an analysis shows those diagnostics that it shows otherwise whose causes are not
suppressed, in the same order, and ends in the same way. -/
theorem analyze_suppressing (causes : List Cause) :
    (u.analyze { o with suppressed := some causes }).diagnostics =
        ((u.analyze { o with suppressed := none }).diagnostics.filter fun d => d.cause ∉ causes) ∧
      (u.analyze { o with suppressed := some causes }).checksRun =
        (u.analyze { o with suppressed := none }).checksRun := by
  constructor
  · rw [diagnostics_suppressing, diagnostics_suppressing, o.select_suppressing]
  · rw [checksRun_analyze, checksRun_analyze]

end SourceUnit

end ConditionLint
