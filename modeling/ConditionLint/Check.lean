import ConditionLint.Check.ConstantCondition
import ConditionLint.Check.ElseIf
import ConditionLint.Check.InnerCondition
import ConditionLint.Check.LogicalPair
import ConditionLint.Check.MaskedAssignment
import ConditionLint.Check.MaskedComparison
import ConditionLint.Check.OverflowTest
import ConditionLint.Check.TypeRange

/-!
# The checks

There are eleven checks. They run one after the other in a fixed order, and each looks at every node in
source order; where two of them would report the same condition, the earlier one does.
-/

namespace ConditionLint

/-- The checks of an analysis. -/
inductive Check where
  | maskedAssignment
  | badMask
  | maskedComparison
  | repeatedIf
  | elseIf
  | innerCondition
  | logicalPair
  | overflowTest
  | remainder
  | constantCondition
  | typeRange
  deriving DecidableEq, Repr

namespace Check

/-- All checks, in the order in which they run. -/
def all : List Check :=
  [maskedAssignment, badMask, maskedComparison, repeatedIf, elseIf, innerCondition, logicalPair,
    overflowTest, remainder, constantCondition, typeRange]

/-- The name of a check. -/
def name : Check → String
  | maskedAssignment => "assignIf"
  | badMask => "badBitmaskCheck"
  | maskedComparison => "comparison"
  | repeatedIf => "duplicateCondition"
  | elseIf => "multiCondition"
  | innerCondition => "multiCondition2"
  | logicalPair => "checkIncorrectLogicOperator"
  | overflowTest => "checkInvalidTestForOverflow"
  | remainder => "checkModuloAlwaysTrueFalse"
  | constantCondition => "alwaysTrueFalse"
  | typeRange => "checkCompareValueOutOfTypeRange"

/-- Whether a check runs under the given options. A stopped analysis runs none. -/
def isEnabled (c : Check) (o : Options) : Bool :=
  !o.stopped
    && match c with
      | maskedAssignment => true
      | badMask => true
      | maskedComparison => o.style
      | repeatedIf => o.style
      | elseIf => o.style
      | innerCondition => o.warning
      | logicalPair => true
      | overflowTest => o.warning
      | remainder => o.warning
      | constantCondition => o.style
      | typeRange => o.style && o.platform.givesRanges

/-- What a check finds at one node, given what was reported before. -/
def findingsAt (c : Check) (o : Options) (u : SourceUnit) (l : Ledger) (p : Place) : List Finding :=
  match c with
  | maskedAssignment => p.maskContradictions u
  | badMask => p.badMasks u
  | maskedComparison => p.constantMaskTests u
  | repeatedIf => p.repeatedIfs u
  | elseIf => p.elseIfs u l
  | innerCondition => p.innerConditions u
  | logicalPair => p.logicalPairs o
  | overflowTest => p.overflowTests
  | remainder => p.unreachedRemainders
  | constantCondition => p.constantConditions u
  | typeRange => p.rangeFindings o.platform u

/-- Run a check over a source unit. -/
def run (c : Check) (o : Options) (u : SourceUnit) (l : Ledger) : Ledger :=
  if c.isEnabled o then u.scanned.foldl (fun l p => l.fileAll (c.findingsAt o u l p)) l else l

/-- Run several checks, one after the other. -/
def runAll (cs : List Check) (o : Options) (u : SourceUnit) (l : Ledger) : Ledger :=
  cs.foldl (fun l c => c.run o u l) l

end Check

end ConditionLint
