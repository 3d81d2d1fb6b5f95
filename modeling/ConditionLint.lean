import ConditionLint.Binary64.Rounding
import ConditionLint.Binary64.Shortest
import ConditionLint.Binary64.Text
import ConditionLint.CType
import ConditionLint.Change
import ConditionLint.Check
import ConditionLint.Check.ConstantCondition
import ConditionLint.Check.ElseIf
import ConditionLint.Check.InnerCondition
import ConditionLint.Check.LogicalPair
import ConditionLint.Check.MaskedAssignment
import ConditionLint.Check.MaskedComparison
import ConditionLint.Check.OverflowTest
import ConditionLint.Check.RepeatedIf
import ConditionLint.Check.TypeRange
import ConditionLint.Condition.Comparison
import ConditionLint.Condition.Likeness
import ConditionLint.Condition.MaskTest
import ConditionLint.Condition.Opposition
import ConditionLint.Condition.RangeTest
import ConditionLint.Diagnostic
import ConditionLint.Draft
import ConditionLint.Fact
import ConditionLint.Finding
import ConditionLint.Finding.Wording
import ConditionLint.Interval
import ConditionLint.Interval.Union
import ConditionLint.Json
import ConditionLint.Ledger
import ConditionLint.Location
import ConditionLint.Operator
import ConditionLint.Options
import ConditionLint.Options.Arguments
import ConditionLint.Place
import ConditionLint.Place.Context
import ConditionLint.Platform
import ConditionLint.Platform.File
import ConditionLint.Proofs.Ancestry
import ConditionLint.Proofs.Arguments
import ConditionLint.Proofs.Cascade
import ConditionLint.Proofs.Chain
import ConditionLint.Proofs.Comparison
import ConditionLint.Proofs.Cone
import ConditionLint.Proofs.ConstantCondition
import ConditionLint.Proofs.DoubledNegation
import ConditionLint.Proofs.EarlyExit
import ConditionLint.Proofs.ElseIf
import ConditionLint.Proofs.Emission
import ConditionLint.Proofs.Equivalence
import ConditionLint.Proofs.Execution
import ConditionLint.Proofs.FloatingOpposition
import ConditionLint.Proofs.FloatingPair
import ConditionLint.Proofs.Following
import ConditionLint.Proofs.Forecast
import ConditionLint.Proofs.Frame
import ConditionLint.Proofs.Increment
import ConditionLint.Proofs.InnerChange
import ConditionLint.Proofs.InnerCondition
import ConditionLint.Proofs.Interval
import ConditionLint.Proofs.KnownFacts
import ConditionLint.Proofs.Layout
import ConditionLint.Proofs.Likeness
import ConditionLint.Proofs.Listing
import ConditionLint.Proofs.LogicalPair
import ConditionLint.Proofs.MaskedAssignment
import ConditionLint.Proofs.MaskedComparison
import ConditionLint.Proofs.OperandChange
import ConditionLint.Proofs.OperandOrder
import ConditionLint.Proofs.Opposition
import ConditionLint.Proofs.Order
import ConditionLint.Proofs.OverflowTest
import ConditionLint.Proofs.Phrase
import ConditionLint.Proofs.Position
import ConditionLint.Proofs.Program
import ConditionLint.Proofs.Reading
import ConditionLint.Proofs.Redundancy
import ConditionLint.Proofs.Relation
import ConditionLint.Proofs.Reports
import ConditionLint.Proofs.Rerun
import ConditionLint.Proofs.Resolution
import ConditionLint.Proofs.SamplePoints
import ConditionLint.Proofs.Scope
import ConditionLint.Proofs.ScopeTree
import ConditionLint.Proofs.Sharing
import ConditionLint.Proofs.SideEffects
import ConditionLint.Proofs.Solutions
import ConditionLint.Proofs.SourceOrder
import ConditionLint.Proofs.Suppression
import ConditionLint.Proofs.Token
import ConditionLint.Proofs.Tracking
import ConditionLint.Proofs.Trail
import ConditionLint.Proofs.Traversal
import ConditionLint.Proofs.TwosComplement
import ConditionLint.Proofs.TypeRange
import ConditionLint.Proofs.Unambiguity
import ConditionLint.Proofs.Value
import ConditionLint.Proofs.VerdictOrder
import ConditionLint.Relation
import ConditionLint.Relation.Pair
import ConditionLint.Scope
import ConditionLint.Session
import ConditionLint.SourceUnit
import ConditionLint.Tree
import ConditionLint.Tree.Label
import ConditionLint.Tree.Layout
import ConditionLint.Tree.Statement
import ConditionLint.Tree.Text
import ConditionLint.Tree.Traits
import ConditionLint.TwosComplement
