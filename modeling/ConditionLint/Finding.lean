import ConditionLint.Condition.Comparison
import ConditionLint.Condition.MaskTest
import ConditionLint.Place

/-!
# Findings

A finding says what is wrong with one or two conditions, and where. It holds places and numbers; its
wording is made from them later. The subjects of a finding are the conditions that it is about: once
they are reported, further findings about them are noise.
-/

namespace ConditionLint

/-- What a compiler may make of an overflow test. -/
inductive OverflowEffect where
  /-- The test has this truth value. -/
  | constant (truth : Bool)
  /-- The test becomes a comparison of the operand with zero. -/
  | signTest (operand : Tree) (order : Order)

/-- How the value of a condition is used. -/
inductive Usage where
  /-- It controls a branch, a loop or a ternary, possibly through `!`, `&&` and `||`. -/
  | branch
  /-- It is returned. -/
  | returned
  /-- It is used in another way. -/
  | other
  deriving DecidableEq, Repr

/-- What a check found. -/
inductive Finding where
  /-- A variable is compared with a value that the mask assigned to it rules out. -/
  | ruledOutByMask (assignment comparison : Place) (side : Tree) (order : Order) (value : Int)
  /-- A variable is masked with bits that the mask assigned to it has cleared. -/
  | disjointMasks (assignment use : Place) (assigned used : Int)
  /-- The comparison of a masked value has always the same result. -/
  | constantMaskTest (masked : Place) (test : MaskTest) (truth : Bool)
  /-- `|` with a nonzero operand is used as a truth value. -/
  | alwaysTrueMask (mask : Place)
  /-- `|` with a zero operand. -/
  | idleMask (mask : Place)
  /-- Two consecutive `if` have the same condition. -/
  | repeatedIf (first second : Place)
  /-- A condition of an `else if` is true only where an earlier one of the chain is. -/
  | coveredElseIf (first second : Place)
  /-- A condition of an `else if` is the opposite of an earlier one of the chain. -/
  | oppositeElseIf (first second : Place)
  /-- A condition excludes the one that holds around it. -/
  | oppositeInner (outer inner : Place)
  /-- A condition is the one that holds around it. -/
  | identicalInner (outer inner : Place)
  /-- A condition is repeated behind an `if` that leaves when it is true. -/
  | repeatedAfterExit (first second : Place)
  /-- `&&` is never true or `||` is always true; shown as the pair of comparisons, if there is one. -/
  | constantLogic (node : Place) (pair : Option (Comparison × Comparison)) (truth inconclusive : Bool)
  /-- The right operand of a logical node repeats, or negates, the left one within. -/
  | absorbed (node : Place) (connective : Connective) (lhs inner rest : Tree) (negated : Bool)
  /-- One of two comparisons decides a logical node alone. -/
  | redundantComparison (node : Place) (redundant sufficient : Comparison) (inconclusive : Bool)
  /-- One of two comparisons of a logical node implies the other. -/
  | impliedComparison (node : Place) (implying implied : Comparison) (inconclusive : Bool)
  /-- A test for overflow relies on undefined behaviour. -/
  | overflowTest (node : Place) (isPointer : Bool) (effect : OverflowEffect)
  /-- A remainder is compared with a number that it never reaches. -/
  | unreachedRemainder (node : Place) (divisor : Tree)
  /-- A condition has a known truth value. -/
  | constantCondition (node : Place) (use : Usage) (truth : Bool) (steps : List Step)
  /-- An expression is compared with a value at the edge of its type's range or outside of it. -/
  | outOfRange (value : Place) (ctype : CType) (number : Int) (truth : Bool)

namespace Finding

/-- The conditions that a finding is about. Findings about single operators have none. -/
def subjects : Finding → List Place
  | ruledOutByMask _ comparison _ _ _ => [comparison]
  | disjointMasks _ _ _ _ => []
  | constantMaskTest _ _ _ => []
  | alwaysTrueMask _ => []
  | idleMask _ => []
  | repeatedIf first second => [first, second]
  | coveredElseIf _ second => [second]
  | oppositeElseIf first second => [first, second]
  | oppositeInner outer inner => [outer, inner]
  | identicalInner outer inner => [outer, inner]
  | repeatedAfterExit first second => [first, second]
  | constantLogic node _ _ _ => [node]
  | absorbed node _ _ _ _ _ => [node]
  | redundantComparison node _ _ _ => [node]
  | impliedComparison node _ _ _ => [node]
  | overflowTest node _ _ => [node]
  | unreachedRemainder node _ => [node]
  | constantCondition node _ _ _ => [node]
  | outOfRange value _ _ _ => [value]

end Finding

end ConditionLint
