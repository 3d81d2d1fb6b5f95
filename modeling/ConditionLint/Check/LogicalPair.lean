import ConditionLint.Condition.Opposition
import ConditionLint.Finding
import ConditionLint.Options
import ConditionLint.Place.Context

/-!
# Pairs of comparisons joined by a connective

Two comparisons of the same expression joined by `&&` or `||` may make the whole condition constant, or
one of them redundant. An operand that occurs again, as it is or negated, in the parentheses behind the
connective makes the condition longer than needed.
-/

namespace ConditionLint

namespace Comparison

/-- Whether the base has a type that is not known. -/
def isUntyped (c : Comparison) : Bool := c.base.hasType fun ty => ty.base = .unknown

/-- Whether the comparison is about floating numbers. -/
def isFloat (c : Comparison) : Bool :=
  c.test.relation.value.isFloat || c.base.hasType CType.isFloat

/-- Whether the comparison is `==` or `!=`. -/
def isEquality (c : Comparison) : Bool := c.test.relation.order.isEquality

end Comparison

/-- Which of two comparisons is enough for the connective when the given one implies the other. -/
def Connective.dominantWhen (c : Connective) (firstImplies : Bool) : Dominance :=
  match c, firstImplies with
  | .and, true => .first
  | .and, false => .second
  | .or, true => .second
  | .or, false => .first

namespace Tree

/-- The comparison next to a connective: the right operand of the same connective, or the tree. -/
def lastOperand (c : Connective) (t : Tree) : Tree :=
  match t.binary? with
  | some (op, _, last) => if op = .logic c then last else t
  | none => t

/-- Whether the operands of a connective decide it: conjuncts that exclude each other, or disjuncts
that are opposites. -/
def decides (c : Connective) (lhs rhs : Tree) : Bool :=
  match c with
  | .and => exclusive lhs rhs
  | .or => opposite lhs rhs

end Tree

namespace Place

/-- An operand that occurs again, or negated, within the other operand. -/
def absorption? (p : Place) (c : Connective) (lhs rhs : Tree) : Option Finding :=
  match rhs.binary? with
  | some (.logic c', inner, rest) =>
    if c' = c then none
    else if Tree.opposite lhs inner then some (.absorbed p c lhs inner rest true)
    else if Tree.same lhs inner then some (.absorbed p c lhs inner rest false)
    else none
  | _ => none

/-- The finding about a pair of which one comparison implies the other. Whether that makes one of them
redundant is decided again over the real numbers. -/
def implicationFinding (p : Place) (c : Connective) (a b : Comparison) (firstImplies inconclusive : Bool) :
    Finding :=
  let expected := c.dominantWhen firstImplies
  if dominance c a.meaning b.meaning = expected then
    if expected = .first then .redundantComparison p b a inconclusive
    else .redundantComparison p a b inconclusive
  else if firstImplies then .impliedComparison p a b inconclusive
  else .impliedComparison p b a inconclusive

/-- The finding about two comparisons of one expression. -/
def comparedPair? (o : Options) (p : Place) (c : Connective) (a b : Comparison) (inconclusive : Bool) :
    Option Finding :=
  let outcome := Outcome.ofTests c (a.base.hasType CType.isUnsigned) a.test b.test
  if outcome.alwaysTrue || outcome.alwaysFalse then
    if o.warning then some (.constantLogic p (some (a, b)) outcome.alwaysTrue inconclusive) else none
  else if o.style && outcome.firstImplies != outcome.secondImplies then
    some (p.implicationFinding c a b outcome.firstImplies inconclusive)
  else none

/-- The finding about the two operands of a connective. Floating numbers are compared by order only. -/
def operandPair? (o : Options) (p : Place) (c : Connective) (lhs rhs : Tree) : Option Finding :=
  let left := lhs.lastOperand c
  let first := left.comparisonOf?
  let second := rhs.comparisonOf?
  let inconclusive := first.any Comparison.inconclusive || second.any Comparison.inconclusive
  let float := first.any Comparison.isFloat || second.any Comparison.isFloat
  if inconclusive && !o.inconclusive then none
  else if first.any Comparison.isUntyped || second.any Comparison.isUntyped then none
  else if !float && Tree.decides c lhs rhs then
    if o.warning then some (.constantLogic p none (c = .or) inconclusive) else none
  else
    match first, second with
    | some a, some b =>
      if Tree.same left rhs || !Tree.same a.base b.base then none
      else if float && (a.isEquality || b.isEquality) then none
      else p.comparedPair? o c a b inconclusive
    | _, _ => none

/-- The finding about a logical node, outside of compile-time branches. -/
def logicalPairs (o : Options) (p : Place) : List Finding :=
  match p.tree.binary? with
  | some (.logic c, lhs, rhs) =>
    if p.underConstexpr then []
    else ((if o.style then p.absorption? c lhs rhs else none) <|> p.operandPair? o c lhs rhs).toList
  | _ => []

end Place

end ConditionLint
