import ConditionLint.Condition.Likeness
import ConditionLint.Finding

/-!
# Tests for overflow

`x + 1 < x` asks whether the sum overflows. For signed integers and pointers overflow is undefined, so a
compiler may decide the test as if it never happened: by the sign of what is added, or as a constant.
-/

namespace ConditionLint

namespace Tree

/-- Whether overflow of the expression is undefined. -/
def overflowIsUndefined (t : Tree) : Bool := t.hasType fun ty => ty.isSignedInteger || ty.isPointer

/-- Whether the node is a positive number, or a value that is never negative by its type. -/
def isPositiveAmount (t : Tree) : Bool :=
  if t.isNumber then t.value?.any fun v => 0 < v
  else t.hasType fun ty => ty.isIntegral && ty.isUnsigned

/-- What a compiler may make of the comparison of `e + amount` with `e`, or of `e - amount` when
`subtracts` is set. -/
def overflowEffect? (amount : Tree) (subtracts : Bool) (order : Order) : Option OverflowEffect :=
  let order := if subtracts then order.swap else order
  if amount.isPositiveAmount then some (.constant (order = .gt || order = .ge))
  else if amount.isIdentifier && amount.referent.isSome then some (.signTest amount order)
  else none

/-- What a compiler may make of a comparison whose left side adds to, or subtracts from, the right
side. -/
def overflowOf? (side other : Tree) (order : Order) : Option OverflowEffect :=
  let amountEffect? (e amount : Tree) (subtracts : Bool) : Option OverflowEffect :=
    if !e.hasValue && same e other then overflowEffect? amount subtracts order else none
  if side.overflowIsUndefined then
    match side.binary? with
    | some (.arith .add, a, b) => amountEffect? a b false <|> amountEffect? b a false
    | some (.arith .sub, a, b) => amountEffect? a b true
    | _ => none
  else none

end Tree

namespace Place

/-- The finding about one side of an ordering. -/
def overflowFinding? (p : Place) (side other : Tree) (order : Order) : Option Finding :=
  (Tree.overflowOf? side other order).map (.overflowTest p (side.hasType CType.isPointer))

/-- The findings about the comparison at a place, from both of its sides. -/
def overflowTests (p : Place) : List Finding :=
  match p.tree.comparison? with
  | some (order, lhs, rhs) =>
    if order.isEquality then []
    else (p.overflowFinding? lhs rhs order).toList ++ (p.overflowFinding? rhs lhs order.swap).toList
  | none => []

end Place

end ConditionLint
