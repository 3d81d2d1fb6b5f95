import ConditionLint.Relation

/-!
# Comparisons with a value at the edge of a range

A value outside of the range of an expression decides every comparison with it. A value on one of the
bounds decides the comparison that asks for what the bound promises.
-/

namespace ConditionLint

/-- The comparison of an expression with a value. The value may stand on either side. -/
structure RangeTest where
  order : Order
  value : Int
  valueOnLeft : Bool
  deriving DecidableEq, Repr

namespace RangeTest

/-- The order with the expression on the left. -/
def towards (t : RangeTest) : Order := if t.valueOnLeft then t.order.swap else t.order

/-- The truth value that the comparison has for every expression between the bounds. -/
def truth? (t : RangeTest) (low high : Int) : Option Bool :=
  if t.value < low || high < t.value then
    match t.towards with
    | .eq => some false
    | .ne => some true
    | .lt => some (high < t.value)
    | .le => some (high < t.value)
    | .gt => some (t.value < low)
    | .ge => some (t.value < low)
  else
    match t.towards with
    | .ge => if t.value = low then some true else none
    | .lt => if t.value = low then some false else none
    | .le => if t.value = high then some true else none
    | .gt => if t.value = high then some false else none
    | _ => none

end RangeTest

end ConditionLint
