import ConditionLint.Operator
import ConditionLint.TwosComplement

/-!
# Comparisons of masked values

`X & k` has only bits of `k`, so it lies between `0` and `k`; `X | k` has all bits of `k`, so it is at
least `k` when `X` is unsigned. The constants alone then decide some comparisons of a masked value.
-/

namespace ConditionLint

/-- The operators that combine a value with a mask. -/
inductive MaskOp where
  | and
  | or
  deriving DecidableEq, Repr

namespace MaskOp

/-- The operator as it is written. -/
def symbol : MaskOp → String
  | and => "&"
  | or => "|"

/-- The operator of the expression. -/
def toArith : MaskOp → ArithOp
  | and => .bitAnd
  | or => .bitOr

/-- The mask operator that a binary operator is. -/
def ofBinary? : BinaryOp → Option MaskOp
  | .arith .bitAnd => some and
  | .arith .bitOr => some or
  | _ => none

end MaskOp

/-- The comparison `(X op mask) order bound`. -/
structure MaskTest where
  op : MaskOp
  mask : Int
  order : Order
  bound : Int
  deriving DecidableEq, Repr

namespace MaskTest

/-- The truth value that the comparison has for every `X`, as far as the bits of the constants show it.
The sign of `X` matters for lower bounds only. -/
def truth? (t : MaskTest) (unsigned : Bool) : Option Bool :=
  if t.mask < 0 || t.bound < 0 then none
  else
    match t.op, t.order with
    | .and, .eq => if TwosComplement.and t.mask t.bound ≠ t.bound then some false else none
    | .and, .ne => if TwosComplement.and t.mask t.bound ≠ t.bound then some true else none
    | .or, .eq => if TwosComplement.or t.mask t.bound ≠ t.bound then some false else none
    | .or, .ne => if TwosComplement.or t.mask t.bound ≠ t.bound then some true else none
    | .and, .ge => if t.mask < t.bound then some false else none
    | .and, .lt => if t.mask < t.bound then some true else none
    | .and, .gt => if t.mask ≤ t.bound then some false else none
    | .and, .le => if t.mask ≤ t.bound then some true else none
    | .or, .ge => if unsigned && t.bound ≤ t.mask then some true else none
    | .or, .lt => if unsigned && t.bound ≤ t.mask then some false else none
    | .or, .gt => if unsigned && t.bound < t.mask then some true else none
    | .or, .le => if unsigned && t.bound < t.mask then some false else none

end MaskTest

end ConditionLint
