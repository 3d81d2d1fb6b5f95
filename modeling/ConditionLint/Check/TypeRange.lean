import ConditionLint.Condition.RangeTest
import ConditionLint.Finding
import ConditionLint.Platform
import ConditionLint.SourceUnit

/-!
# Comparisons that a range decides

The values of a type lie between two bounds, and a remainder is less than its divisor. A comparison
with a constant beyond such a bound, or on it, may have only one result.
-/

namespace ConditionLint

namespace Tree

/-- The divisor of a remainder. -/
def divisor? (t : Tree) : Option Tree :=
  match t.binary? with
  | some (.arith .rem, _, divisor) => some divisor
  | _ => none

/-- The divisor and the number of a comparison between a remainder and a number. -/
def remainderTest? (lhs rhs : Tree) : Option (Tree × Tree) :=
  match lhs.divisor?, rhs.divisor? with
  | some divisor, _ => if rhs.isNumber then some (divisor, rhs) else none
  | none, some divisor => if lhs.isNumber then some (divisor, lhs) else none
  | none, none => none

/-- The divisor of a remainder that is compared with a number not below it. -/
def reachedDivisor? (lhs rhs : Tree) : Option Tree :=
  (remainderTest? lhs rhs).bind fun (divisor, number) =>
    match divisor.spelledNumber?, number.spelledNumber? with
    | some n, some m => if n ≤ m then some divisor else none
    | _, _ => none

/-- Whether a negative value stands in a type that has none. -/
def isWrappedNegative (t : Tree) (value : Int) : Bool :=
  value < 0 && t.hasType fun ty => !ty.isSignedInteger

end Tree

namespace Place

/-- A comparison of a remainder with a number that it never reaches. -/
def unreachedRemainders (p : Place) : List Finding :=
  match p.tree.comparison? with
  | some (_, lhs, rhs) => ((Tree.reachedDivisor? lhs rhs).map (.unreachedRemainder p)).toList
  | none => []

/-- The type whose range bounds a comparison with a value: that of the other side, unless it is a
pointer or the type of the value too. -/
def boundingType? (value other : Tree) (number : Int) : Option CType :=
  other.ctype.filter fun ty =>
    !ty.isPointer && !value.isWrappedNegative number && !value.hasType fun vt => vt.agreesWith ty

/-- The finding about a known value on one side of a comparison. -/
def rangeFinding? (platform : Platform) (order : Order) (value : Place) (other : Tree)
    (valueOnLeft : Bool) : Option Finding :=
  value.tree.value?.bind fun number =>
    (boundingType? value.tree other number).bind fun ty =>
      (ty.range? platform).bind fun (low, high) =>
        ((RangeTest.mk order number valueOnLeft).truth? low high).map
          (.outOfRange value ty number)

/-- The findings about the comparison at a place, from both of its sides. -/
def rangeFindings (platform : Platform) (u : SourceUnit) (p : Place) : List Finding :=
  match p.tree.comparison? with
  | some (order, lhs, rhs) =>
    (rangeFinding? platform order (u.placeOf lhs) rhs true).toList
      ++ (rangeFinding? platform order (u.placeOf rhs) lhs false).toList
  | none => []

end Place

end ConditionLint
