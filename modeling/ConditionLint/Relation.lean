import ConditionLint.Binary64.Text
import ConditionLint.Interval.Union

/-!
# Relations between an expression and a constant

`x op c` for an unnamed `x` is viewed as the set of values that satisfy it. Two relations with integer
constants are compared over the integers; as soon as one constant is a binary64 value, both are
compared over the reals, as intervals of binary64 values.
-/

namespace ConditionLint

/-- The six comparisons. -/
inductive Order where
  | eq
  | ne
  | lt
  | le
  | gt
  | ge
  deriving DecidableEq, Repr

namespace Order

/-- All comparisons, in the order in which they are listed. -/
def all : List Order := [eq, ne, lt, le, gt, ge]

/-- The operator as it is written. -/
def symbol : Order → String
  | eq => "=="
  | ne => "!="
  | lt => "<"
  | le => "<="
  | gt => ">"
  | ge => ">="

/-- The comparison that holds exactly when this one does not. -/
def negate : Order → Order
  | eq => ne
  | ne => eq
  | lt => ge
  | le => gt
  | gt => le
  | ge => lt

/-- The comparison that says the same with its sides exchanged. -/
def swap : Order → Order
  | lt => gt
  | le => ge
  | gt => lt
  | ge => le
  | o => o

/-- Equality and its negation, as opposed to an ordering. -/
def isEquality : Order → Bool
  | eq => true
  | ne => true
  | _ => false

/-- Compare two values. -/
def holds {α : Type} [LT α] [DecidableLT α] [LE α] [DecidableLE α] [BEq α] (o : Order) (x y : α) : Bool :=
  match o with
  | eq => x == y
  | ne => x != y
  | lt => x < y
  | le => x ≤ y
  | gt => y < x
  | ge => y ≤ x

end Order

/-- A numeric constant: an integer, or a binary64 value. -/
inductive Number where
  | int (value : Int)
  | float (value : Float)
  deriving DecidableEq, Repr

namespace Number

/-- The nearest binary64 value. -/
def toFloat : Number → Float
  | int v => Binary64.ofInt v
  | float v => v

/-- Whether the constant is a binary64 value. -/
def isFloat : Number → Bool
  | int _ => false
  | float _ => true

/-- Whether the constant lies below zero; a negative zero does not. -/
def isNegative : Number → Bool
  | int v => v < 0
  | float v => v < 0

/-- The text of a constant. -/
def text : Number → String
  | int v => toString v
  | float v => Binary64.text v

end Number

/-- `x op constant` for an unnamed `x`. -/
structure Relation where
  order : Order
  value : Number
  deriving DecidableEq, Repr

namespace Relation

/-- The relation that holds exactly when this one does not. -/
def negate (r : Relation) : Relation := ⟨r.order.negate, r.value⟩

/-- Whether a number satisfies the relation. Only two integers are compared exactly. -/
def holdsAt (r : Relation) (x : Number) : Bool :=
  match x, r.value with
  | .int x, .int v => r.order.holds x v
  | x, v => r.order.holds x.toFloat v.toFloat

/-- The integers that satisfy `x op v`. -/
def intParts (o : Order) (v : Int) : List (Interval Int) :=
  match o with
  | .eq => [.point v]
  | .ne => [⟨.negInf, .included (v - 1)⟩, ⟨.included (v + 1), .posInf⟩]
  | .lt => [⟨.negInf, .included (v - 1)⟩]
  | .le => [⟨.negInf, .included v⟩]
  | .gt => [⟨.included (v + 1), .posInf⟩]
  | .ge => [⟨.included v, .posInf⟩]

/-- The reals that satisfy `x op v`. -/
def realParts (o : Order) (v : Float) : List (Interval Float) :=
  match o with
  | .eq => [.point v]
  | .ne => [⟨.negInf, .excluded v⟩, ⟨.excluded v, .posInf⟩]
  | .lt => [⟨.negInf, .excluded v⟩]
  | .le => [⟨.negInf, .included v⟩]
  | .gt => [⟨.excluded v, .posInf⟩]
  | .ge => [⟨.included v, .posInf⟩]

/-- The integers that satisfy the relation, if its constant is an integer. -/
def integers (r : Relation) : Option (IntervalUnion Int) :=
  match r.value with
  | .int v => some (.ofParts (intParts r.order v))
  | .float _ => none

/-- The reals that satisfy the relation. -/
def reals (r : Relation) : IntervalUnion Float :=
  .ofParts (realParts r.order r.value.toFloat)

/-- No value satisfies both relations. -/
def excludes (r s : Relation) : Bool :=
  match r.integers, s.integers with
  | some a, some b => a.isDisjoint b
  | _, _ => r.reals.isDisjoint s.reals

/-- Every value that satisfies the first relation satisfies the second. -/
def implies (r s : Relation) : Bool := r.excludes s.negate

/-- Every value satisfies exactly one of the relations. -/
def complements (r s : Relation) : Bool :=
  r.implies s.negate && s.negate.implies r

/-- Implication over the reals, also for integer constants. -/
def impliesOverReals (r s : Relation) : Bool := r.reals.isDisjoint s.negate.reals

end Relation

end ConditionLint
