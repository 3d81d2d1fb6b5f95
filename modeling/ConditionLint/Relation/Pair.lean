import ConditionLint.Operator

/-!
# Two tests of one value

A test is a relation, possibly negated. Two tests of the same value are combined by "and" or "or";
both are constant below, between and above their two constants, so evaluating them at five points
tells whether the combination is constant and whether one test follows from the other.
-/

namespace ConditionLint

/-- A relation as written, and whether it is negated. -/
structure Test where
  relation : Relation
  negated : Bool
  deriving DecidableEq, Repr

namespace Test

/-- The relation that a value must satisfy to pass the test. -/
def meaning (t : Test) : Relation :=
  if t.negated then t.relation.negate else t.relation

/-- Whether a number passes the test. -/
def isTrueAt (t : Test) (x : Number) : Bool := t.relation.holdsAt x != t.negated

end Test

/-- Which of two combined conditions makes the other one redundant. -/
inductive Dominance where
  | first
  | second
  | neither
  deriving DecidableEq, Repr

/-- The condition that suffices on its own, by containment of the sets of reals. In a conjunction it
is the one that implies the other, in a disjunction the one that the other implies. -/
def dominance (c : Connective) (first second : Relation) : Dominance :=
  let forward := first.impliesOverReals second
  let backward := second.impliesOverReals first
  match c with
  | .and => if forward then .first else if backward then .second else .neither
  | .or => if backward then .first else if forward then .second else .neither

/-- What the five points tell about two tests. -/
structure Outcome where
  alwaysTrue : Bool
  alwaysFalse : Bool
  firstImplies : Bool
  secondImplies : Bool
  deriving DecidableEq, Repr

/-- A point below both constants, the first, one between them if there is room, the second, and one
above both. -/
def samplePoints : Number → Number → List Number
  | .int a, .int b =>
    let low := min a b
    let high := max a b
    let middle := if 2 ≤ high - low then low + (high - low) / 2 else low + 1
    [.int (low - 1), .int a, .int middle, .int b, .int (high + 1)]
  | v, w =>
    let a := v.toFloat
    let b := w.toFloat
    let (low, high) := if a ≤ b then (a, b) else (b, a)
    [.float (low - 1), .float a, .float ((a + b) / 2), .float b, .float (high + 1)]

namespace Outcome

/-- Nothing is known. -/
def undecided : Outcome := ⟨false, false, false, false⟩

/-- Evaluate two tests at the five points; for an unsigned value the negative points are left out. -/
def ofTests (c : Connective) (unsigned : Bool) (first second : Test) : Outcome :=
  let points := (samplePoints first.relation.value second.relation.value).filter
    fun x => !(unsigned && x.isNegative)
  if points.isEmpty then undecided
  else
    { alwaysTrue := points.all fun x => c.eval (first.isTrueAt x) (second.isTrueAt x)
      alwaysFalse := points.all fun x => !c.eval (first.isTrueAt x) (second.isTrueAt x)
      firstImplies := points.all fun x => !(first.isTrueAt x && !second.isTrueAt x)
      secondImplies := points.all fun x => !(second.isTrueAt x && !first.isTrueAt x) }

end Outcome

end ConditionLint
