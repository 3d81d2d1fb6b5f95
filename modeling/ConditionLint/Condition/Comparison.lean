import ConditionLint.Relation.Pair
import ConditionLint.Tree.Text
import ConditionLint.Tree.Traits

/-!
# Reading a condition as a comparison

A condition is read as `base op constant` under some negations. The constant may stand on either side;
a condition that compares with no constant is read as `condition != 0`. Constants from macros and
literals that are no numbers make a condition unreadable, since their value may be another elsewhere.
-/

namespace ConditionLint

/-- A condition read as a test of an expression against a constant. -/
structure Comparison where
  base : Tree
  test : Test
  /-- The constant as it is spelled. -/
  constantText : String
  /-- The condition compares; otherwise it is a bare expression. -/
  explicit : Bool
  /-- A character is ordered, which depends on the character set. -/
  inconclusive : Bool

/-- A constant operand of a comparison. -/
inductive Constant where
  | numeric (value : Number) (text : String) (isChar : Bool)
  /-- A constant that must not be relied on. -/
  | unusable

namespace Tree

/-- The numeric value and spelling of a node that is a constant. -/
def spelledConstant? (t : Tree) : Option Constant :=
  match t.kind with
  | .literal (.int v text) => some (.numeric (.int v) text false)
  | .literal (.char v text) => some (.numeric (.int v) text true)
  | .literal (.float v text) => some (.numeric (.float v) text false)
  | .literal _ => some .unusable
  | .identifier _ (some v) => some (.numeric (.int v) (toString v) false)
  | _ => none

/-- The constant that a node is as an operand; one from a macro is unusable. -/
def constant? (t : Tree) : Option Constant :=
  t.spelledConstant?.map fun c => if t.label.fromMacro then .unusable else c

/-- The comparison `base op constant`. -/
def compareWith (base : Tree) (order : Order) (negated : Bool) : Constant → Option Comparison
  | .numeric value text isChar =>
    some ⟨base, ⟨⟨order, value⟩, negated⟩, text, true, isChar && !order.isEquality⟩
  | .unusable => none

/-- The comparison `base != 0` of a bare condition. -/
def truthTest (base : Tree) (negated : Bool) : Comparison :=
  ⟨base, ⟨⟨.ne, .int 0⟩, negated⟩, "0", false, false⟩

/-- Read a condition without a negation in front. A constant on the left turns the order around. -/
def readBare (t : Tree) (negated : Bool) : Option Comparison :=
  match t.comparison? with
  | some (order, lhs, rhs) =>
    match lhs.constant?, rhs.constant? with
    | some c, _ => compareWith rhs order.swap negated c
    | none, some c => compareWith lhs order negated c
    | none, none => some (truthTest t negated)
  | none => some (truthTest t negated)

/-- Read a condition under `negated` negations; each leading `!` adds one. -/
def readNegated : Tree → Bool → Option Comparison
  | node l ts, negated =>
    match l.kind, ts with
    | .unary .not, t :: _ => readNegated t (!negated)
    | .unary .not, [] => none
    | _, _ => readBare (node l ts) negated

/-- Read a condition as a comparison. -/
def comparisonOf? (t : Tree) : Option Comparison := t.readNegated false

end Tree

namespace Comparison

/-- The relation that the base must satisfy for the condition to be true. -/
def meaning (c : Comparison) : Relation := c.test.meaning

/-- Whether the condition is true when the base has the given value. -/
def isTrueAt (c : Comparison) (x : Number) : Bool := c.test.isTrueAt x

/-- The condition as it was read. -/
def text (c : Comparison) : String :=
  let base := c.base.text
  let relation := base ++ " " ++ c.test.relation.order.symbol ++ " " ++ c.constantText
  match c.explicit, c.test.negated with
  | true, false => relation
  | true, true => "!(" ++ relation ++ ")"
  | false, false => base
  | false, true => "!" ++ base

end Comparison

end ConditionLint
