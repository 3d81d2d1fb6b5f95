import ConditionLint.Condition.Likeness
import ConditionLint.Finding
import ConditionLint.Place.Context

/-!
# Conditions with a known truth value

The truth value of a condition is known from a fact about it, or from what is known about its operands.
Conditions that are constant on purpose, or whose value may differ elsewhere, are left alone.
-/

namespace ConditionLint

/-- A truth value with the reasoning that led to it. -/
structure Deduction where
  truth : Bool
  steps : List Step
  deriving DecidableEq, Repr

/-- What is deduced about a logical node from its operands. One operand may decide it alone. -/
def Connective.deduction? (c : Connective) (lhs rhs : Option Deduction) : Option Deduction :=
  let decisive := c = .or
  if lhs.any fun v => v.truth = decisive then lhs
  else if rhs.any fun v => v.truth = decisive then rhs
  else
    match lhs, rhs with
    | some l, some r => some ⟨!decisive, l.steps ++ r.steps⟩
    | _, _ => none

namespace Tree

/-- The reasoning behind the known integer value of a node. -/
def valueSteps (t : Tree) : List Step := (t.valueFact?.map Fact.steps).getD []

/-- The first truth value that a fact gives to the node. -/
def factTruth? (t : Tree) : Option Bool := t.label.facts.findSome? Fact.truth?

/-- The truth value of a tree, from facts about it or about its operands. -/
def deduce? : Tree → Option Deduction
  | node l ts =>
    let self := node l ts
    match self.factTruth? with
    | some truth => some ⟨truth, self.valueSteps⟩
    | none =>
      match l.kind, ts with
      | .unary .not, t :: _ => (deduce? t).map fun v => { v with truth := !v.truth }
      | .binary (.compare order), [lhs, rhs] =>
        match lhs.value?, rhs.value? with
        | some a, some b => some ⟨order.holds a b, lhs.valueSteps ++ rhs.valueSteps⟩
        | _, _ => none
      | .binary (.logic c), [lhs, rhs] => c.deduction? (deduce? lhs) (deduce? rhs)
      | _, _ => none

/-- What is deduced about a condition. A fact about the condition itself comes with its own reasoning. -/
def deduction? (t : Tree) : Option Deduction :=
  match t.label.facts.find? fun f => f.truth?.isSome with
  | some f => f.truth?.map fun truth => ⟨truth, f.steps⟩
  | none => t.deduce?

/-- Whether a logical node has an operand, other than a number, whose integer value is a known fact. -/
def hasKnownOperand (t : Tree) : Bool :=
  t.isLogical && t.operands.any fun s => s.valueFact?.isSome && !s.isNumber

/-- Whether a returned node is a plain value rather than a condition. -/
def isPlainValue (t : Tree) : Bool :=
  match t.kind with
  | .identifier _ _ => true
  | .member _ _ => true
  | .call _ => true
  | .binary op => op.isAssignment
  | _ => false

/-- Whether the node compares an expression with itself. -/
def comparesSame (t : Tree) : Bool :=
  t.comparison?.any (fun (_, lhs, rhs) => same lhs rhs) && !t.modifiesState

end Tree

namespace Place

/-- How a condition is used, from the trees around it. `!`, `&&` and `||` pass the question on. -/
def useAmong (otherwise : Option Usage) (id : NodeId) : List Tree → Option Usage
  | [] => otherwise
  | t :: ts =>
    if t.isLogical || t.isNot then useAmong otherwise t.id ts
    else
      match t.kind with
      | .keyword .returnStmt => some .returned
      | .keyword .throwStmt => some .branch
      | .keyword .switchStmt => otherwise
      | .keyword _ => if t.condition?.map Tree.id = some id then some .branch else otherwise
      | .ternary => if (t.operand? 0).map Tree.id = some id then some .branch else otherwise
      | _ => otherwise

/-- How the node at a place is used as a condition, if it is. -/
def use? (p : Place) : Option Usage :=
  useAmong (if p.tree.isComparison || p.tree.isLogical then some .other else none) p.id p.above

/-- Whether a known truth value at the place is no news: it is meant, or it may differ elsewhere. -/
def isConstantOnPurpose (u : SourceUnit) (p : Place) (use : Usage) : Bool :=
  p.tree.hasBailout
    || p.underUnevaluated || p.underTemplate || p.underConstexpr
    || p.macroAround || p.tree.macroInside
    || p.tree.isLiteralTest
    || p.tree.hasKnownOperand
    || (use = .returned && (p.tree.isPlainValue || !u.returnsTruth p.tree))
    || p.tree.comparesSame
    || p.tree.isConstant
    || p.tree.isUnsignedZeroTest
    || p.tree.isAboutSizes
    || p.tree.usesStream

/-- The finding about the condition at a place. -/
def constantConditions (u : SourceUnit) (p : Place) : List Finding :=
  match p.use?, p.tree.deduction? with
  | some use, some v =>
    if p.isConstantOnPurpose u use then [] else [.constantCondition p use v.truth v.steps]
  | _, _ => []

end Place

end ConditionLint
