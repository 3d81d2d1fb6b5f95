import ConditionLint.Tree.Traits
import ConditionLint.SourceUnit

/-!
# Traits of a place

Properties of a node that depend on what stands around it: whether it is evaluated at all, whether a
macro, a template or a compile-time branch encloses it, and whether its value is used as a truth value.
-/

namespace ConditionLint.Place

/-- Whether the place is inside an unevaluated operand or an assertion. -/
def underUnevaluated (p : Place) : Bool :=
  p.above.any fun t => t.isUnevaluatedCall || t.isAssertionCall

/-- Whether the node or one around it comes from a macro expansion. -/
def macroAround (p : Place) : Bool :=
  p.tree.label.fromMacro || p.above.any fun t => t.label.fromMacro

/-- Whether the node or one around it stands in a template. -/
def underTemplate (p : Place) : Bool :=
  p.tree.label.fromTemplate || p.above.any fun t => t.label.fromTemplate

/-- Whether the place is inside a compile-time `if`. -/
def underConstexpr (p : Place) : Bool :=
  p.above.any fun t => t.keyword? = some (.ifStmt true)

/-- Whether the place is the given operand of a tree. -/
def isOperand (p : Place) (t : Tree) (i : Nat) : Bool := (t.operand? i).map Tree.id = some p.id

/-- Whether the value of the node is used as a truth value. -/
def usedAsTruth (u : SourceUnit) (p : Place) : Bool :=
  match p.above with
  | [] => false
  | t :: _ =>
    match t.kind with
    | .binary (.logic _) => true
    | .unary .not => true
    | .ternary => p.isOperand t 0
    | .binary .assign =>
      p.isOperand t 1
        && ((t.operand? 0).bind Tree.referent).any fun v => v.ctype.isBool
    | .keyword .returnStmt => u.returnsTruth p.tree
    | .keyword .switchStmt => false
    | .keyword _ => t.condition?.map Tree.id = some p.id
    | _ => false

end ConditionLint.Place
