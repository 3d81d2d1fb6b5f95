import ConditionLint.Check.RepeatedIf
import ConditionLint.Condition.Opposition
import ConditionLint.Ledger

/-!
# Chains of else-if

In a chain every condition is tested where the earlier ones are false. One that is true only where an
earlier one is true is never true there; one that is the opposite of an earlier one is always true.
-/

namespace ConditionLint

namespace Tree

/-- A nonnegative integer literal. -/
def mask? (t : Tree) : Option Int := t.spelledInteger?.filter fun v => 0 ≤ v

/-- The expression and the constant of a binary node with a nonnegative literal; the right operand is
preferred. -/
def splitMask? (lhs rhs : Tree) : Option (Tree × Int) :=
  match lhs.mask?, rhs.mask? with
  | _, some v => some (lhs, v)
  | some v, none => some (rhs, v)
  | none, none => none

/-- Whether the second condition is true only where the first one is: both are the same, or the first
tests for bits of which the second needs some. -/
def coversCondition (first second : Tree) : Bool :=
  same first second
    || match first.binary?, second.binary? with
      | some (.arith .bitAnd, a, b), some (op, c, d) =>
        match splitMask? a b, splitMask? c d with
        | some (e, bits), some (e', value) =>
          same e e'
            && (match op with
              | .arith .bitAnd => TwosComplement.and bits value = value
              | .compare .eq => 0 < TwosComplement.and bits value
              | _ => false)
        | _, _ => false
      | _, _ => false

/-- The conditions of the chain that begins at an else branch. The else branch is an `if`, or a block
with nothing else in it. -/
def chainConditions : Tree → List Tree
  | node l ts =>
    match l.kind, ts with
    | .block, [only] => if only.isIf then chainConditions only else []
    | .keyword (.ifStmt _), [_, _] => (node l ts).condition?.toList
    | .keyword (.ifStmt _), _ :: _ :: els :: _ => (node l ts).condition?.toList ++ chainConditions els
    | _, _ => []

/-- The conditions of the else-if chain behind an `if`. -/
def elseIfConditions (t : Tree) : List Tree := (t.elseBranch?.map chainConditions).getD []

end Tree

namespace Place

/-- The finding about a later condition of a chain. -/
def elseIfFinding? (first second : Place) : Option Finding :=
  if Tree.coversCondition first.tree second.tree then some (.coveredElseIf first second)
  else if Tree.opposite first.tree second.tree then some (.oppositeElseIf first second)
  else none

/-- The conditions of a chain that contradict the one at its beginning, up to where that one may
change. Nothing is said about a beginning that is reported already. -/
def elseIfs (u : SourceUnit) (l : Ledger) (p : Place) : List Finding :=
  match if p.tree.isIf then p.tree.condition? else none with
  | some first =>
    if first.hasValue || l.covers (u.placeOf first) then []
    else
      (p.tree.elseIfConditions.takeWhile fun second => !u.changesBetween first first second).filterMap
        fun second => elseIfFinding? (u.placeOf first) (u.placeOf second)
  | none => []

end Place

end ConditionLint
