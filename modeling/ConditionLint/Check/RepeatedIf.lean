import ConditionLint.Change
import ConditionLint.Condition.Likeness
import ConditionLint.Finding

/-!
# Consecutive statements with the same condition

Two `if` in a row with the same condition could be one, unless something in between changes what the
condition depends on. An `if` with an else branch, or one that leaves the block, is another matter.
-/

namespace ConditionLint

/-- The condition of an `if`, when the statement behind it is reached in any case. -/
def Tree.plainCondition? (t : Tree) : Option Tree :=
  if t.isIf && t.elseBranch?.isNone && !t.body?.any mayLeave then
    t.condition?.filter fun c => !c.hasValue
  else none

namespace Place

/-- The condition of the `if` right behind the statement at a place. -/
def nextCondition? (p : Place) : Option Tree := (p.next?.filter Tree.isIf).bind Tree.condition?

/-- A repetition of the condition at a place by the next statement. -/
def repeatedIfs (u : SourceUnit) (p : Place) : List Finding :=
  match p.tree.plainCondition?, p.nextCondition? with
  | some first, some second =>
    if !u.changesUntil first second && Tree.same first second then
      [.repeatedIf (u.placeOf first) (u.placeOf second)]
    else []
  | _, _ => []

end Place

end ConditionLint
