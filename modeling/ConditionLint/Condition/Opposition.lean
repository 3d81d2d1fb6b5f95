import ConditionLint.Condition.Comparison
import ConditionLint.Condition.Likeness

/-!
# Opposite and exclusive conditions

Two conditions are opposite when exactly one of them is true in every state, and exclusive when they are
never true together. Both are decided from the trees alone: a negation of the same condition, two tests
of the same base, or two comparisons between the same two operands. A conjunction excludes whatever one
of its operands excludes.
-/

namespace ConditionLint.Tree

/-- Whether the first condition is the negation of the second, free of side effects. -/
def isNegationOf (t u : Tree) : Bool :=
  t.negated?.any fun inner => same inner u && !inner.modifiesState

/-- The relations that two conditions put on the same base. -/
def baseRelations? (t u : Tree) : Option (Relation × Relation) :=
  match t.comparisonOf?, u.comparisonOf? with
  | some c, some d =>
    if !c.inconclusive && !d.inconclusive && same c.base d.base then some (c.meaning, d.meaning)
    else none
  | _, _ => none

/-- Whether values of the type are integers or addresses, so that a difference is an integer. -/
def isDiscrete (t : Tree) : Bool := t.hasType fun ty => ty.isIntegral || ty.isPointer

/-- The relations that two comparisons between the same two operands put on their difference. -/
def differenceRelations? (t u : Tree) : Option (Relation × Relation) :=
  match t.comparison?, u.comparison? with
  | some (o, a, b), some (o', c, d) =>
    if a.hasValue || b.hasValue then none
    else
      let zero : Number := if a.isDiscrete && b.isDiscrete then .int 0 else .float 0
      if same a c && same b d then some (⟨o, zero⟩, ⟨o', zero⟩)
      else if same a d && same b c then some (⟨o, zero⟩, ⟨o'.swap, zero⟩)
      else none
  | _, _ => none

/-- The relations that two conditions put on one value, if they are about one. -/
def sharedRelations? (t u : Tree) : Option (Relation × Relation) :=
  baseRelations? t u <|> differenceRelations? t u

/-- Whether exactly one of two conditions is true in every state. -/
def opposite (t u : Tree) : Bool :=
  isNegationOf t u || isNegationOf u t
    || (sharedRelations? t u).any fun (r, s) => r.complements s

/-- Whether two conditions exclude each other as they stand, without taking conjunctions apart. -/
def clash (t u : Tree) : Bool :=
  opposite t u || (sharedRelations? t u).any fun (r, s) => r.excludes s

/-- The operands of a conjunction; any other condition has none. -/
def conjuncts (t : Tree) : List Tree :=
  if t.isBinary (.logic .and) then t.chain (.logic .and) else []

/-- Whether two conditions are never true together. -/
def exclusive (t u : Tree) : Bool :=
  clash t u
    || (conjuncts t).any (fun a => clash a u || (conjuncts u).any fun b => clash b a)
    || (conjuncts u).any (fun b => clash b t || (conjuncts t).any fun a => clash a b)

end ConditionLint.Tree
