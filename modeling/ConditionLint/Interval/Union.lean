import ConditionLint.Interval

/-!
# Finite unions of intervals

A union is the list of its parts. `ofParts` drops the empty ones, which changes no membership;
the meet of two unions is the union of the pairwise meets.
-/

namespace ConditionLint

/-- The values of a finite list of intervals. -/
structure IntervalUnion (α : Type) where
  parts : List (Interval α)
  deriving DecidableEq, Repr

namespace IntervalUnion

variable {α : Type} [LT α] [DecidableLT α] [LE α] [DecidableLE α] [BEq α]

/-- The union of the given intervals, without the empty ones. -/
def ofParts (parts : List (Interval α)) : IntervalUnion α :=
  ⟨parts.filter fun i => !i.isBottom⟩

/-- Whether every part is empty. -/
def isEmpty (u : IntervalUnion α) : Bool :=
  u.parts.all Interval.isBottom

/-- Whether a value lies in some part. -/
def contains (u : IntervalUnion α) (x : α) : Bool :=
  u.parts.any fun i => i.contains x

/-- The values of both unions. -/
def meet (u v : IntervalUnion α) : IntervalUnion α :=
  ofParts (u.parts.flatMap fun i => v.parts.map i.meet)

/-- Whether the unions have no value in common. -/
def isDisjoint (u v : IntervalUnion α) : Bool :=
  (u.meet v).isEmpty

/-- Write the parts with `∪` between them. -/
def text (write : α → String) (u : IntervalUnion α) : String :=
  if u.parts.isEmpty then "⊥" else String.intercalate " ∪ " (u.parts.map (Interval.text write))

end IntervalUnion

end ConditionLint
