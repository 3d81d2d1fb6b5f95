/-!
# Intervals

An interval has a lower and an upper bound; each is infinite, or a value that is included or
excluded. An interval whose lower bound lies above its upper bound is empty and is written `⊥`.
The value type only needs comparisons, so the same definitions serve integers and binary64 values.
-/

namespace ConditionLint

/-- One end of an interval. -/
inductive Bound (α : Type) where
  | negInf
  | included (value : α)
  | excluded (value : α)
  | posInf
  deriving DecidableEq, Repr

/-- The values between two bounds. -/
structure Interval (α : Type) where
  low : Bound α
  high : Bound α
  deriving DecidableEq, Repr

namespace Bound

variable {α : Type}

/-- Write a bound; whether it is included shows in the brackets around it. -/
def text (write : α → String) : Bound α → String
  | negInf => "-∞"
  | included v => write v
  | excluded v => write v
  | posInf => "∞"

variable [LT α] [DecidableLT α] [LE α] [DecidableLE α] [BEq α]

/-- Whether a value satisfies the bound as a lower one. -/
def admitsAbove (b : Bound α) (x : α) : Bool :=
  match b with
  | negInf => true
  | included v => v ≤ x
  | excluded v => v < x
  | posInf => false

/-- Whether a value satisfies the bound as an upper one. -/
def admitsBelow (b : Bound α) (x : α) : Bool :=
  match b with
  | posInf => true
  | included v => x ≤ v
  | excluded v => x < v
  | negInf => false

/-- The tighter of two lower bounds; of two equal values the excluded one. -/
def tighterLow : Bound α → Bound α → Bound α
  | negInf, b => b
  | a, negInf => a
  | posInf, _ => posInf
  | _, posInf => posInf
  | excluded v, included w => if w < v || v == w then excluded v else included w
  | excluded v, excluded w => if w < v || v == w then excluded v else excluded w
  | included v, included w => if w < v then included v else included w
  | included v, excluded w => if w < v then included v else excluded w

/-- The tighter of two upper bounds; of two equal values the excluded one. -/
def tighterHigh : Bound α → Bound α → Bound α
  | posInf, b => b
  | a, posInf => a
  | negInf, _ => negInf
  | _, negInf => negInf
  | excluded v, included w => if v < w || v == w then excluded v else included w
  | excluded v, excluded w => if v < w || v == w then excluded v else excluded w
  | included v, included w => if v < w then included v else included w
  | included v, excluded w => if v < w then included v else excluded w

end Bound

namespace Interval

variable {α : Type}

/-- The interval without values. -/
def bottom : Interval α := ⟨.posInf, .negInf⟩

/-- The interval with one value. -/
def point (v : α) : Interval α := ⟨.included v, .included v⟩

variable [LT α] [DecidableLT α] [LE α] [DecidableLE α] [BEq α]

/-- Whether the bounds leave no room. Only two included bounds may meet. -/
def isBottom (i : Interval α) : Bool :=
  match i.low, i.high with
  | .posInf, _ => true
  | _, .negInf => true
  | .negInf, _ => false
  | _, .posInf => false
  | .included l, .included h => h < l
  | .included l, .excluded h => h ≤ l
  | .excluded l, .included h => h ≤ l
  | .excluded l, .excluded h => h ≤ l

/-- Whether a value lies between the bounds. -/
def contains (i : Interval α) (x : α) : Bool :=
  i.low.admitsAbove x && i.high.admitsBelow x

/-- The values of both intervals. -/
def meet (i j : Interval α) : Interval α :=
  ⟨i.low.tighterLow j.low, i.high.tighterHigh j.high⟩

/-- Write an interval with a square bracket at an included bound. -/
def text (write : α → String) (i : Interval α) : String :=
  if i.isBottom then "⊥"
  else
    let left := match i.low with
      | .included _ => "["
      | _ => "("
    let right := match i.high with
      | .included _ => "]"
      | _ => ")"
    left ++ i.low.text write ++ ", " ++ i.high.text write ++ right

end Interval

end ConditionLint
