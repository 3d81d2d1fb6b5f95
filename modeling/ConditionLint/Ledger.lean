import ConditionLint.Finding

/-!
# The ledger of an analysis

The ledger keeps the findings in the order in which they were made, and the conditions that they are
about. A condition counts as reported also when it is part of a reported one, so that one finding does
not cascade into findings about its parts. A finding whose subjects are all reported is dropped.
-/

namespace ConditionLint

/-- The node at a place and those that it is part of through `!`, `&&` and `||`. -/
def Place.cone (p : Place) : List NodeId :=
  p.id :: (p.above.takeWhile fun t => t.isNot || t.isLogical).map Tree.id

/-- The conditions reported and the findings made so far. -/
structure Ledger where
  reported : List NodeId := []
  findings : List Finding := []

namespace Ledger

/-- Whether the condition at a place, or one that it is part of, was reported. -/
def covers (l : Ledger) (p : Place) : Bool := p.cone.any fun id => l.reported.contains id

/-- Report a condition, unless it is covered already. -/
def mark (l : Ledger) (p : Place) : Ledger :=
  if l.covers p then l else { l with reported := l.reported ++ [p.id] }

/-- Report several conditions, and tell whether all of them were covered when their turn came. -/
def markAll (l : Ledger) : List Place → Bool × Ledger
  | [] => (true, l)
  | p :: ps =>
    let (stale, rest) := (l.mark p).markAll ps
    (l.covers p && stale, rest)

/-- Add a finding to the list. -/
def append (l : Ledger) (f : Finding) : Ledger := { l with findings := l.findings ++ [f] }

/-- Make a finding: report its subjects, and keep it unless all of them were covered. -/
def file (l : Ledger) (f : Finding) : Ledger :=
  match f.subjects with
  | [] => l.append f
  | subjects =>
    let (stale, l) := l.markAll subjects
    if stale then l else l.append f

/-- Make several findings, one after the other. -/
def fileAll (l : Ledger) (fs : List Finding) : Ledger := fs.foldl file l

end Ledger

end ConditionLint
