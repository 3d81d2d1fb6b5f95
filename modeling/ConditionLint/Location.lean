/-!
# Source locations

A location is a file with a line and a column. Locations are ordered by file name, then by line, then
by column.
-/

namespace ConditionLint

/-- A place in a source file. -/
structure Location where
  file : String
  line : Nat
  column : Nat
  deriving DecidableEq, Repr

namespace Location

/-- The text of a location. -/
def text (l : Location) : String :=
  l.file ++ ":" ++ Nat.repr l.line ++ ":" ++ Nat.repr l.column

/-- Whether one location comes before another, or is the same. -/
def le (a b : Location) : Bool :=
  a.file < b.file
    || (a.file == b.file && (a.line < b.line || (a.line == b.line && a.column ≤ b.column)))

end Location

end ConditionLint
