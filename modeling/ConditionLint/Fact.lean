import ConditionLint.Binary64.Text

/-!
# Facts about values

Before the analysis a caller may attach facts to a node: what its value is known to be, may be or
cannot be, and how that was found out. A new known value takes the place of the known value of the same
domain that the node already has.
-/

namespace ConditionLint

/-- The number of a node. -/
abbrev NodeId := Nat

/-- The number of a declared variable. -/
abbrev VarId := Nat

/-- The number of a declared function. -/
abbrev FunctionId := Nat

/-- What a fact is about. -/
inductive Payload where
  | int (value : Int)
  | float (value : Float)
  | bufferSize (value : Int)
  | uninitialized
  /-- The value was given up on. -/
  | bailout
  deriving DecidableEq, Repr

/-- One step of the reasoning that led to a fact. -/
structure Step where
  node : NodeId
  explanation : String
  deriving DecidableEq, Repr

/-- A fact about the value of a node. -/
structure Fact where
  payload : Payload
  /-- The fact holds in every run, not only in some. -/
  known : Bool := false
  /-- The value never occurs. -/
  impossible : Bool := false
  steps : List Step := []
  deriving DecidableEq, Repr

namespace Fact

/-- The value is known to be this integer. -/
def ofValue (value : Int) : Fact := { payload := .int value, known := true }

/-- Whether the fact says what the value is. -/
def isDefinite (f : Fact) : Bool := f.known && !f.impossible

/-- The integer that the value is known to be. -/
def value? (f : Fact) : Option Int :=
  match f.payload with
  | .int v => if f.isDefinite then some v else none
  | _ => none

/-- The truth of a node with this fact: a known integer is true unless zero, and a value that is
never zero is true. -/
def truth? (f : Fact) : Option Bool :=
  match f.payload, f.known, f.impossible with
  | .int v, true, false => some (v != 0)
  | .int v, true, true => if v = 0 then some true else none
  | _, _, _ => none

/-- Whether two payloads are values of one domain. -/
def sameDomain : Payload → Payload → Bool
  | .int _, .int _ => true
  | .float _, .float _ => true
  | _, _ => false

/-- Whether the fact takes the place of another. -/
def replaces (f g : Fact) : Bool :=
  f.isDefinite && g.isDefinite && sameDomain g.payload f.payload

/-- Add a fact to those of a node. -/
def attach (f : Fact) : List Fact → List Fact
  | [] => [f]
  | g :: rest => if f.replaces g then f :: rest else g :: attach f rest

/-- The mark in front of a fact: impossible, known or merely possible. -/
def mark (f : Fact) : String :=
  if f.impossible then "!" else if f.known then "=" else "~"

/-- The text of a fact. -/
def text (f : Fact) : String :=
  match f.payload with
  | .int v => f.mark ++ toString v
  | .float v => f.mark ++ Binary64.text v
  | .bufferSize v => f.mark ++ "size(" ++ toString v ++ ")"
  | .uninitialized => f.mark ++ "uninit"
  | .bailout => "bailout"

end Fact

end ConditionLint
