import ConditionLint.Diagnostic
import ConditionLint.Finding
import ConditionLint.SourceUnit

/-!
# The wording of findings

A finding becomes a diagnostic: a rule with its severity, cause and weakness number, a message, and the
locations that explain it, the primary one last.
-/

namespace ConditionLint

/-- A truth value as it is written. -/
def truthText (b : Bool) : String := if b then "true" else "false"

/-- A text in single quotes. -/
def quoted (s : String) : String := "'" ++ s ++ "'"

/-- A number in hexadecimal. -/
def hexText (i : Int) : String := "0x" ++ TwosComplement.hexadecimal i

namespace Place

/-- Whether the node at the place is the operand of a `return`. -/
def isReturned (p : Place) : Bool := p.above.head?.any fun t => t.keyword? = some .returnStmt

/-- The kind of statement that a condition belongs to. -/
def statementText (p : Place) : String := if p.isReturned then "return" else "if"

/-- The text of the node at the place. -/
def text (p : Place) : String := p.tree.text

end Place

/-- The comparison of a masked value. -/
def MaskTest.text (t : MaskTest) : String :=
  "(X " ++ t.op.symbol ++ " " ++ hexText t.mask ++ ") " ++ t.order.symbol ++ " " ++ hexText t.bound

/-- What a compiler does to an overflow test. -/
def OverflowEffect.text : OverflowEffect → String
  | constant truth =>
    " Some mainstream compilers remove such overflow tests when optimising the code and assume it's always "
      ++ truthText truth ++ "."
  | signTest operand order =>
    " Some mainstream compilers removes handling of overflows when optimising the code and change the code to "
      ++ quoted (operand.text ++ " " ++ order.symbol ++ " 0") ++ "."

/-- Three texts in more than this many bytes are replaced by letters. -/
def absorptionLimit : Nat := 50

/-- How the operand and the two inner operands of an absorption are shown: as they are written, or by
letters when they are long. -/
def absorptionTexts (lhs inner rest : String) (negated : Bool) : String × String × String :=
  if lhs.utf8ByteSize + inner.utf8ByteSize + rest.utf8ByteSize ≤ absorptionLimit then (lhs, inner, rest)
  else if !negated then ("A", "A", "B")
  else
    match lhs.startsWith "!", inner.startsWith "!" with
    | true, false => ("!A", "A", "C")
    | false, true => ("A", "!A", "C")
    | _, _ => ("A", "B", "C")

/-- What an absorption amounts to. -/
def absorptionText (c : Connective) (lhs inner rest : String) (negated : Bool) : String :=
  let (a, b, d) := absorptionTexts lhs inner rest negated
  let whole := a ++ " " ++ c.symbol ++ " (" ++ b ++ " " ++ c.dual.symbol ++ " " ++ d ++ ")"
  let short := if negated then a ++ " " ++ c.symbol ++ " " ++ d else a
  inner ++ ". " ++ quoted whole ++ " is equivalent to " ++ quoted short

namespace Finding

/-- The name of the rule. -/
def rule : Finding → String
  | ruledOutByMask _ _ _ _ _ => "assignIfError"
  | disjointMasks _ _ _ _ => "mismatchingBitAnd"
  | constantMaskTest _ _ _ => "comparisonError"
  | alwaysTrueMask _ => "badBitmaskCheck"
  | idleMask _ => "badBitmaskCheck"
  | repeatedIf _ _ => "duplicateCondition"
  | coveredElseIf _ _ => "multiCondition"
  | oppositeElseIf _ _ => "multiCondition"
  | oppositeInner _ _ => "oppositeInnerCondition"
  | identicalInner _ _ => "identicalInnerCondition"
  | repeatedAfterExit _ _ => "identicalConditionAfterEarlyExit"
  | constantLogic _ _ _ _ => "incorrectLogicOperator"
  | absorbed _ _ _ _ _ _ => "redundantCondition"
  | redundantComparison _ _ _ _ => "redundantCondition"
  | impliedComparison _ _ _ _ => "redundantCondition"
  | overflowTest _ _ _ => "invalidTestForOverflow"
  | unreachedRemainder _ _ => "moduloAlwaysTrueFalse"
  | constantCondition _ _ _ _ => "knownConditionTrueFalse"
  | outOfRange _ _ _ _ => "compareValueOutOfTypeRangeError"

/-- How serious the finding is. -/
def severity : Finding → Severity
  | alwaysTrueMask _ => .warning
  | oppositeInner _ _ => .warning
  | identicalInner _ _ => .warning
  | repeatedAfterExit _ _ => .warning
  | constantLogic _ _ _ _ => .warning
  | overflowTest _ _ _ => .warning
  | unreachedRemainder _ _ => .warning
  | _ => .style

/-- What the finding comes from. -/
def cause : Finding → Cause
  | ruledOutByMask _ _ _ _ _ => .bitwise
  | disjointMasks _ _ _ _ => .bitwise
  | constantMaskTest _ _ _ => .bitwise
  | alwaysTrueMask _ => .bitwise
  | idleMask _ => .bitwise
  | repeatedIf _ _ => .comparison
  | coveredElseIf _ _ => .comparison
  | oppositeElseIf _ _ => .comparison
  | oppositeInner _ _ => .comparison
  | identicalInner _ _ => .comparison
  | repeatedAfterExit _ _ => .comparison
  | constantLogic _ _ _ _ => .logic
  | absorbed _ _ _ _ _ _ => .logic
  | redundantComparison _ _ _ _ => .logic
  | impliedComparison _ _ _ _ => .logic
  | overflowTest _ _ _ => .overflow
  | unreachedRemainder _ _ => .typeRange
  | constantCondition _ _ _ _ => .knownCondition
  | outOfRange _ _ _ _ => .typeRange

/-- The number of the weakness: 571 for an expression that is always true, 570 for one that is always
false, 398 for code of poor quality. -/
def weakness : Finding → Nat
  | alwaysTrueMask _ => 571
  | idleMask _ => 571
  | constantLogic _ _ truth _ => if truth then 571 else 570
  | overflowTest _ _ _ => 570
  | constantCondition _ _ truth _ => if truth then 571 else 570
  | _ => 398

/-- Whether the finding depends on something that the analysis does not know. -/
def isInconclusive : Finding → Bool
  | constantLogic _ _ _ inconclusive => inconclusive
  | redundantComparison _ _ _ inconclusive => inconclusive
  | impliedComparison _ _ _ inconclusive => inconclusive
  | _ => false

/-- The condition that a constant logical node is shown as. -/
def logicText (node : Place) : Option (Comparison × Comparison) → String
  | some (first, second) =>
    first.text ++ " " ++ (node.tree.binaryOp?.map BinaryOp.symbol).getD "" ++ " " ++ second.text
  | none => node.text

/-- The message of a finding. -/
def message : Finding → String
  | ruledOutByMask _ _ side order value =>
    "Mismatching assignment and comparison, comparison "
      ++ quoted (side.text ++ " " ++ order.symbol ++ " " ++ toString value)
      ++ " is always " ++ truthText (order = .ne) ++ "."
  | disjointMasks _ _ assigned used =>
    "Mismatching bitmasks. Result is always 0 (X = Y & " ++ hexText assigned ++ "; Z = X & "
      ++ hexText used ++ "; => Z=0)."
  | constantMaskTest _ test truth =>
    "Expression " ++ quoted test.text ++ " is always " ++ truthText truth ++ "."
  | alwaysTrueMask _ =>
    "Result of operator '|' is always true if one operand is non-zero. Did you intend to use '&'?"
  | idleMask _ => "Operator '|' with one operand equal to zero is redundant."
  | repeatedIf _ _ => "The if condition is the same as the previous if condition"
  | coveredElseIf first _ =>
    "Expression is always false because 'else if' condition matches previous condition at line "
      ++ toString first.tree.label.location.line ++ "."
  | oppositeElseIf first _ =>
    "Expression is always true because 'else if' condition is opposite to previous condition at line "
      ++ toString first.tree.label.location.line ++ "."
  | oppositeInner _ inner =>
    "Opposite inner " ++ quoted inner.statementText ++ " condition leads to a dead code block."
  | identicalInner _ inner =>
    "Identical inner " ++ quoted inner.statementText ++ " condition is always true."
  | repeatedAfterExit first second =>
    if second.isReturned then
      "Identical condition and return expression " ++ quoted first.text ++ ", return value is always "
        ++ (if second.tree.isBoolTyped then "false" else "0")
    else "Identical condition " ++ quoted first.text ++ ", second condition is always false"
  | constantLogic node pair truth _ =>
    (if truth then "Logical disjunction always evaluates to true: "
      else "Logical conjunction always evaluates to false: ")
      ++ logicText node pair ++ "."
  | absorbed _ c lhs inner rest negated =>
    "Redundant condition: " ++ absorptionText c lhs.text inner.text rest.text negated
  | redundantComparison _ redundant sufficient _ =>
    "Redundant condition: The condition " ++ quoted redundant.text ++ " is redundant since "
      ++ quoted sufficient.text ++ " is sufficient."
  | impliedComparison _ implying implied _ =>
    "Redundant condition: If " ++ quoted implying.text ++ ", the comparison " ++ quoted implied.text
      ++ " is always true."
  | overflowTest node isPointer effect =>
    "Invalid test for overflow " ++ quoted node.text ++ "; "
      ++ (if isPointer then "pointer overflow" else "signed integer overflow")
      ++ " is undefined behavior." ++ effect.text
  | unreachedRemainder _ divisor =>
    "Comparison of modulo result is predetermined, because it is always less than " ++ divisor.text
      ++ "."
  | constantCondition node use truth _ =>
    (if use = .returned then "Return value " else "Condition ") ++ quoted node.text ++ " is always "
      ++ truthText truth
  | outOfRange _ ctype number truth =>
    "Comparing expression of type " ++ quoted ctype.text ++ " against value " ++ toString number
      ++ ". Condition is always " ++ truthText truth ++ "."

/-- A place with its explanation. -/
def point (p : Place) (explanation : String) : Location × String :=
  (p.tree.label.location, explanation)

/-- The locations that explain a finding, the primary one last. The reasoning behind a known value
refers to other nodes of the source unit. -/
def path (u : SourceUnit) : Finding → List (Location × String)
  | ruledOutByMask assignment comparison _ _ _ => [point assignment "", point comparison ""]
  | disjointMasks assignment use _ _ => [point assignment "", point use ""]
  | constantMaskTest masked _ _ => [point masked ""]
  | alwaysTrueMask mask => [point mask ""]
  | idleMask mask => [point mask ""]
  | repeatedIf first second => [point first "First condition", point second "Second condition"]
  | coveredElseIf _ second => [point second ""]
  | oppositeElseIf first second =>
    [point first "first condition", point second "else if condition is opposite to first condition"]
  | oppositeInner outer inner =>
    [point outer ("outer condition: " ++ outer.text),
      point inner ("opposite inner condition: " ++ inner.text)]
  | identicalInner outer inner =>
    [point outer ("outer condition: " ++ outer.text),
      point inner ("identical inner condition: " ++ inner.text)]
  | repeatedAfterExit first second =>
    [point first ("If condition " ++ quoted first.text ++ " is true, the function will return/exit"),
      point second ((if second.isReturned then "Returning identical expression "
        else "Testing identical condition ") ++ quoted first.text)]
  | constantLogic node _ _ _ => [point node ""]
  | absorbed node _ _ _ _ _ => [point node ""]
  | redundantComparison node _ _ _ => [point node ""]
  | impliedComparison node _ _ _ => [point node ""]
  | overflowTest node _ _ => [point node ""]
  | unreachedRemainder node _ => [point node ""]
  | constantCondition node _ _ steps =>
    steps.filterMap (fun step => (u.place? step.node).map fun p => point p step.explanation)
      ++ [point node ""]
  | outOfRange value _ _ _ => [point value ""]

/-- The diagnostic of a finding. -/
def diagnostic (u : SourceUnit) (f : Finding) : Diagnostic where
  path := f.path u
  rule := f.rule
  severity := f.severity
  message := f.message
  cwe := f.weakness
  inconclusive := f.isInconclusive
  cause := f.cause

end Finding

end ConditionLint
