import ConditionLint.Tree

/-!
# The text of an expression

An expression is written as in the source, with parentheses only where an operand binds less tightly
than its position asks for. Binary operators group to the left and assignments to the right.
-/

namespace ConditionLint.Tree

/-- How tightly an operand of a prefix operator or a cast has to bind. -/
def prefixPrecedence : Nat := 14

/-- How tightly the object of a call, a member access or a subscript has to bind. -/
def postfixPrecedence : Nat := 15

/-- How tightly the conditional operator binds. -/
def ternaryPrecedence : Nat := 3

/-- How tightly an argument of a call has to bind: anything but a comma operator does. -/
def argumentPrecedence : Nat := BinaryOp.assign.precedence

/-- How tightly the topmost operator of a tree binds. -/
def precedence (t : Tree) : Nat :=
  match t.kind with
  | .binary op => op.precedence
  | .unary op => if op.standsBehind then postfixPrecedence else prefixPrecedence
  | .cast => prefixPrecedence
  | .call _ => postfixPrecedence
  | .member _ _ => postfixPrecedence
  | .subscript => postfixPrecedence
  | .ternary => ternaryPrecedence
  | _ => 16

/-- Put parentheses around the text of an operand that binds less tightly than `least`. -/
def enclose (t : Tree) (least : Nat) (text : String) : String :=
  if t.precedence < least then "(" ++ text ++ ")" else text

/-- How tightly the operands of a binary operator have to bind. -/
def operandPrecedences (op : BinaryOp) : Nat × Nat :=
  if op.isAssignment then (op.precedence + 1, op.precedence) else (op.precedence, op.precedence + 1)

/-- A binary operator with what stands around it. -/
def spaced (op : BinaryOp) : String :=
  if op = .comma then ", " else " " ++ op.symbol ++ " "

/-- What stands between an object and a member. -/
def accessText (arrow : Bool) : String := if arrow then "->" else "."

/-- The type in front of a cast. -/
def castText (type : Option CType) : String :=
  match type with
  | some type => "(" ++ type.text ++ ")"
  | none => "(?)"

mutual

/-- The text of an expression. Statements show their keyword and blocks are abbreviated. -/
def text : Tree → String
  | node l ts =>
    match l.kind, ts with
    | .literal value, _ => value.spelling
    | .identifier name _, _ => name
    | .unary op, t :: _ =>
      if op.standsBehind then t.enclose postfixPrecedence (text t) ++ op.symbol
      else op.symbol ++ t.enclose prefixPrecedence (text t)
    | .unary _, [] => ""
    | .binary op, [lhs, rhs] =>
      lhs.enclose (operandPrecedences op).1 (text lhs) ++ spaced op
        ++ rhs.enclose (operandPrecedences op).2 (text rhs)
    | .binary _, _ => ""
    | .call callee, [] => callee.name ++ "()"
    | .call callee, t :: rest =>
      if callee.isMethod then
        t.enclose postfixPrecedence (text t) ++ accessText (t.hasType CType.isPointer)
          ++ callee.name ++ "(" ++ String.intercalate ", " (argumentTexts rest) ++ ")"
      else
        callee.name ++ "("
          ++ String.intercalate ", " (t.enclose argumentPrecedence (text t) :: argumentTexts rest) ++ ")"
    | .member name arrow, t :: _ =>
      t.enclose postfixPrecedence (text t) ++ accessText arrow ++ name
    | .member name arrow, [] => accessText arrow ++ name
    | .subscript, [array, index] =>
      array.enclose postfixPrecedence (text array) ++ "[" ++ text index ++ "]"
    | .subscript, _ => ""
    | .cast, t :: _ => castText l.ctype ++ t.enclose prefixPrecedence (text t)
    | .cast, [] => castText l.ctype
    | .ternary, [condition, yes, no] =>
      condition.enclose (ternaryPrecedence + 1) (text condition) ++ " ? "
        ++ yes.enclose ternaryPrecedence (text yes) ++ " : "
        ++ no.enclose ternaryPrecedence (text no)
    | .ternary, _ => ""
    | .keyword k, _ => k.name
    | .block, _ => "\x7b...\x7d"
    | .empty, _ => ""

/-- The texts of the arguments of a call. -/
def argumentTexts : List Tree → List String
  | [] => []
  | t :: ts => t.enclose argumentPrecedence (text t) :: argumentTexts ts

end

end ConditionLint.Tree
