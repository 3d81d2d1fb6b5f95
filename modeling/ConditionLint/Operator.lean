import ConditionLint.Relation

/-!
# Operators of C expressions

Binary operators fall into families: arithmetic and bitwise ones, the six comparisons, the two logical
connectives, the plain assignment, the assignments that update through an arithmetic operator, and the
comma. A higher precedence binds tighter.
-/

namespace ConditionLint

/-- Operators with one operand. -/
inductive UnaryOp where
  | not
  | neg
  | plus
  | bitNot
  | deref
  | addressOf
  | preInc
  | preDec
  | postInc
  | postDec
  deriving DecidableEq, Repr

namespace UnaryOp

/-- All operators, in the order in which they are listed. -/
def all : List UnaryOp :=
  [not, neg, plus, bitNot, deref, addressOf, preInc, preDec, postInc, postDec]

/-- The operator as it is written. -/
def symbol : UnaryOp → String
  | not => "!"
  | neg => "-"
  | plus => "+"
  | bitNot => "~"
  | deref => "*"
  | addressOf => "&"
  | preInc => "++"
  | preDec => "--"
  | postInc => "++"
  | postDec => "--"

/-- Whether the operator stands behind its operand. -/
def standsBehind : UnaryOp → Bool
  | postInc => true
  | postDec => true
  | _ => false

/-- Whether the operator changes its operand. -/
def isIncrement : UnaryOp → Bool
  | preInc => true
  | preDec => true
  | postInc => true
  | postDec => true
  | _ => false

end UnaryOp

/-- Arithmetic and bitwise operators. -/
inductive ArithOp where
  | add
  | sub
  | mul
  | div
  | rem
  | shl
  | shr
  | bitAnd
  | bitOr
  | bitXor
  deriving DecidableEq, Repr

namespace ArithOp

/-- All operators, in the order in which they are listed. -/
def all : List ArithOp := [add, sub, mul, div, rem, shl, shr, bitAnd, bitOr, bitXor]

/-- The operator as it is written. -/
def symbol : ArithOp → String
  | add => "+"
  | sub => "-"
  | mul => "*"
  | div => "/"
  | rem => "%"
  | shl => "<<"
  | shr => ">>"
  | bitAnd => "&"
  | bitOr => "|"
  | bitXor => "^"

/-- How tightly the operator binds. -/
def precedence : ArithOp → Nat
  | mul => 13
  | div => 13
  | rem => 13
  | add => 12
  | sub => 12
  | shl => 11
  | shr => 11
  | bitAnd => 8
  | bitXor => 7
  | bitOr => 6

/-- Whether the operator works on bits. -/
def isBitwise : ArithOp → Bool
  | shl => true
  | shr => true
  | bitAnd => true
  | bitOr => true
  | bitXor => true
  | _ => false

/-- Whether the operands may change places. -/
def isCommutative : ArithOp → Bool
  | add => true
  | mul => true
  | bitAnd => true
  | bitOr => true
  | bitXor => true
  | _ => false

end ArithOp

/-- The logical connectives. -/
inductive Connective where
  | and
  | or
  deriving DecidableEq, Repr

namespace Connective

/-- The connective as it is written. -/
def symbol : Connective → String
  | and => "&&"
  | or => "||"

/-- The other connective. -/
def dual : Connective → Connective
  | and => or
  | or => and

/-- The truth value of two operands joined by the connective. -/
def eval : Connective → Bool → Bool → Bool
  | and, a, b => a && b
  | or, a, b => a || b

end Connective

/-- Operators with two operands. -/
inductive BinaryOp where
  | arith (op : ArithOp)
  | compare (order : Order)
  | logic (connective : Connective)
  | assign
  | update (op : ArithOp)
  | comma
  deriving DecidableEq, Repr

namespace BinaryOp

/-- All operators, in the order in which they are listed. -/
def all : List BinaryOp :=
  ArithOp.all.map arith ++ Order.all.map compare ++ [logic .and, logic .or, assign]
    ++ ArithOp.all.map update ++ [comma]

/-- The operator as it is written. -/
def symbol : BinaryOp → String
  | arith op => op.symbol
  | compare o => o.symbol
  | logic c => c.symbol
  | assign => "="
  | update op => op.symbol ++ "="
  | comma => ","

/-- How tightly the operator binds. -/
def precedence : BinaryOp → Nat
  | arith op => op.precedence
  | compare o => if o.isEquality then 9 else 10
  | logic .and => 5
  | logic .or => 4
  | assign => 2
  | update _ => 2
  | comma => 1

/-- Whether this is a comparison. -/
def isComparison : BinaryOp → Bool
  | compare _ => true
  | _ => false

/-- Whether this is a logical connective. -/
def isLogical : BinaryOp → Bool
  | logic _ => true
  | _ => false

/-- Whether the operator stores into its left operand. -/
def isAssignment : BinaryOp → Bool
  | assign => true
  | update _ => true
  | _ => false

/-- Whether this is one of the four basic operations or the remainder. -/
def isArithmetic : BinaryOp → Bool
  | arith op => !op.isBitwise
  | _ => false

/-- Whether the operator works on bits. -/
def isBitwise : BinaryOp → Bool
  | arith op => op.isBitwise
  | _ => false

/-- Whether the operands may change places. -/
def isCommutative : BinaryOp → Bool
  | arith op => op.isCommutative
  | compare o => o.isEquality
  | logic _ => true
  | _ => false

/-- The comparison that says the same with its operands exchanged; other operators stay. -/
def flip : BinaryOp → BinaryOp
  | compare o => compare o.swap
  | op => op

/-- The comparison, if it is one. -/
def order? : BinaryOp → Option Order
  | compare o => some o
  | _ => none

end BinaryOp

end ConditionLint
