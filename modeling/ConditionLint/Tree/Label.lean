import ConditionLint.CType
import ConditionLint.Fact
import ConditionLint.Location
import ConditionLint.Operator

/-!
# Labels of syntax nodes

A label says what a node is, where it stands, and what is known about its value. Its operands are not
part of it.
-/

namespace ConditionLint

/-- A constant as it is written. -/
inductive Literal where
  | int (value : Int) (text : String)
  | float (value : Float) (text : String)
  | char (value : Int) (text : String)
  | string (value : String)
  | bool (value : Bool)
  deriving DecidableEq, Repr

namespace Literal

/-- The integer that a literal stands for; characters and truth values do. -/
def int? : Literal → Option Int
  | int v _ => some v
  | char v _ => some v
  | bool b => some (if b then 1 else 0)
  | _ => none

/-- Whether the literal is a number or a character. -/
def isNumber : Literal → Bool
  | int _ _ => true
  | float _ _ => true
  | char _ _ => true
  | _ => false

/-- The spelling of a literal. -/
def spelling : Literal → String
  | int _ text => text
  | float _ text => text
  | char _ text => text
  | string value => "\"" ++ value ++ "\""
  | bool b => if b then "true" else "false"

end Literal

/-- How a parameter receives its argument. -/
inductive Passing where
  | value
  | constReference
  | reference
  | constPointer
  | pointer
  deriving DecidableEq, Repr

/-- The function that is called. -/
structure Callee where
  name : String
  /-- The first operand of the call is the object. -/
  isMethod : Bool := false
  /-- The function is known to modify nothing. -/
  isConst : Bool := false
  /-- How the parameters are passed, if the function is known. -/
  params : Option (List Passing) := none
  deriving DecidableEq, Repr

/-- Statements with a keyword, and labels. -/
inductive Keyword where
  | ifStmt (constexpr : Bool)
  | whileStmt
  | doWhile
  | forStmt
  | switchStmt
  | caseLabel
  | defaultLabel
  | catchBlock
  | label (name : String)
  | returnStmt
  | throwStmt
  | breakStmt
  | continueStmt
  | gotoStmt (target : String)
  deriving DecidableEq, Repr

namespace Keyword

/-- The keyword; a label shows its own name. -/
def name : Keyword → String
  | ifStmt _ => "if"
  | whileStmt => "while"
  | doWhile => "do"
  | forStmt => "for"
  | switchStmt => "switch"
  | caseLabel => "case"
  | defaultLabel => "default"
  | catchBlock => "catch"
  | label name => name
  | returnStmt => "return"
  | throwStmt => "throw"
  | breakStmt => "break"
  | continueStmt => "continue"
  | gotoStmt _ => "goto"

/-- Whether the statement leaves the current block. -/
def isJump : Keyword → Bool
  | returnStmt => true
  | throwStmt => true
  | breakStmt => true
  | continueStmt => true
  | gotoStmt _ => true
  | _ => false

/-- Whether the statement is a loop. -/
def isLoop : Keyword → Bool
  | whileStmt => true
  | doWhile => true
  | forStmt => true
  | _ => false

/-- Which operand is the controlling condition. -/
def conditionIndex? : Keyword → Option Nat
  | ifStmt _ => some 0
  | whileStmt => some 0
  | switchStmt => some 0
  | doWhile => some 1
  | forStmt => some 1
  | _ => none

/-- Which operand is the body. -/
def bodyIndex? : Keyword → Option Nat
  | ifStmt _ => some 1
  | whileStmt => some 1
  | switchStmt => some 1
  | doWhile => some 0
  | catchBlock => some 0
  | forStmt => some 3
  | _ => none

end Keyword

/-- What a node is. Operators and calls have their operands in source order; a `for` has four operands
with an empty node for each clause left out. -/
inductive Kind where
  | literal (value : Literal)
  | identifier (name : String) (enumerator : Option Int)
  | unary (op : UnaryOp)
  | binary (op : BinaryOp)
  | call (callee : Callee)
  | member (name : String) (arrow : Bool)
  | subscript
  | cast
  | ternary
  | keyword (word : Keyword)
  | block
  | empty
  deriving DecidableEq, Repr

/-- Storage class and shape of a variable. -/
structure Storage where
  isLocal : Bool := false
  isArgument : Bool := false
  isConst : Bool := false
  isPointer : Bool := false
  isReference : Bool := false
  isArray : Bool := false
  isStatic : Bool := false
  isGlobal : Bool := false
  deriving DecidableEq, Repr

/-- A declared variable. -/
structure Variable where
  id : VarId
  name : String
  ctype : CType
  storage : Storage
  deriving DecidableEq, Repr

/-- Whether the variable lives on the stack of its function only. -/
def Variable.isLocalStorage (v : Variable) : Bool :=
  (v.storage.isLocal || v.storage.isArgument) && !v.storage.isStatic && !v.storage.isReference

/-- A node without its operands. -/
structure Label where
  id : NodeId
  kind : Kind
  location : Location
  ctype : Option CType := none
  /-- The variable that an identifier refers to. -/
  referent : Option Variable := none
  facts : List Fact := []
  /-- The node comes from a macro expansion. -/
  fromMacro : Bool := false
  /-- The node stands in a template. -/
  fromTemplate : Bool := false
  /-- Conditional compilation lies within the node. -/
  spansIfdef : Bool := false
  /-- The function whose body this is. -/
  owner : Option FunctionId := none
  /-- The source order lists the node elsewhere: on its own, or under another node that shares it. -/
  elsewhere : Bool := false
  deriving DecidableEq, Repr

end ConditionLint
