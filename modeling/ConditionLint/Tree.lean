import ConditionLint.Tree.Label

/-!
# Syntax trees

A tree is a label with operand trees. `subtrees` lists a tree with everything below it in source order.
An operand may be shared with another node, or be the body of a function. The source order lists it
once, so all its other occurrences are marked and do not count among the subtrees around them.
-/

namespace ConditionLint

/-- A syntax node with its operands. -/
inductive Tree where
  | node (label : Label) (operands : List Tree)
  deriving Repr

namespace Tree

/-- The label of the topmost node. -/
def label : Tree → Label
  | node l _ => l

/-- The operands of the topmost node. -/
def operands : Tree → List Tree
  | node _ ts => ts

/-- The number of the topmost node. -/
def id (t : Tree) : NodeId := t.label.id

/-- What the topmost node is. -/
def kind (t : Tree) : Kind := t.label.kind

/-- The type of the topmost node, if it is known. -/
def ctype (t : Tree) : Option CType := t.label.ctype

/-- The variable that the topmost node refers to. -/
def referent (t : Tree) : Option Variable := t.label.referent

/-- The number of the variable that the topmost node refers to. -/
def varId? (t : Tree) : Option VarId := t.referent.map Variable.id

/-- Whether the source order lists the node at another occurrence. -/
def isElsewhere (t : Tree) : Bool := t.label.elsewhere

/-- Change the label of the topmost node. -/
def relabel (f : Label → Label) : Tree → Tree
  | node l ts => node (f l) ts

/-- An operand by its index. -/
def operand? (t : Tree) (i : Nat) : Option Tree := t.operands[i]?

/-- Whether the topmost node has the node with the given number as an operand. -/
def uses (t : Tree) (id : NodeId) : Bool := t.operands.any fun s => s.id == id

mutual

/-- The tree and everything below it, in source order. -/
def subtrees : Tree → List Tree
  | node l ts => node l ts :: subtreesOf ts

/-- The subtrees of a list of operands, without those that are listed elsewhere. -/
def subtreesOf : List Tree → List Tree
  | [] => []
  | t :: ts => (if t.isElsewhere then [] else subtrees t) ++ subtreesOf ts

end

/-- The number of nodes in the tree. -/
def size (t : Tree) : Nat := t.subtrees.length

mutual

/-- Change the labels of all nodes. -/
def mapLabels (f : Label → Label) : Tree → Tree
  | node l ts => node (f l) (mapLabelsOf f ts)

/-- Change the labels of all nodes of all operands. -/
def mapLabelsOf (f : Label → Label) : List Tree → List Tree
  | [] => []
  | t :: ts => mapLabels f t :: mapLabelsOf f ts

end

/-- The operator of a unary node. -/
def unaryOp? (t : Tree) : Option UnaryOp :=
  match t.kind with
  | .unary op => some op
  | _ => none

/-- The operator of a binary node. -/
def binaryOp? (t : Tree) : Option BinaryOp :=
  match t.kind with
  | .binary op => some op
  | _ => none

/-- The comparison of a comparing node. -/
def order? (t : Tree) : Option Order := t.binaryOp?.bind BinaryOp.order?

/-- The keyword of a statement. -/
def keyword? (t : Tree) : Option Keyword :=
  match t.kind with
  | .keyword k => some k
  | _ => none

/-- The literal, if the node is one. -/
def literal? (t : Tree) : Option Literal :=
  match t.kind with
  | .literal l => some l
  | _ => none

/-- The function that is called, if the node is a call. -/
def callee? (t : Tree) : Option Callee :=
  match t.kind with
  | .call c => some c
  | _ => none

/-- The operator of a binary node with its two operands. -/
def binary? (t : Tree) : Option (BinaryOp × Tree × Tree) :=
  match t with
  | node l [lhs, rhs] =>
    match l.kind with
    | .binary op => some (op, lhs, rhs)
    | _ => none
  | _ => none

/-- A comparison with its two sides. -/
def comparison? (t : Tree) : Option (Order × Tree × Tree) :=
  match t.binary? with
  | some (.compare o, lhs, rhs) => some (o, lhs, rhs)
  | _ => none

/-- The operand of a logical negation. -/
def negated? (t : Tree) : Option Tree :=
  match t with
  | node l [inner] => if l.kind = .unary .not then some inner else none
  | _ => none

/-- Whether the node applies the given unary operator. -/
def isUnary (t : Tree) (op : UnaryOp) : Bool := t.kind = .unary op

/-- Whether the node applies the given binary operator. -/
def isBinary (t : Tree) (op : BinaryOp) : Bool := t.kind = .binary op

/-- Whether the node is a logical negation. -/
def isNot (t : Tree) : Bool := t.isUnary .not

/-- Whether the node is a comparison. -/
def isComparison (t : Tree) : Bool := t.binaryOp?.any BinaryOp.isComparison

/-- Whether the node is `&&` or `||`. -/
def isLogical (t : Tree) : Bool := t.binaryOp?.any BinaryOp.isLogical

/-- Whether the node is an assignment, plain or updating. -/
def isAssignment (t : Tree) : Bool := t.binaryOp?.any BinaryOp.isAssignment

/-- Whether the node increments or decrements its operand. -/
def isIncrement (t : Tree) : Bool := t.unaryOp?.any UnaryOp.isIncrement

/-- Whether the node is a literal. -/
def isLiteral (t : Tree) : Bool := t.literal?.isSome

/-- Whether the node is a numeric or character literal. -/
def isNumber (t : Tree) : Bool := t.literal?.any Literal.isNumber

/-- Whether the node is a block. -/
def isBlock (t : Tree) : Bool := t.kind = .block

/-- Whether the node is an `if`. -/
def isIf (t : Tree) : Bool :=
  match t.kind with
  | .keyword (.ifStmt _) => true
  | _ => false

/-- Whether the node is an identifier. -/
def isIdentifier (t : Tree) : Bool :=
  match t.kind with
  | .identifier _ _ => true
  | _ => false

/-- Whether the type of the node satisfies a condition; a node of unknown type does not. -/
def hasType (t : Tree) (p : CType → Bool) : Bool := t.ctype.any p

/-- The operands that are reached from a node through one operator only, from left to right. -/
def chain (op : BinaryOp) : Tree → List Tree
  | node l [lhs, rhs] =>
    if l.kind = .binary op then chain op lhs ++ chain op rhs else [node l [lhs, rhs]]
  | t => [t]

/-- The variables that occur in a tree, each once, in the order of their first occurrence. -/
def vars (t : Tree) : List Variable :=
  (t.subtrees.filterMap referent).foldl
    (fun seen v => if seen.any fun w => w.id == v.id then seen else seen ++ [v]) []

end Tree

end ConditionLint
