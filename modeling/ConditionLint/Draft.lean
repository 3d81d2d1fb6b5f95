import ConditionLint.SourceUnit
import ConditionLint.Tree.Layout

/-!
# Drafts of source units

A draft is a source unit under construction. Nodes are numbered in the order in which they are
made, operands before the node that uses them. A draft holds every node with its operands; one that is
used again is shared and appears under each node that uses it. Facts, types and marks can be put on any
node at any time and show at all its occurrences. `finish` settles the source order.
-/

namespace ConditionLint

/-- Marks on a node that say where it comes from. -/
inductive Origin where
  | macroExpansion
  | template
  | ifdef
  deriving DecidableEq, Repr

/-- Put a mark on a label. -/
def Origin.put : Origin → Label → Label
  | .macroExpansion, l => { l with fromMacro := true }
  | .template, l => { l with fromTemplate := true }
  | .ifdef, l => { l with spansIfdef := true }

/-- One step in making a source unit. -/
inductive Action where
  /-- Nodes made from now on stand on this line. -/
  | line (number : Nat)
  | declare (name : String) (ctype : CType) (storage : Storage)
  | restore (var : VarId) (change : Storage → Storage)
  | literal (value : Literal) (ctype : CType)
  | reference (var : VarId)
  | enumerator (name : String) (value : Int)
  | name (name : String)
  | unary (op : UnaryOp) (operand : NodeId)
  | binary (op : BinaryOp) (lhs rhs : NodeId)
  | call (callee : Callee) (operands : List NodeId)
  | member (object : NodeId) (name : String) (arrow : Bool)
  | subscript (array index : NodeId)
  | cast (ctype : CType) (operand : NodeId)
  | ternary (condition yes no : NodeId)
  | empty
  | block (statements : List NodeId)
  | statement (word : Keyword) (operands : List NodeId)
  /-- A clause that is left out becomes an empty node, made before the loop. -/
  | forLoop (init condition step : Option NodeId) (body : NodeId)
  | retype (node : NodeId) (ctype : CType)
  | mark (node : NodeId) (origin : Origin)
  | attach (node : NodeId) (fact : Fact)
  | function (name : String) (params : List VarId) (returns : CType) (body : NodeId)

namespace Literal

/-- An integer in decimal. -/
def decimal (value : Int) : Literal := int value (toString value)

/-- An unsigned integer in decimal. -/
def unsignedDecimal (value : Int) : Literal := int value (toString value ++ "U")

/-- A floating number. -/
def ofFloat (value : Float) : Literal := float value (Binary64.literalText value)

/-- A character. -/
def ofChar (c : Char) : Literal := char c.toNat ("'" ++ c.toString ++ "'")

end Literal

/-- The type of a unary expression, from that of its operand. -/
def UnaryOp.resultType (op : UnaryOp) (operand : Option CType) : Option CType :=
  match op with
  | .not => some .bool
  | .addressOf => operand.map CType.pointerTo
  | .deref => operand.bind CType.pointee?
  | .neg => operand.map CType.promoted
  | .plus => operand.map CType.promoted
  | .bitNot => operand.map CType.promoted
  | _ => operand

/-- The type of a binary expression, from those of its operands. -/
def BinaryOp.resultType (op : BinaryOp) (lhs rhs : Option CType) : Option CType :=
  match op with
  | .compare _ => some .bool
  | .logic _ => some .bool
  | .assign => lhs
  | .update _ => lhs
  | .comma => rhs
  | .arith .shl => lhs.map CType.promoted
  | .arith .shr => lhs.map CType.promoted
  | .arith _ => lhs.bind fun l => rhs.map fun r => CType.common l r

/-- A source unit under construction. -/
structure Draft where
  file : String
  line : Nat := 1
  column : Nat := 0
  /-- The nodes made so far, by their numbers. -/
  nodes : List Tree := []
  vars : List Variable := []
  functions : List Function := []

namespace Draft

/-- Make a node, possibly one that refers to a variable. -/
def addReferring (d : Draft) (kind : Kind) (operands : List Tree) (ctype : Option CType)
    (referent : Option Variable) : Draft :=
  let label : Label :=
    { id := d.nodes.length
      kind := kind
      location := ⟨d.file, d.line, d.column + 1⟩
      ctype := ctype
      referent := referent }
  { d with
    column := d.column + 1
    nodes := d.nodes ++ [.node label operands] }

/-- Make a node that refers to no variable. -/
def add (d : Draft) (kind : Kind) (operands : List Tree) (ctype : Option CType) : Draft :=
  d.addReferring kind operands ctype none

/-- Make a node from operands by their numbers; its type depends on the operands. -/
def addFrom? (d : Draft) (kind : Kind) (ids : List NodeId) (ctype : List Tree → Option CType) :
    Option Draft :=
  (ids.mapM fun id => d.nodes[id]?).map fun operands => d.add kind operands (ctype operands)

/-- Make an empty node for a clause that is left out. -/
def clause (d : Draft) : Option NodeId → NodeId × Draft
  | some id => (id, d)
  | none => (d.nodes.length, d.add .empty [] none)

/-- Change the labels of all nodes, wherever they occur. -/
def relabel (d : Draft) (f : Label → Label) : Draft :=
  { d with nodes := Tree.mapLabelsOf f d.nodes }

/-- Change the label of one node. -/
def update (d : Draft) (id : NodeId) (f : Label → Label) : Draft :=
  d.relabel fun l => if l.id = id then f l else l

/-- Declare a variable. A pointer or constant type shows in the storage too. -/
def declare (d : Draft) (name : String) (ctype : CType) (storage : Storage) : Draft :=
  let storage :=
    { storage with
      isPointer := storage.isPointer || ctype.isPointer
      isConst := storage.isConst || ctype.isConst }
  { d with vars := d.vars ++ [⟨d.vars.length, name, ctype, storage⟩] }

/-- Change the storage of a variable, in its declaration and wherever it is referred to. -/
def restore (d : Draft) (var : VarId) (change : Storage → Storage) : Draft :=
  let adapt (v : Variable) : Variable :=
    if v.id = var then { v with storage := change v.storage } else v
  { d.relabel fun l => { l with referent := l.referent.map adapt } with
    vars := d.vars.map adapt }

/-- Refer to a declared variable. -/
def reference? (d : Draft) (var : VarId) : Option Draft :=
  d.vars[var]?.map fun v =>
    d.addReferring (.identifier v.name none) [] (some v.ctype) (some v)

/-- The type of an operand by its index. -/
def typeAt (i : Nat) (operands : List Tree) : Option CType := operands[i]?.bind Tree.ctype

/-- Take one step. It fails when an operand is not made yet or a variable is not declared. -/
def perform? (d : Draft) : Action → Option Draft
  | .line number => some { d with line := number, column := 0 }
  | .declare name ctype storage => some (d.declare name ctype storage)
  | .restore var change => some (d.restore var change)
  | .literal value ctype => some (d.add (.literal value) [] (some ctype))
  | .reference var => d.reference? var
  | .enumerator name value => some (d.add (.identifier name (some value)) [] (some .int))
  | .name name => some (d.add (.identifier name none) [] none)
  | .unary op operand => d.addFrom? (.unary op) [operand] fun ts => op.resultType (typeAt 0 ts)
  | .binary op lhs rhs =>
    d.addFrom? (.binary op) [lhs, rhs] fun ts => op.resultType (typeAt 0 ts) (typeAt 1 ts)
  | .call callee operands => d.addFrom? (.call callee) operands fun _ => none
  | .member object name arrow => d.addFrom? (.member name arrow) [object] fun _ => none
  | .subscript array index =>
    d.addFrom? .subscript [array, index] fun ts => (typeAt 0 ts).bind CType.pointee?
  | .cast ctype operand => d.addFrom? .cast [operand] fun _ => some ctype
  | .ternary condition yes no => d.addFrom? .ternary [condition, yes, no] fun ts => typeAt 1 ts
  | .empty => some (d.add .empty [] none)
  | .block statements => d.addFrom? .block statements fun _ => none
  | .statement word operands => d.addFrom? (.keyword word) operands fun _ => none
  | .forLoop init condition step body =>
    let (init, d) := d.clause init
    let (condition, d) := d.clause condition
    let (step, d) := d.clause step
    d.addFrom? (.keyword .forStmt) [init, condition, step, body] fun _ => none
  | .retype node ctype => some (d.update node fun l => { l with ctype := some ctype })
  | .mark node origin => some (d.update node origin.put)
  | .attach node fact => some (d.update node fun l => { l with facts := fact.attach l.facts })
  | .function name params returns body =>
    some { d with functions := d.functions ++ [⟨name, params, returns, body⟩] }

/-- Take all steps. -/
def performAll? (d : Draft) : List Action → Option Draft
  | [] => some d
  | action :: rest => (d.perform? action).bind fun d => d.performAll? rest

/-- The last function with the given body. -/
def ownerOf? (functions : List Function) (body : NodeId) : Option FunctionId :=
  (functions.zipIdx.reverse.find? fun f => f.1.body == body).map Prod.snd

/-- The function bodies, in the order of declaration. -/
def bodies (d : Draft) : List Tree :=
  d.functions.filterMap fun f =>
    d.nodes[f.body]?.map (Tree.relabel fun l => { l with owner := ownerOf? d.functions f.body })

/-- Whether a node is neither an operand nor the body of a function. -/
def isFree (d : Draft) (t : Tree) : Bool :=
  !(d.nodes.any fun s => s.uses t.id) && !(d.functions.any fun f => f.body == t.id)

/-- Settle the source order: function bodies first, then the nodes that stand free. -/
def finish (d : Draft) : SourceUnit :=
  .ofTrees d.vars d.functions (Tree.starts (d.bodies ++ d.nodes.filter d.isFree))

end Draft

end ConditionLint
