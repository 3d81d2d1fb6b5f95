import ConditionLint.SourceUnit
import ConditionLint.Tree.Traits

/-!
# What may change an expression

Whether evaluating a node may change a variable, or the value of an expression, is decided from the
shape of the tree. A store goes to the variable at the root of its target, or through a pointer to
anything that does not live on the stack; a call may change what it receives by address or by
reference, and everything that is not local. In doubt, something changes.
-/

namespace ConditionLint

/-- Whether a function may modify a variable, or what its address points to, through a parameter that
is passed in this way. -/
def Passing.mayModify (p : Passing) (byAddress : Bool) : Bool :=
  match p with
  | .value => byAddress
  | .constReference => byAddress
  | .constPointer => false
  | .reference => true
  | .pointer => true

namespace Tree

/-- The variable whose storage an expression designates: itself, a part of it, or a cast of it. -/
def designated? : Tree → Option VarId
  | node l ts =>
    match l.kind, ts with
    | .identifier _ _, _ => l.referent.map Variable.id
    | .member _ false, t :: _ => designated? t
    | .subscript, t :: _ => designated? t
    | .cast, t :: _ => designated? t
    | _, _ => none

/-- Whether a store to the expression goes through a pointer. -/
def isIndirect : Tree → Bool
  | node l ts =>
    match l.kind, ts with
    | .unary .deref, _ => true
    | .member _ true, _ => true
    | .subscript, t :: _ => t.ctype.all CType.isPointer
    | .subscript, [] => true
    | .member _ false, t :: _ => isIndirect t
    | .cast, t :: _ => isIndirect t
    | _, _ => false

/-- Whether the expression designates storage of the variable. -/
def designates (t : Tree) (v : Variable) : Bool := t.designated? = some v.id

/-- Whether the expression takes the address of storage of the variable. -/
def takesAddressOf (t : Tree) (v : Variable) : Bool :=
  t.isUnary .addressOf && (t.operand? 0).any fun inner => inner.designates v

/-- The arguments of a call, without the object of a method. -/
def arguments (t : Tree) (callee : Callee) : List Tree :=
  if callee.isMethod then t.operands.drop 1 else t.operands

/-- Whether a call receives the variable in a way that lets it modify the variable. -/
def passesModifiable (t : Tree) (callee : Callee) (v : Variable) : Bool :=
  !callee.isUnevaluated
    && (t.arguments callee).zipIdx.any fun (argument, i) =>
      let byAddress := argument.takesAddressOf v
      (byAddress || argument.designates v)
        && (callee.params.bind fun params => params[i]?).all fun p => p.mayModify byAddress

/-- Whether evaluating a call may change the variable. -/
def callChanges (t : Tree) (callee : Callee) (v : Variable) : Bool :=
  !callee.isUnevaluated
    && ((callee.isMethod && !callee.isConst && t.operands.head?.any fun object => object.designates v)
      || t.passesModifiable callee v
      || (!callee.isConst && !v.isLocalStorage))

/-- Whether the expression reads memory that a store through a pointer or a call may change. -/
def readsMemory (t : Tree) : Bool :=
  t.subtrees.any fun s =>
    match s.kind with
    | .unary .deref => true
    | .member _ true => true
    | .subscript => s.isIndirect
    | .call callee => !callee.isConst
    | _ => false

/-- Whether evaluating the node may change memory that is reached through pointers. -/
def storesMemory (t : Tree) : Bool :=
  match t.kind with
  | .binary op => op.isAssignment && t.operands.head?.any isIndirect
  | .call callee => callee.mayModify
  | _ => false

end Tree

namespace Place

/-- Whether the node at the place is an argument or the object of a call. -/
def inCall (p : Place) : Bool := p.above.head?.any fun t => t.callee?.isSome

/-- Whether evaluating the node at a place, not its operands, may change a variable. An address that is
taken outside of a call may be stored through later. -/
def changesVariable (p : Place) (v : Variable) : Bool :=
  match p.kind with
  | .binary (.arith .shr) => p.tree.readTarget?.any fun target => target.designates v
  | .binary op =>
    op.isAssignment
      && p.tree.operands.head?.any fun lhs =>
        lhs.designates v || (!v.isLocalStorage && lhs.isIndirect)
  | .unary .addressOf => p.tree.takesAddressOf v && !p.inCall
  | .unary op => op.isIncrement && p.tree.operands.head?.any fun t => t.designates v
  | .call callee => p.tree.callChanges callee v
  | _ => false

/-- Whether evaluating the node at a place, not its operands, may change the value of an expression. -/
def changes (p : Place) (e : Tree) : Bool :=
  e.vars.any (fun v => p.changesVariable v) || (e.readsMemory && p.tree.storesMemory)

end Place

namespace SourceUnit

/-- Whether the value of an expression may change anywhere at or below a node. -/
def changesWithin (u : SourceUnit) (e within : Tree) : Bool :=
  (u.span within).any fun q => q.changes e

/-- Whether a variable may change anywhere at or below a node. -/
def changesVariableWithin (u : SourceUnit) (v : Variable) (within : Tree) : Bool :=
  (u.span within).any fun q => q.changesVariable v

/-- Whether the value of an expression may change behind the first node and before the second. -/
def changesBetween (u : SourceUnit) (e a b : Tree) : Bool :=
  (u.between a b).any fun q => q.changes e

/-- Whether evaluating a condition, or anything behind it and before another node, may change it. -/
def changesUntil (u : SourceUnit) (condition later : Tree) : Bool :=
  u.changesWithin condition condition || u.changesBetween condition condition later

end SourceUnit

end ConditionLint
