import ConditionLint.Tree

/-!
# Traits of expressions

Properties of an expression that depend on nothing around it: its known value, whether it has side
effects, whether it is made of constants, whether it writes to a stream. The checks use them to keep
quiet where a finding would be noise.
-/

namespace ConditionLint

/-- Names of operators whose operands are never evaluated. -/
def unevaluatedNames : List String :=
  ["sizeof", "decltype", "typeid", "alignof", "_Alignof", "noexcept", "static_assert"]

/-- Names of assertions: a condition inside them is meant to be true. -/
def assertionNames : List String :=
  ["assert", "ASSERT", "_ASSERT", "_ASSERTE", "BOOST_ASSERT", "Q_ASSERT", "DCHECK", "CHECK", "VERIFY",
    "g_assert", "assert_param", "ASSERT_TRUE", "ASSERT_FALSE", "EXPECT_TRUE", "EXPECT_FALSE",
    "static_assert"]

/-- Names of the standard streams. -/
def streamNames : List String :=
  ["cin", "cout", "cerr", "clog", "wcin", "wcout", "wcerr", "wclog", "std::cin", "std::cout",
    "std::cerr", "std::clog", "std::wcin", "std::wcout", "std::wcerr", "std::wclog"]

/-- Whether the operands of the call are never evaluated. -/
def Callee.isUnevaluated (c : Callee) : Bool := unevaluatedNames.contains c.name

/-- Whether the function is an assertion. -/
def Callee.isAssertion (c : Callee) : Bool := assertionNames.contains c.name

/-- Whether evaluating a call of the function may modify state. -/
def Callee.mayModify (c : Callee) : Bool := !c.isConst && !c.isUnevaluated

namespace Tree

/-- Whether the node is a call whose operands are never evaluated. -/
def isUnevaluatedCall (t : Tree) : Bool := t.callee?.any Callee.isUnevaluated

/-- Whether the node is an assertion. -/
def isAssertionCall (t : Tree) : Bool := t.callee?.any Callee.isAssertion

/-- Whether the node is a call that may modify state. -/
def isModifyingCall (t : Tree) : Bool := t.callee?.any Callee.mayModify

/-- The first known integer fact of the node. -/
def valueFact? (t : Tree) : Option Fact :=
  t.label.facts.find? fun f => f.value?.isSome

/-- The integer that the node itself spells: a literal or an enumerator. -/
def spelledValue? (t : Tree) : Option Int :=
  match t.kind with
  | .literal l => l.int?
  | .identifier _ enumerator => enumerator
  | _ => none

/-- The known integer value of the node: by a fact, or as it is spelled. -/
def value? (t : Tree) : Option Int :=
  match t.valueFact?.bind Fact.value? with
  | some v => some v
  | none => t.spelledValue?

/-- Whether the integer value of the node is known. -/
def hasValue (t : Tree) : Bool := t.value?.isSome

/-- Whether the value of the node was given up on. -/
def hasBailout (t : Tree) : Bool := t.label.facts.any fun f => f.payload = .bailout

/-- The value of an integer literal. -/
def spelledInteger? (t : Tree) : Option Int :=
  match t.kind with
  | .literal (.int v _) => some v
  | _ => none

/-- The value of an integer or character literal. -/
def spelledNumber? (t : Tree) : Option Int :=
  match t.kind with
  | .literal (.int v _) => some v
  | .literal (.char v _) => some v
  | _ => none

/-- Whether the type of the node is that of truth values. -/
def isBoolTyped (t : Tree) : Bool := t.hasType CType.isBool

/-- Whether some node of the tree comes from a macro expansion. -/
def macroInside (t : Tree) : Bool := t.subtrees.any fun s => s.label.fromMacro

/-- Whether conditional compilation lies within some node of the tree. -/
def ifdefInside (t : Tree) : Bool := t.subtrees.any fun s => s.label.spansIfdef

/-- Whether the leftmost operand of a chain of one shift operator is a stream. -/
def startsAtStream (op : ArithOp) : Tree → Bool
  | node l ts =>
    match l.kind, ts with
    | .binary (.arith op'), lhs :: _ =>
      if op' = op then startsAtStream op lhs else l.ctype.any CType.isRecordValue
    | .identifier name _, _ => streamNames.contains name || l.ctype.any CType.isRecordValue
    | _, _ => l.ctype.any CType.isRecordValue

/-- Whether the node reads from or writes to a stream. -/
def usesStream (t : Tree) : Bool :=
  match t.binaryOp? with
  | some (.arith .shl) => startsAtStream .shl t
  | some (.arith .shr) => startsAtStream .shr t
  | _ => false

/-- What a read from a stream stores into. -/
def readTarget? (t : Tree) : Option Tree :=
  if t.isBinary (.arith .shr) && t.usesStream then t.operand? 1 else none

/-- Whether the node itself modifies state. -/
def isEffect (t : Tree) : Bool := t.isIncrement || t.isAssignment || t.isModifyingCall

/-- Whether evaluating the expression modifies state. -/
def modifiesState (t : Tree) : Bool := t.subtrees.any isEffect

mutual

/-- Whether the expression is made of constants and constant variables only. -/
def isConstant : Tree → Bool
  | node l ts =>
    match l.kind with
    | .literal _ => true
    | .identifier _ (some _) => true
    | .identifier _ none =>
      l.referent.any fun v =>
        v.storage.isConst && !v.storage.isPointer && !v.storage.isReference
    | .unary op =>
      !op.isIncrement && op ≠ .deref && op ≠ .addressOf && areConstant ts
    | .binary op => !op.isAssignment && areConstant ts
    | .cast => areConstant ts
    | .ternary => areConstant ts
    | .call callee => callee.isUnevaluated
    | _ => false

/-- Whether all expressions are made of constants and constant variables only. -/
def areConstant : List Tree → Bool
  | [] => true
  | t :: ts => isConstant t && areConstant ts

end

/-- Whether the operator may join sizes and numbers into a size expression. -/
def joinsSizes (op : BinaryOp) : Bool := op.isComparison || op.isArithmetic

mutual

/-- Whether `sizeof` occurs among the operands that arithmetic and comparisons join. -/
def mentionsSizeof : Tree → Bool
  | node l ts =>
    match l.kind with
    | .call callee => callee.name = "sizeof"
    | .binary op => joinsSizes op && someMentionsSizeof ts
    | _ => false

/-- Whether `sizeof` occurs in one of the operands. -/
def someMentionsSizeof : List Tree → Bool
  | [] => false
  | t :: ts => mentionsSizeof t || someMentionsSizeof ts

end

mutual

/-- Whether arithmetic and comparisons join nothing but numbers and `sizeof`. -/
def isSizesAndNumbers : Tree → Bool
  | node l ts =>
    match l.kind with
    | .literal value => value.isNumber
    | .call callee => callee.name = "sizeof"
    | .binary op => joinsSizes op && areSizesAndNumbers ts
    | _ => false

/-- Whether all operands are made of numbers and `sizeof`. -/
def areSizesAndNumbers : List Tree → Bool
  | [] => true
  | t :: ts => isSizesAndNumbers t && areSizesAndNumbers ts

end

/-- Whether the expression is about sizes only. -/
def isAboutSizes (t : Tree) : Bool := t.mentionsSizeof && t.isSizesAndNumbers

/-- Whether the variable is a reference, or its address is taken in the tree. -/
def aliases (root : Tree) (v : Variable) : Bool :=
  v.storage.isReference
    || root.subtrees.any fun t =>
      t.isUnary .addressOf && (t.operand? 0).any fun inner => inner.varId? = some v.id

/-- Whether the node spells zero. -/
def isZero (t : Tree) : Bool := t.spelledNumber? = some 0

/-- Whether an ordering with zero is trivial for the type of the node. -/
def isUnsignedOrPointer (t : Tree) : Bool :=
  t.hasType fun ty => ty.isPointer || (ty.isIntegral && ty.isUnsigned)

/-- Whether an unsigned value or a pointer is tested for being below zero. -/
def isUnsignedZeroTest (t : Tree) : Bool :=
  match t.comparison? with
  | some (.lt, lhs, rhs) => rhs.isZero && lhs.isUnsignedOrPointer
  | some (.ge, lhs, rhs) => rhs.isZero && lhs.isUnsignedOrPointer
  | some (.gt, lhs, rhs) => lhs.isZero && rhs.isUnsignedOrPointer
  | some (.le, lhs, rhs) => lhs.isZero && rhs.isUnsignedOrPointer
  | _ => false

/-- Whether the condition is a literal or the negation of one. -/
def isLiteralTest (t : Tree) : Bool := t.isLiteral || t.negated?.any isLiteral

/-- Whether the node is a string literal. -/
def isString (t : Tree) : Bool :=
  match t.literal? with
  | some (.string _) => true
  | _ => false

end Tree

end ConditionLint
