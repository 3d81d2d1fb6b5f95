import ConditionLint.Check.RepeatedIf
import ConditionLint.Condition.Opposition
import ConditionLint.Finding

/-!
# Conditions under and behind a condition

In the body of an `if`, a `while` or a `for` the condition holds, and behind an `if` that leaves at once
it does not. The conditions that follow in that region are compared with it, up to the first node that
may change what the condition depends on or that takes the control flow elsewhere.
-/

namespace ConditionLint

/-- What the value of a condition depends on. -/
structure Dependence where
  vars : List Variable
  /-- It reads what a call may change: globals, what is pointed or referred to, unknown names. -/
  nonlocal : Bool
  /-- It calls a function. -/
  calls : Bool

/-- Whether the variable can be reached from outside of the function, or leads there. -/
def Variable.isShared (v : Variable) : Bool :=
  !(v.storage.isLocal || v.storage.isArgument) || v.storage.isPointer || v.storage.isReference

namespace Tree

/-- Whether the node is a name that a call may change the meaning of. -/
def isNonlocalName (t : Tree) : Bool :=
  match t.kind with
  | .identifier _ none => t.referent.all Variable.isShared
  | _ => false

/-- What a condition depends on; none for a condition that may itself modify state by a call. -/
def dependence? (t : Tree) : Option Dependence :=
  if t.subtrees.any isModifyingCall then none
  else some
    { vars := t.vars
      nonlocal := t.subtrees.any isNonlocalName
      calls := t.subtrees.any fun s => s.callee?.isSome }

/-- Whether the node stores into a variable that does not live on the stack. -/
def storesNonlocal (t : Tree) : Bool :=
  (t.isAssignment || t.isIncrement)
    && t.operands.head?.any fun target => target.vars.any fun v => !v.isLocalStorage

/-- Whether the node leaves the statement list that it stands in, or begins another case of it. -/
def endsList (t : Tree) : Bool := t.isLeaving || t.keyword? = some .caseLabel

/-- Whether the node is a label, which may be jumped to. -/
def isLabel (t : Tree) : Bool :=
  match t.keyword? with
  | some (.label _) => true
  | _ => false

/-- Whether the node is a loop. -/
def isLoop (t : Tree) : Bool := t.keyword?.any Keyword.isLoop

end Tree

/-- Whether what was known about a condition is lost behind a node. Jumps count in the given scope. -/
def Dependence.endsAt (d : Dependence) (u : SourceUnit) (scope : Nat) (t : Tree) : Bool :=
  (d.nonlocal && t.isModifyingCall)
    || (d.calls && t.storesNonlocal)
    || (t.endsList && u.scopeOf t = scope)
    || t.isLabel
    || (t.isLoop && d.vars.any fun v => u.changesVariableWithin v t)

namespace Tree

/-- The condition that a statement tests: that of an `if`, or a returned value. -/
def tested? (t : Tree) : Option Tree :=
  match t.keyword? with
  | some (.ifStmt _) => t.condition?
  | some .returnStmt => t.operand? 0
  | _ => none

/-- The operands that are reached from a condition through certain connectives only, from left to
right. -/
def leaves (passes : Connective → Bool) : Tree → List Tree
  | node l [lhs, rhs] =>
    match l.kind with
    | .binary (.logic c) =>
      if passes c then leaves passes lhs ++ leaves passes rhs else [node l [lhs, rhs]]
    | _ => [node l [lhs, rhs]]
  | t => [t]

/-- Whether the condition that a statement tests is worth comparing with the one around it; of returned
values only operations other than assignments are. -/
def testsInner (statement condition : Tree) : Bool :=
  statement.keyword? ≠ some .returnStmt
    || condition.binaryOp?.any fun op => !op.isAssignment && op ≠ .comma

end Tree

namespace SourceUnit

/-- The statements along the given nodes that test a condition, each with it, while what is known about
`condition` lasts. -/
def testedWhile (u : SourceUnit) (condition : Tree) (d : Dependence) (scope : Nat) :
    List Place → List (Tree × Tree)
  | [] => []
  | p :: ps =>
    if p.changes condition then []
    else
      let rest := if d.endsAt u scope p.tree then [] else u.testedWhile condition d scope ps
      match p.tree.tested? with
      | some c => if u.changesWithin condition c then [] else (p.tree, c) :: rest
      | none => rest

/-- Whether something that a condition depends on can be reached under another name. -/
def isAliased (u : SourceUnit) (condition : Tree) (d : Dependence) : Bool :=
  d.vars.any fun v => (u.placeOf condition).root.aliases v

/-- Compare one conjunct of the outer condition with an inner condition. -/
def innerFinding? (u : SourceUnit) (outer : Tree) (d : Dependence) (conjunct inner : Tree) :
    Option Finding :=
  if conjunct.hasValue then none
  else if Tree.exclusive conjunct inner then
    if u.isAliased outer d then none
    else some (.oppositeInner (u.placeOf conjunct) (u.placeOf inner))
  else if Tree.same conjunct inner then
    some (.identicalInner (u.placeOf conjunct) (u.placeOf inner))
  else none

/-- The findings about an inner condition, one for each conjunct of the outer one. -/
def innerFindings (u : SourceUnit) (outer : Tree) (d : Dependence) (inner : Tree) : List Finding :=
  (outer.leaves fun c => c = .and).filterMap fun conjunct => u.innerFinding? outer d conjunct inner

/-- Whether conditional compilation lies in the two conditions or between them. -/
def ifdefAround (u : SourceUnit) (first second : Tree) : Bool :=
  first.ifdefInside || second.ifdefInside
    || (u.between first second).any fun q => q.tree.label.spansIfdef

/-- Whether an operand of a later condition repeats the condition of an early exit. -/
def isRepeatedBy (u : SourceUnit) (first : Tree) (d : Dependence) (second : Tree) : Bool :=
  !(first.hasValue && second.hasValue)
    && Tree.same first second
    && !u.isAliased first d
    && !u.ifdefAround first second

/-- The first operand of a later condition that repeats the condition of an early exit. -/
def repetition? (u : SourceUnit) (first : Tree) (d : Dependence) (second : Tree) : Option Finding :=
  ((second.leaves fun _ => true).find? fun leaf => u.isRepeatedBy first d leaf).map fun leaf =>
    .repeatedAfterExit (u.placeOf first) (u.placeOf leaf)

/-- The nodes inside a body; a block itself does not count. -/
def interior (u : SourceUnit) (body : Tree) : List Place :=
  if body.isBlock then (u.span body).drop 1 else u.span body

/-- Findings in the body under a condition. -/
def findingsInside (u : SourceUnit) (condition body : Tree) (d : Dependence) : List Finding :=
  ((u.testedWhile condition d (u.scopeOf body) (u.interior body)).filter
    fun (statement, inner) => statement.testsInner inner).flatMap
      fun (_, inner) => u.innerFindings condition d inner

end SourceUnit

namespace Place

/-- The block whose rest an `if` guards by leaving at once when its condition is true. -/
def guardedBlock? (p : Place) (body : Tree) : Option Tree :=
  if p.tree.isIf && body.leavesAtOnce then p.parent?.filter Tree.isBlock else none

/-- The first finding behind an `if` that leaves at once when its condition is true. -/
def findingBehind? (u : SourceUnit) (p : Place) (condition body : Tree) (d : Dependence) :
    Option Finding :=
  (p.guardedBlock? body).bind fun block =>
    (u.testedWhile condition d (u.scopeOf p.tree) (u.restOf body block)).findSome?
      fun (_, second) => u.repetition? condition d second

/-- Whether the body of the statement is entered only when its condition is true. -/
def guardsBody (p : Place) : Bool :=
  match p.tree.keyword? with
  | some (.ifStmt _) => true
  | some .whileStmt => true
  | some .forStmt => true
  | _ => false

/-- The findings about conditions under and behind the condition of the statement at a place. -/
def innerConditions (u : SourceUnit) (p : Place) : List Finding :=
  match (if p.guardsBody then p.tree.condition? else none), p.tree.body? with
  | some condition, some body =>
    match condition.dependence? with
    | some d => u.findingsInside condition body d ++ (p.findingBehind? u condition body d).toList
    | none => []
  | _, _ => []

end Place

end ConditionLint
