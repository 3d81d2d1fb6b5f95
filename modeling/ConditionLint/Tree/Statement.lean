import ConditionLint.Tree

/-!
# Parts of statements

Statements are trees whose operands have fixed roles: a controlling condition, a body, an else branch.
A clause of a `for` that is left out counts as no condition.
-/

namespace ConditionLint.Tree

/-- The controlling condition of an `if`, a loop or a `switch`. -/
def condition? (t : Tree) : Option Tree :=
  (t.keyword?.bind Keyword.conditionIndex?).bind fun i =>
    (t.operand? i).filter fun c => c.kind ≠ .empty

/-- The body of a statement that has one. -/
def body? (t : Tree) : Option Tree :=
  (t.keyword?.bind Keyword.bodyIndex?).bind t.operand?

/-- The else branch of an `if`. -/
def elseBranch? (t : Tree) : Option Tree :=
  if t.isIf then t.operand? 2 else none

/-- The statements of a block; any other statement stands for itself. -/
def statements (t : Tree) : List Tree :=
  if t.isBlock then t.operands else [t]

/-- Whether the statement leaves the enclosing block, other than by `goto`. -/
def isLeaving (t : Tree) : Bool :=
  match t.keyword? with
  | some .returnStmt => true
  | some .throwStmt => true
  | some .continueStmt => true
  | some .breakStmt => true
  | _ => false

/-- Whether some statement of the body leaves the enclosing block. -/
def mayLeave (body : Tree) : Bool := body.statements.any isLeaving

/-- Whether the first statement of the body leaves the enclosing block. -/
def leavesAtOnce (body : Tree) : Bool := body.statements.head?.any isLeaving

end ConditionLint.Tree
