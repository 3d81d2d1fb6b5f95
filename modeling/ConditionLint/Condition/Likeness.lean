import ConditionLint.Tree.Traits

/-!
# Expressions that are the same

Two expressions are the same when their trees agree up to what does not matter: a double negation, a
smart pointer's `get()`, the order of the operands of a commutative operator, and the side on which a
comparison is written. Expressions with side effects are never the same, not even as themselves.
-/

namespace ConditionLint

/-- Whether a call of the function gives back its object. -/
def Callee.isTransparent (c : Callee) : Bool := c.isMethod && c.name = "get"

namespace Tree

/-- Drop double negations and transparent calls from the top. -/
def core : Tree → Tree
  | node l ts =>
    match l.kind, ts with
    | .unary .not, [node l' [inner]] =>
      if l'.kind = .unary .not then core inner else node l [node l' [inner]]
    | .call callee, [object] => if callee.isTransparent then core object else node l [object]
    | _, _ => node l ts

/-- Whether two operators say the same with their operands exchanged. -/
def agreeSwapped (op op' : BinaryOp) : Bool :=
  if op.isCommutative then op = op' else op.isComparison && op.flip = op'

/-- Whether two labels agree as far as nodes whose operands correspond one by one are concerned. -/
def labelsAgree (l l' : Label) : Bool :=
  match l.kind, l'.kind with
  | .unary op, .unary op' => op = op' && !op.isIncrement
  | .call c, .call c' => c.name = c'.name && c.isMethod = c'.isMethod && c.isConst && c'.isConst
  | .member name arrow, .member name' arrow' => name = name' && arrow = arrow'
  | .subscript, .subscript => true
  | .ternary, .ternary => true
  | .cast, .cast => l.ctype = l'.ctype
  | _, _ => false

/-- Whether two leaves are the same: constants by value, variables by declaration, names by spelling. -/
def leavesAgree (t u : Tree) : Bool :=
  match t.spelledValue?, u.spelledValue? with
  | some v, some w => v = w
  | _, _ =>
    match t.kind, u.kind with
    | .literal (.float x _), .literal (.float y _) => x == y
    | .literal (.string x), .literal (.string y) => x = y
    | .identifier x _, .identifier y _ =>
      match t.varId?, u.varId? with
      | some v, some w => v = w
      | none, none => x = y
      | _, _ => false
    | _, _ => false

mutual

/-- Whether two expressions are the same. What is transparent is dropped on both sides first. -/
def same (t u : Tree) : Bool :=
  match t with
  | node l ts =>
    match l.kind, ts with
    | .unary .not, [node l' [inner]] =>
      if l'.kind = .unary .not then same inner u
      else
        match u.core with
        | node m [v] => labelsAgree l m && same (node l' [inner]) v
        | _ => false
    | .call callee, [object] =>
      if callee.isTransparent then same object u
      else
        match u.core with
        | node m [v] => labelsAgree l m && same object v
        | _ => false
    | .binary op, [a, b] =>
      match u.core.binary? with
      | some (op', c, d) =>
        !op.isAssignment && !op'.isAssignment
          && ((op = op' && same a c && same b d) || (agreeSwapped op op' && same a d && same b c))
      | none => false
    | .literal _, _ => leavesAgree (node l ts) u.core
    | .identifier _ _, _ => leavesAgree (node l ts) u.core
    | _, ts => labelsAgree l u.core.label && sameAll ts u.core.operands

/-- Whether two lists of expressions are the same one by one. -/
def sameAll : List Tree → List Tree → Bool
  | [], [] => true
  | t :: ts, u :: us => same t u && sameAll ts us
  | _, _ => false

end

end Tree

end ConditionLint
