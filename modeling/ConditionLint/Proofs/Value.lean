import ConditionLint.Tree.Traits
import Mathlib.Algebra.Order.Ring.Int

/-!
# Values of expressions

A valuation gives each variable a number and each operator a function; under it an expression has a
value. Constants stand for themselves, `!`, comparisons and connectives yield zero or one, a comma yields
its second operand, and a condition is true when it is not zero. What the remaining operators compute is
left open, except that commutative ones do not depend on the order of their operands.

Numbers are those of any ordered ring, so that conditions on integers and on rationals have one meaning.
Pure expressions are those made of constants, variables and operators without effect.
-/

namespace ConditionLint

/-- Whether the operator computes a value and does nothing else. -/
def UnaryOp.isPure : UnaryOp → Bool
  | not => true
  | neg => true
  | plus => true
  | bitNot => true
  | _ => false

/-- Whether the operator computes a value from those of both operands and does nothing else. -/
def BinaryOp.isPure : BinaryOp → Bool
  | arith _ => true
  | compare _ => true
  | logic _ => true
  | comma => true
  | _ => false

/-- What variables and operators stand for. -/
structure Valuation (α : Type) where
  var : VarId → α
  unary : UnaryOp → α → α
  arith : ArithOp → α → α → α
  arith_comm : ∀ (op : ArithOp) (x y : α), op.isCommutative = true → arith op x y = arith op y x
  /-- The value of an expression that is not taken apart, such as a call. -/
  other : Tree → α

/-- The valuation under which every variable has one value, and every other expression is zero. -/
def Valuation.constant {α : Type} [Zero α] (q : α) : Valuation α where
  var _ := q
  unary _ _ := 0
  arith _ _ _ := 0
  arith_comm _ _ _ _ := rfl
  other _ := 0

/-- A truth value as a number. -/
def ofTruth {α : Type} [Zero α] [One α] (b : Bool) : α := if b then 1 else 0

namespace Valuation

open ConditionLint.Tree

variable {α : Type} [Ring α] [LinearOrder α]

/-- The value of an expression. -/
def eval (V : Valuation α) : Tree → α
  | node l ts =>
    match l.kind, ts with
    | .literal v, _ => (v.int?.map Int.cast).getD (V.other (node l ts))
    | .identifier _ (some v), _ => Int.cast v
    | .identifier _ none, _ => (l.referent.map fun x => V.var x.id).getD (V.other (node l ts))
    | .unary .not, [t] => ofTruth (eval V t == 0)
    | .unary .neg, [t] => V.unary .neg (eval V t)
    | .unary .plus, [t] => V.unary .plus (eval V t)
    | .unary .bitNot, [t] => V.unary .bitNot (eval V t)
    | .binary (.arith op), [a, b] => V.arith op (eval V a) (eval V b)
    | .binary (.compare o), [a, b] => ofTruth (o.holds (eval V a) (eval V b))
    | .binary (.logic c), [a, b] => ofTruth (c.eval (eval V a != 0) (eval V b != 0))
    | .binary .comma, [_, b] => eval V b
    | .ternary, [c, a, b] => if eval V c != 0 then eval V a else eval V b
    | _, _ => V.other (node l ts)

/-- Whether a condition is true. -/
def isTrue (V : Valuation α) (t : Tree) : Bool := V.eval t != 0

variable (V : Valuation α) {l : Label}

attribute [local simp] eval

/-- A constant has the value that it spells. -/
theorem eval_of_spelledValue? {t : Tree} {v : Int} (h : t.spelledValue? = some v) : V.eval t = v := by
  obtain ⟨l, ts⟩ := t
  simp only [spelledValue?, kind, label] at h
  split at h
  · next literal hkind => simp [hkind, h]
  · next name enumerator hkind =>
    subst h
    rw [eval.eq_def]
    simp only [hkind]
  · contradiction

/-- The value of an integer or character literal is the number that it spells. -/
theorem eval_of_spelledNumber? {t : Tree} {v : Int} (h : t.spelledNumber? = some v) : V.eval t = v := by
  apply V.eval_of_spelledValue?
  unfold spelledNumber? at h
  split at h <;> simp_all [spelledValue?, Literal.int?]

/-- A variable has the value that the valuation gives it. -/
theorem eval_variable {name : String} {x : Variable} {ts : List Tree}
    (hkind : l.kind = .identifier name none) (hreferent : l.referent = some x) :
    V.eval (node l ts) = V.var x.id := by
  simp [hkind, hreferent]

/-- An arithmetic operation is the function that the valuation gives it. -/
theorem eval_arith {op : ArithOp} {a b : Tree} (hkind : l.kind = .binary (.arith op)) :
    V.eval (node l [a, b]) = V.arith op (V.eval a) (V.eval b) := by
  simp [hkind]

/-- A comparison yields whether it holds. -/
theorem eval_compare {o : Order} {a b : Tree} (hkind : l.kind = .binary (.compare o)) :
    V.eval (node l [a, b]) = ofTruth (o.holds (V.eval a) (V.eval b)) := by
  simp [hkind]

/-- A connective yields the joined truth of its operands. -/
theorem eval_logic {c : Connective} {a b : Tree} (hkind : l.kind = .binary (.logic c)) :
    V.eval (node l [a, b]) = ofTruth (c.eval (V.isTrue a) (V.isTrue b)) := by
  simp [hkind, isTrue]

/-- A comma is true when its second operand is. -/
theorem isTrue_comma {a b : Tree} (hkind : l.kind = .binary .comma) :
    V.isTrue (node l [a, b]) = V.isTrue b := by
  simp [isTrue, hkind]

/-- A conditional expression is true when the operand that its condition selects is. -/
theorem isTrue_ternary {c a b : Tree} (hkind : l.kind = .ternary) :
    V.isTrue (node l [c, a, b]) = if V.isTrue c then V.isTrue a else V.isTrue b := by
  by_cases hc : V.eval c = 0 <;> simp [isTrue, hkind, hc]

section Truth

variable [Nontrivial α]

/-- A negation is true when its operand is not. -/
theorem isTrue_not {t : Tree} (hkind : l.kind = .unary .not) :
    V.isTrue (node l [t]) = !V.isTrue t := by
  by_cases h : V.eval t = 0 <;> simp [isTrue, hkind, ofTruth, h]

/-- A comparison is true when it holds of the values of its sides. -/
theorem isTrue_compare {o : Order} {a b : Tree} (hkind : l.kind = .binary (.compare o)) :
    V.isTrue (node l [a, b]) = o.holds (V.eval a) (V.eval b) := by
  rw [isTrue, V.eval_compare hkind]
  cases o.holds (V.eval a) (V.eval b) <;> simp [ofTruth]

/-- A connective joins the truth of its operands. -/
theorem isTrue_logic {c : Connective} {a b : Tree} (hkind : l.kind = .binary (.logic c)) :
    V.isTrue (node l [a, b]) = c.eval (V.isTrue a) (V.isTrue b) := by
  rw [isTrue, V.eval_logic hkind]
  cases c.eval (V.isTrue a) (V.isTrue b) <;> simp [ofTruth]

end Truth

end Valuation

namespace Tree

/-- Induction over a tree, with the statement for all operands at hand. -/
theorem induction_operands {P : Tree → Prop}
    (step : ∀ l ts, (∀ t ∈ ts, P t) → P (node l ts)) : ∀ t : Tree, P t
  | node l ts => step l ts (all ts)
where
  /-- The statement for several trees. -/
  all : ∀ ts : List Tree, ∀ t ∈ ts, P t
    | [] => fun _ h => absurd h List.not_mem_nil
    | u :: us => fun t h =>
      (List.mem_cons.mp h).elim (fun heq => heq ▸ induction_operands step u) (all us t)

/-- A binary node is made of its operator and its two operands. -/
theorem eq_node_of_binary? {t : Tree} {op : BinaryOp} {a b : Tree} (h : t.binary? = some (op, a, b)) :
    ∃ l, t = node l [a, b] ∧ l.kind = .binary op := by
  unfold binary? at h
  split at h
  · next l lhs rhs =>
    split at h
    · next hkind =>
      simp only [Option.some.injEq, Prod.mk.injEq] at h
      obtain ⟨rfl, rfl, rfl⟩ := h
      exact ⟨l, rfl, hkind⟩
    · contradiction
  · contradiction

/-- A comparison is made of its two sides. -/
theorem eq_node_of_comparison? {t : Tree} {o : Order} {a b : Tree} (h : t.comparison? = some (o, a, b)) :
    ∃ l, t = node l [a, b] ∧ l.kind = .binary (.compare o) := by
  unfold comparison? at h
  split at h
  · next hbinary =>
    simp only [Option.some.injEq, Prod.mk.injEq] at h
    obtain ⟨rfl, rfl, rfl⟩ := h
    exact eq_node_of_binary? hbinary
  · contradiction

/-- A negation is made of its operand. -/
theorem eq_node_of_negated? {t inner : Tree} (h : t.negated? = some inner) :
    ∃ l, t = node l [inner] ∧ l.kind = .unary .not := by
  unfold negated? at h
  split at h
  · next l operand =>
    split at h
    · next hkind =>
      obtain rfl := Option.some.inj h
      exact ⟨l, rfl, hkind⟩
    · contradiction
  · contradiction

/-- Whether the tree negates a negation. -/
def isDoubleNegation (t : Tree) : Bool := t.negated?.any isNot

/-- Expressions made of constants, variables and operators without effect, all of whose nodes satisfy a
condition. -/
inductive Pure (p : Tree → Bool) : Tree → Prop where
  | literal {l : Label} {v : Literal} {i : Int} (hnode : p (node l []) = true)
      (hkind : l.kind = .literal v) (hvalue : v.int? = some i) : Pure p (node l [])
  | enumerator {l : Label} {name : String} {i : Int} (hnode : p (node l []) = true)
      (hkind : l.kind = .identifier name (some i)) (hreferent : l.referent = none) : Pure p (node l [])
  | reference {l : Label} {name : String} {x : Variable} (hnode : p (node l []) = true)
      (hkind : l.kind = .identifier name none) (hreferent : l.referent = some x) : Pure p (node l [])
  | unary {l : Label} {op : UnaryOp} {t : Tree} (hnode : p (node l [t]) = true)
      (hkind : l.kind = .unary op) (hop : op.isPure = true) (ht : Pure p t) : Pure p (node l [t])
  | binary {l : Label} {op : BinaryOp} {a b : Tree} (hnode : p (node l [a, b]) = true)
      (hkind : l.kind = .binary op) (hop : op.isPure = true) (ha : Pure p a) (hb : Pure p b) :
      Pure p (node l [a, b])
  | ternary {l : Label} {c a b : Tree} (hnode : p (node l [c, a, b]) = true)
      (hkind : l.kind = .ternary) (hc : Pure p c) (ha : Pure p a) (hb : Pure p b) :
      Pure p (node l [c, a, b])

/-- Decide whether an expression is pure. -/
def isPure (p : Tree → Bool) : Tree → Bool
  | node l ts =>
    p (node l ts) &&
      match l.kind, ts with
      | .literal v, [] => v.int?.isSome
      | .identifier _ (some _), [] => l.referent.isNone
      | .identifier _ none, [] => l.referent.isSome
      | .unary op, [t] => op.isPure && isPure p t
      | .binary op, [a, b] => op.isPure && isPure p a && isPure p b
      | .ternary, [c, a, b] => isPure p c && isPure p a && isPure p b
      | _, _ => false

/-- The decision is right when it accepts. -/
theorem pure_of_isPure {p : Tree → Bool} {t : Tree} (h : t.isPure p = true) : t.Pure p := by
  induction t using induction_operands with
  | step l ts ih =>
    rw [isPure.eq_def, Bool.and_eq_true] at h
    obtain ⟨hnode, h⟩ := h
    split at h
    · next v hkind =>
      obtain ⟨i, hi⟩ := Option.isSome_iff_exists.mp h
      exact .literal hnode hkind hi
    · next name i hkind => exact .enumerator hnode hkind (Option.isNone_iff_eq_none.mp h)
    · next name hkind =>
      obtain ⟨x, hx⟩ := Option.isSome_iff_exists.mp h
      exact .reference hnode hkind hx
    · next op t hkind =>
      rw [Bool.and_eq_true] at h
      exact .unary hnode hkind h.1 (ih t (by simp) h.2)
    · next op a b hkind =>
      simp only [Bool.and_eq_true] at h
      exact .binary hnode hkind h.1.1 (ih a (by simp) h.1.2) (ih b (by simp) h.2)
    · next c a b hkind =>
      simp only [Bool.and_eq_true] at h
      exact .ternary hnode hkind (ih c (by simp) h.1.1) (ih a (by simp) h.1.2) (ih b (by simp) h.2)
    · contradiction

/-- The decision accepts every pure expression. -/
theorem isPure_of_pure {p : Tree → Bool} {t : Tree} (h : t.Pure p) : t.isPure p = true := by
  induction h with
  | literal hnode hkind hvalue => simp [isPure, hnode, hkind, hvalue]
  | enumerator hnode hkind hreferent =>
    rw [isPure.eq_def]
    simp [hnode, hkind, hreferent]
  | reference hnode hkind hreferent => simp [isPure, hnode, hkind, hreferent]
  | unary hnode hkind hop _ ih => simp [isPure, hnode, hkind, hop, ih]
  | binary hnode hkind hop _ _ iha ihb => simp [isPure, hnode, hkind, hop, iha, ihb]
  | ternary hnode hkind _ _ _ ihc iha ihb => simp [isPure, hnode, hkind, ihc, iha, ihb]

instance (p : Tree → Bool) (t : Tree) : Decidable (t.Pure p) :=
  decidable_of_iff (t.isPure p = true) ⟨pure_of_isPure, isPure_of_pure⟩

/-- The nodes of a pure expression satisfy the condition, the topmost one first of all. -/
theorem Pure.node_holds {p : Tree → Bool} {t : Tree} (h : t.Pure p) : p t = true := by
  cases h <;> assumption

/-- Whether the node is of integer type and does not double a negation. -/
def isPlainInteger (t : Tree) : Bool := t.hasType CType.isIntegral && !t.isDoubleNegation

/-- A node that stands by itself in the source. -/
def plain (id : NodeId) (kind : Kind) (ctype : CType) (referent : Option Variable) (ts : List Tree) : Tree :=
  node { id := id, kind := kind, location := ⟨"", 1, id⟩, ctype := some ctype, referent := referent } ts

/-- A node that refers to a variable. -/
def ofVariable (id : NodeId) (x : Variable) : Tree :=
  plain id (.identifier x.name none) x.ctype (some x) []

/-- An integer literal. -/
def ofInt (id : NodeId) (v : Int) : Tree := plain id (.literal (.int v (toString v))) .int none []

/-- A comparison or a connective. -/
def ofOperator (id : NodeId) (op : BinaryOp) (lhs rhs : Tree) : Tree :=
  plain id (.binary op) .bool none [lhs, rhs]

end Tree

end ConditionLint
