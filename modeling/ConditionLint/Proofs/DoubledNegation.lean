import ConditionLint.Condition.Likeness
import ConditionLint.Proofs.Value

/-!
# Doubled negations

`!!e` is true exactly when `e` is, but its value is zero or one. So an expression keeps its truth when its
doubled negations are dropped where only truth counts: as a condition, and under `!`, `&&`, `||` and the
conditional operator. Likeness drops them everywhere, at the top of an expression by `core`.
-/

namespace ConditionLint

namespace Tree

mutual

/-- The expression without its doubled negations. -/
def undoubled : Tree → Tree
  | node l ts =>
    match l.kind, ts with
    | .unary .not, [node l' [inner]] =>
      if l'.kind = .unary .not then undoubled inner else node l [undoubled (node l' [inner])]
    | _, ts => node l (undoubledAll ts)

/-- Several expressions without their doubled negations. -/
def undoubledAll : List Tree → List Tree
  | [] => []
  | t :: ts => undoubled t :: undoubledAll ts

end

/-- Whether the node does not negate a negation. -/
def isSingle (t : Tree) : Bool := !t.isDoubleNegation

/-- Whether doubled negations stand only where the truth of an expression counts, not its value. -/
def doublesTruthOnly : Tree → Bool
  | node l ts =>
    match l.kind, ts with
    | .unary .not, [t] => doublesTruthOnly t
    | .binary (.logic _), [a, b] => doublesTruthOnly a && doublesTruthOnly b
    | .binary .comma, [_, b] => doublesTruthOnly b
    | .ternary, [c, a, b] => doublesTruthOnly c && doublesTruthOnly a && doublesTruthOnly b
    | _, _ => isPure isSingle (node l ts)

/-- Induction over a tree, with the statement for all operands and for their operands at hand. -/
theorem induction_two_levels {P : Tree → Prop}
    (step : ∀ l ts, (∀ t ∈ ts, P t ∧ ∀ s ∈ t.operands, P s) → P (node l ts)) (t : Tree) : P t := by
  have hboth : P t ∧ ∀ s ∈ t.operands, P s := by
    induction t using induction_operands with
    | step l ts ih => exact ⟨step l ts ih, fun s hs => (ih s hs).1⟩
  exact hboth.1

variable {p : Tree → Bool} {l : Label}

/-- A pure unary node negates no negation, or it doubles the negation of a pure expression. -/
theorem Pure.single_or_doubled {t : Tree} (h : (node l [t]).Pure p) :
    (node l [t]).isDoubleNegation = false ∨
      ∃ l' inner, t = node l' [inner] ∧ l.kind = .unary .not ∧ l'.kind = .unary .not ∧ inner.Pure p := by
  cases hdouble : (node l [t]).isDoubleNegation with
  | false => exact Or.inl rfl
  | true =>
    have hnot : l.kind = .unary .not ∧ t.kind = .unary .not := by
      by_cases hkind : l.kind = .unary .not
      · simpa [isDoubleNegation, negated?, hkind, isNot, isUnary] using hdouble
      · simp [isDoubleNegation, negated?, hkind] at hdouble
    cases h with
    | unary _ _ _ ht =>
      cases ht with
      | @unary l' _ inner _ _ _ hinner => exact Or.inr ⟨l', inner, rfl, hnot.1, hnot.2, hinner⟩
      | literal _ hkind _ => simp [kind, label, hkind] at hnot
      | enumerator _ hkind _ => simp [kind, label, hkind] at hnot
      | reference _ hkind _ => simp [kind, label, hkind] at hnot
      | binary _ hkind _ _ _ => simp [kind, label, hkind] at hnot
      | ternary _ hkind _ _ _ => simp [kind, label, hkind] at hnot

/-- The operand of a negation that is not doubled is no negation. -/
theorem kind_ne_not_of_single {l' : Label} {ts : List Tree} (hkind : l.kind = .unary .not)
    (hsingle : (node l [node l' ts]).isDoubleNegation = false) : l'.kind ≠ .unary .not := by
  intro hinner
  simp [isDoubleNegation, negated?, hkind, isNot, isUnary, kind, label, hinner] at hsingle

section Equations

variable {t a b c : Tree}

attribute [local simp] undoubled undoubledAll

/-- In a leaf there is nothing to drop. -/
@[simp] theorem undoubled_leaf : (node l []).undoubled = node l [] := by
  simp

/-- Two operands are undoubled one by one. -/
@[simp] theorem undoubled_pair : (node l [a, b]).undoubled = node l [a.undoubled, b.undoubled] := by
  simp

/-- So are three. -/
@[simp] theorem undoubled_triple :
    (node l [a, b, c]).undoubled = node l [a.undoubled, b.undoubled, c.undoubled] := by
  simp

/-- A doubled negation is dropped. -/
theorem undoubled_doubled {l' : Label} (hkind : l.kind = .unary .not) (hkind' : l'.kind = .unary .not) :
    (node l [node l' [t]]).undoubled = t.undoubled := by
  simp [hkind, hkind']

/-- Any other operator with one operand is kept. -/
theorem undoubled_single (h : (node l [t]).isDoubleNegation = false) :
    (node l [t]).undoubled = node l [t.undoubled] := by
  rw [undoubled.eq_def]
  simp only
  split
  · next l' inner hnot heq =>
    obtain rfl : t = node l' [inner] := List.singleton_inj.mp heq
    rw [if_neg (kind_ne_not_of_single hnot h)]
  · simp

end Equations

/-- Nothing is dropped from an expression without doubled negations. -/
theorem undoubled_eq_self (hp : ∀ s, p s = true → s.isDoubleNegation = false) {t : Tree} (h : t.Pure p) :
    t.undoubled = t := by
  induction h with
  | literal _ _ _ => exact undoubled_leaf
  | enumerator _ _ _ => exact undoubled_leaf
  | reference _ _ _ => exact undoubled_leaf
  | unary hnode _ _ _ ih => rw [undoubled_single (hp _ hnode), ih]
  | binary _ _ _ _ _ iha ihb => rw [undoubled_pair, iha, ihb]
  | ternary _ _ _ _ _ ihc iha ihb => rw [undoubled_triple, ihc, iha, ihb]

/-- Nothing is dropped from the top of an expression that is neither a call nor a doubled negation. -/
theorem core_eq_self {t : Tree} (hcall : t.callee? = none) (hsingle : t.isDoubleNegation = false) :
    t.core = t := by
  obtain ⟨l, ts⟩ := t
  rw [core.eq_def]
  simp only
  split
  · next l' inner hnot => rw [if_neg (kind_ne_not_of_single hnot hsingle)]
  · next callee object hkind => simp [callee?, kind, label, hkind] at hcall
  · rfl

/-- A pure expression is no call. -/
theorem Pure.callee?_eq_none {t : Tree} (h : t.Pure p) : t.callee? = none := by
  cases h <;> simp_all [callee?, kind, label]

/-- What is left of a pure expression at the top is pure, doubles no negation there, and is the same without
doubled negations. -/
theorem Pure.core_spec {t : Tree} (h : t.Pure p) :
    t.core.Pure p ∧ t.core.isDoubleNegation = false ∧ t.core.undoubled = t.undoubled := by
  have hself {t : Tree} (h : t.Pure p) (hsingle : t.isDoubleNegation = false) :
      t.core.Pure p ∧ t.core.isDoubleNegation = false ∧ t.core.undoubled = t.undoubled := by
    rw [core_eq_self h.callee?_eq_none hsingle]
    exact ⟨h, hsingle, rfl⟩
  induction t using induction_two_levels with
  | step l ts ih =>
    rcases ts with _ | ⟨t, _ | ⟨u, ts⟩⟩
    · exact hself h rfl
    · rcases h.single_or_doubled with hsingle | ⟨l', inner, rfl, hkind, hkind', hinner⟩
      · exact hself h hsingle
      · have hcore : (node l [node l' [inner]]).core = inner.core := by simp [core, hkind, hkind']
        rw [hcore, undoubled_doubled hkind hkind']
        exact (ih _ List.mem_cons_self).2 inner List.mem_cons_self hinner
    · exact hself h rfl

end Tree

namespace Valuation

open ConditionLint.Tree

variable {α : Type} [Ring α] [LinearOrder α] [Nontrivial α] (V : Valuation α) {p : Tree → Bool}

/-- An expression that doubles negations only where truth counts keeps its truth without them. -/
theorem isTrue_undoubled {t : Tree} (h : t.Pure p) (hdoubles : t.doublesTruthOnly = true) :
    V.isTrue t.undoubled = V.isTrue t := by
  -- Where the value counts, there is no doubled negation that could be dropped.
  have hself {t : Tree} (hpure : t.isPure isSingle = true) : V.isTrue t.undoubled = V.isTrue t := by
    rw [undoubled_eq_self (fun s hs => by simpa [isSingle] using hs) (pure_of_isPure hpure)]
  induction t using induction_two_levels with
  | step l ts ih =>
    cases h with
    | literal _ _ _ => rw [undoubled_leaf]
    | enumerator _ _ _ => rw [undoubled_leaf]
    | reference _ _ _ => rw [undoubled_leaf]
    | @unary _ op t hnode hkind hop ht =>
      by_cases hnot : op = .not
      · subst hnot
        have hoperand : t.doublesTruthOnly = true := by simpa [doublesTruthOnly, hkind] using hdoubles
        rcases (Pure.unary hnode hkind hop ht).single_or_doubled with
          hsingle | ⟨l', inner, rfl, -, hkind', hinner⟩
        · rw [undoubled_single hsingle, V.isTrue_not hkind, V.isTrue_not hkind,
            (ih t List.mem_cons_self).1 ht hoperand]
        · have hinnermost : inner.doublesTruthOnly = true := by
            simpa [doublesTruthOnly, hkind'] using hoperand
          rw [undoubled_doubled hkind hkind', V.isTrue_not hkind, V.isTrue_not hkind', Bool.not_not]
          exact (ih _ List.mem_cons_self).2 inner List.mem_cons_self hinner hinnermost
      · exact hself (by simpa [doublesTruthOnly, hkind, hnot] using hdoubles)
    | @binary _ op a b _ hkind hop ha hb =>
      have iha := (ih a (by simp)).1 ha
      have ihb := (ih b (by simp)).1 hb
      cases op with
      | logic c =>
        have hboth : a.doublesTruthOnly = true ∧ b.doublesTruthOnly = true := by
          simpa [doublesTruthOnly, hkind] using hdoubles
        rw [undoubled_pair, V.isTrue_logic hkind, V.isTrue_logic hkind, iha hboth.1, ihb hboth.2]
      | comma =>
        have hsecond : b.doublesTruthOnly = true := by simpa [doublesTruthOnly, hkind] using hdoubles
        rw [undoubled_pair, V.isTrue_comma hkind, V.isTrue_comma hkind, ihb hsecond]
      | arith op => exact hself (by simpa [doublesTruthOnly, hkind] using hdoubles)
      | compare o => exact hself (by simpa [doublesTruthOnly, hkind] using hdoubles)
      | assign => contradiction
      | update op => contradiction
    | @ternary _ c a b _ hkind hc ha hb =>
      have hall : (c.doublesTruthOnly = true ∧ a.doublesTruthOnly = true) ∧ b.doublesTruthOnly = true := by
        simpa [doublesTruthOnly, hkind] using hdoubles
      rw [undoubled_triple, V.isTrue_ternary hkind, V.isTrue_ternary hkind,
        (ih c (by simp)).1 hc hall.1.1, (ih a (by simp)).1 ha hall.1.2, (ih b (by simp)).1 hb hall.2]

end Valuation

end ConditionLint
