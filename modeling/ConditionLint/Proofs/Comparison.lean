import ConditionLint.Condition.Comparison
import ConditionLint.Proofs.Likeness
import ConditionLint.Proofs.SamplePoints

/-!
# Comparisons say what the conditions say

A pure condition that is read as a comparison is true exactly when its base passes the test. Leading
negations are collected in the test, a constant on the left turns the order around, and a condition
without a constant is compared with zero.
-/

namespace ConditionLint

/-- What a value must satisfy to pass an integer test. -/
theorem Test.meaning_ofInt (o : Order) (v : ℤ) (negated : Bool) :
    (Test.ofInt o v negated).meaning = ⟨if negated then o.negate else o, .int v⟩ := by
  cases negated <;> rfl

/-- The order of a test under its negation. -/
theorem Order.holds_ite_negate {α : Type} [LinearOrder α] (o : Order) (negated : Bool) (x y : α) :
    (if negated then o.negate else o).holds x y = (o.holds x y != negated) := by
  cases negated <;> simp

namespace Tree

/-- A constant operand is unusable, or the integer that it spells, or a floating literal. -/
theorem constant?_cases {t : Tree} {c : Constant} (hc : t.constant? = some c) :
    c = .unusable ∨ (∃ v text isChar, c = .numeric (.int v) text isChar ∧ t.spelledValue? = some v) ∨
      ∃ v text, t.kind = .literal (.float v text) := by
  obtain ⟨spelled, hspelled, rfl⟩ := Option.map_eq_some_iff.mp hc
  split
  · exact Or.inl rfl
  · unfold spelledConstant? at hspelled
    split at hspelled
    · next v text hkind =>
      obtain rfl := Option.some.inj hspelled
      exact Or.inr (Or.inl ⟨v, text, false, rfl, by simp [spelledValue?, hkind, Literal.int?]⟩)
    · next v text hkind =>
      obtain rfl := Option.some.inj hspelled
      exact Or.inr (Or.inl ⟨v, text, true, rfl, by simp [spelledValue?, hkind, Literal.int?]⟩)
    · next v text hkind => exact Or.inr (Or.inr ⟨v, text, hkind⟩)
    · exact Or.inl (Option.some.inj hspelled).symm
    · next v hkind =>
      obtain rfl := Option.some.inj hspelled
      exact Or.inr (Or.inl ⟨v, _, false, rfl, by simp [spelledValue?, hkind]⟩)
    · contradiction

/-- A pure constant operand is unusable or an integer. -/
theorem Pure.constant_cases {p : Tree → Bool} {t : Tree} (h : t.Pure p) {c : Constant}
    (hc : t.constant? = some c) :
    c = .unusable ∨ ∃ v text isChar, c = .numeric (.int v) text isChar ∧ t.spelledValue? = some v := by
  rcases constant?_cases hc with hunusable | hinteger | ⟨v, text, hkind⟩
  · exact Or.inl hunusable
  · exact Or.inr hinteger
  · simpa [Literal.int?] using h.literal_int? hkind

/-- The operands of a pure binary node are pure. -/
theorem Pure.of_binary {p : Tree → Bool} {l : Label} {a b : Tree} (h : (node l [a, b]).Pure p) :
    a.Pure p ∧ b.Pure p := by
  cases h with
  | binary _ _ _ ha hb => exact ⟨ha, hb⟩

end Tree

namespace Comparison

open ConditionLint.Tree

/-- A comparison reads a condition under some negations: its base is pure, and the condition has the truth
value that the test gives the base. -/
def Reads (α : Type) [Ring α] [LinearOrder α] (p : Tree → Bool) (t : Tree) (negated : Bool)
    (c : Comparison) : Prop :=
  c.base.Pure p ∧ ∃ o v n, c.test = Test.ofInt o v n ∧
    ∀ V : Valuation α, (V.isTrue t != negated) = (o.holds (V.eval c.base) (v : α) != n)

variable {α : Type} [Ring α] [LinearOrder α] {p : Tree → Bool} {c : Comparison}

/-- A condition that compares with nothing is compared with zero. -/
theorem reads_truthTest {t : Tree} (ht : t.Pure p) (negated : Bool) :
    Reads α p t negated (truthTest t negated) := by
  refine ⟨ht, .ne, 0, negated, rfl, fun V => ?_⟩
  simp [Valuation.isTrue, Order.holds, truthTest]

variable [Nontrivial α]

/-- A comparison with a constant operand is read as a test of the other operand. -/
theorem reads_compareWith {l : Label} {o : Order} {a b t : Tree} (ht : t = node l [a, b])
    (hkind : l.kind = .binary (.compare o)) (hpure : t.Pure p) {constant : Constant}
    {negated : Bool}
    (h : (a.constant? = some constant ∧ compareWith b o.swap negated constant = some c) ∨
      (b.constant? = some constant ∧ compareWith a o negated constant = some c)) :
    Reads α p t negated c := by
  subst ht
  obtain ⟨ha, hb⟩ := hpure.of_binary
  rcases h with ⟨hconstant, h⟩ | ⟨hconstant, h⟩
  · rcases ha.constant_cases hconstant with rfl | ⟨v, text, isChar, rfl, hv⟩
    · contradiction
    · obtain rfl := Option.some.inj h
      refine ⟨hb, o.swap, v, negated, rfl, fun V => ?_⟩
      rw [V.isTrue_compare hkind, V.eval_of_spelledValue? hv, Order.holds_swap]
  · rcases hb.constant_cases hconstant with rfl | ⟨v, text, isChar, rfl, hv⟩
    · contradiction
    · obtain rfl := Option.some.inj h
      refine ⟨ha, o, v, negated, rfl, fun V => ?_⟩
      rw [V.isTrue_compare hkind, V.eval_of_spelledValue? hv]

/-- A condition without a negation in front is read faithfully. -/
theorem reads_readBare {t : Tree} (ht : t.Pure p) {negated : Bool}
    (h : t.readBare negated = some c) : Reads α p t negated c := by
  unfold readBare at h
  split at h
  · next o a b hcomparison =>
    obtain ⟨l, hnode, hkind⟩ := eq_node_of_comparison? hcomparison
    split at h
    · next hconstant => exact reads_compareWith hnode hkind ht (Or.inl ⟨hconstant, h⟩)
    · next hconstant => exact reads_compareWith hnode hkind ht (Or.inr ⟨hconstant, h⟩)
    · obtain rfl := Option.some.inj h
      exact reads_truthTest ht negated
  · obtain rfl := Option.some.inj h
    exact reads_truthTest ht negated

/-- A condition is read faithfully, each leading negation turning the truth value around. -/
theorem reads_readNegated {t : Tree} (ht : t.Pure p) {negated : Bool}
    (h : t.readNegated negated = some c) : Reads α p t negated c := by
  induction ht generalizing negated with
  | @unary l op t hnode hkind hop ht ih =>
    by_cases hnot : op = .not
    · subst hnot
      rw [readNegated.eq_def] at h
      simp only [hkind] at h
      obtain ⟨hbase, o, v, n, htest, htruth⟩ := ih h
      refine ⟨hbase, o, v, n, htest, fun V => ?_⟩
      rw [V.isTrue_not hkind, ← htruth V]
      cases V.isTrue t <;> cases negated <;> rfl
    · refine reads_readBare (.unary hnode hkind hop ht) ?_
      simpa [readNegated, hkind, hnot] using h
  | literal hnode hkind hvalue =>
    exact reads_readBare (.literal hnode hkind hvalue) (by simpa [readNegated, hkind] using h)
  | enumerator hnode hkind hreferent =>
    exact reads_readBare (.enumerator hnode hkind hreferent) (by simpa [readNegated, hkind] using h)
  | reference hnode hkind hreferent =>
    exact reads_readBare (.reference hnode hkind hreferent) (by simpa [readNegated, hkind] using h)
  | binary hnode hkind hop ha hb =>
    exact reads_readBare (.binary hnode hkind hop ha hb) (by simpa [readNegated, hkind] using h)
  | ternary hnode hkind hc ha hb =>
    exact reads_readBare (.ternary hnode hkind hc ha hb) (by simpa [readNegated, hkind] using h)

/-- A condition is true exactly when the value of its base satisfies the relation that it is read as. -/
theorem isTrue_eq_holds_meaning {t : Tree} (ht : t.Pure p) (h : t.comparisonOf? = some c) :
    c.base.Pure p ∧ ∃ o v, c.meaning = ⟨o, .int v⟩ ∧
      ∀ V : Valuation α, V.isTrue t = o.holds (V.eval c.base) (v : α) := by
  obtain ⟨hbase, o, v, n, htest, htruth⟩ := reads_readNegated (α := α) ht h
  refine ⟨hbase, if n then o.negate else o, v, ?_, fun V => ?_⟩
  · rw [meaning, htest, Test.meaning_ofInt]
  · rw [Order.holds_ite_negate, ← htruth V, Bool.bne_false]

end Comparison

end ConditionLint
