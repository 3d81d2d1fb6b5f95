import ConditionLint.Proofs.VerdictOrder

/-!
# Conditions are read for what they mean

Reading a condition as a comparison with a constant takes leading negations off one by one, turns the order around
where the constant stands on the left, and compares with zero where there is no constant. Whatever values expressions
have, the condition is true exactly when the value of the base passes the test. The test can be taken in two ways, as
a relation whose outcome is turned around by a negation or as the relation that the negation leaves. Both agree.
-/

namespace ConditionLint

open ConditionLint.Tree

/-- An assignment of integers to expressions under which constants have the value that they spell, and negations and
comparisons yield zero or one. Nothing is assumed about other expressions. -/
structure Interprets (value : Tree → ℤ) : Prop where
  constant {t : Tree} {v : ℤ} (h : t.spelledValue? = some v) : value t = v
  negation {l : Label} {t : Tree} {ts : List Tree} (h : l.kind = .unary .not) :
    value (node l (t :: ts)) = ofTruth (value t == 0)
  comparison {t a b : Tree} {o : Order} (h : t.comparison? = some (o, a, b)) :
    value t = ofTruth (o.holds (value a) (value b))

namespace Tree

/-- The values of all expressions, given those of the expressions that are no constant, negation or comparison. -/
def valueWith (atom : Tree → ℤ) : Tree → ℤ
  | node l ts =>
    match l.kind, ts with
    | .unary .not, t :: _ => ofTruth (valueWith atom t == 0)
    | .binary (.compare o), [a, b] => ofTruth (o.holds (valueWith atom a) (valueWith atom b))
    | _, _ => (node l ts).spelledValue?.getD (atom (node l ts))

/-- However the values of the other expressions are chosen, they extend to all expressions. -/
theorem interprets_valueWith (atom : Tree → ℤ) : Interprets (valueWith atom) where
  constant {t v} h := by
    obtain ⟨l, ts⟩ := t
    rw [valueWith.eq_def]
    dsimp only
    split
    · next hkind => simp [spelledValue?, kind, label, hkind] at h
    · next hkind => simp [spelledValue?, kind, label, hkind] at h
    · rw [h, Option.getD_some]
  negation {l t ts} h := by
    rw [valueWith.eq_def]
    simp only [h]
  comparison {t a b o} h := by
    obtain ⟨l, rfl, hkind⟩ := eq_node_of_comparison? h
    rw [valueWith.eq_def]
    simp only [hkind]

end Tree

/-- The truth of an integer test is that of the relation which its negation leaves. -/
theorem Test.holdsAt_meaning_ofInt (o : Order) (v x : ℤ) (negated : Bool) :
    (Test.ofInt o v negated).meaning.holdsAt (.int x) = (Test.ofInt o v negated).isTrueAt (.int x) := by
  rw [Test.meaning_ofInt, Test.isTrueAt_ofInt]
  exact Order.holds_ite_negate o negated x v

namespace Comparison

variable {value : Tree → ℤ} {t : Tree} {negated : Bool} {c : Comparison}

/-- The comparison is an integer test, and its base passes it exactly when the condition is true under the negations. -/
def Tells (value : Tree → ℤ) (t : Tree) (negated : Bool) (c : Comparison) : Prop :=
  ∃ o v n, c.test = Test.ofInt o v n ∧ (o.holds (value c.base) v != n) = ((value t != 0) != negated)

/-- The test for truth tells about the condition itself. -/
theorem tells_truthTest (value : Tree → ℤ) (t : Tree) (negated : Bool) :
    Tells value t negated (truthTest t negated) :=
  ⟨.ne, 0, negated, rfl, rfl⟩

/-- A truth value as a number is true when it is. -/
theorem ofTruth_ne_zero (b : Bool) : ((ofTruth b : ℤ) != 0) = b := by
  cases b <;> rfl

variable (hvalue : Interprets value)
include hvalue

/-- A comparison with a constant tells about its other side, with the order turned around if that is the right one. -/
theorem tells_compareWith {o : Order} {a b : Tree} (ht : t.comparison? = some (o, a, b)) {constant : Constant}
    (h : (a.label.NotFloat ∧ a.constant? = some constant ∧ compareWith b o.swap negated constant = some c) ∨
      (b.label.NotFloat ∧ b.constant? = some constant ∧ compareWith a o negated constant = some c)) :
    Tells value t negated c := by
  have htruth : (value t != 0) = o.holds (value a) (value b) := by
    rw [hvalue.comparison ht, ofTruth_ne_zero]
  rcases h with ⟨hfloat, hconstant, h⟩ | ⟨hfloat, hconstant, h⟩
  · rcases constant?_of_notFloat hfloat hconstant with rfl | ⟨v, text, isChar, rfl, hv⟩
    · contradiction
    · obtain rfl := Option.some.inj h
      refine ⟨o.swap, v, negated, rfl, ?_⟩
      rw [htruth, hvalue.constant hv, Order.holds_swap]
  · rcases constant?_of_notFloat hfloat hconstant with rfl | ⟨v, text, isChar, rfl, hv⟩
    · contradiction
    · obtain rfl := Option.some.inj h
      refine ⟨o, v, negated, rfl, ?_⟩
      rw [htruth, hvalue.constant hv]

/-- What a condition without negations is read as tells about it. -/
theorem tells_readBare (ht : t.Everywhere Label.NotFloat) (h : t.readBare negated = some c) :
    Tells value t negated c := by
  unfold readBare at h
  split at h
  · next o a b hcomparison =>
    obtain ⟨l, rfl, -⟩ := eq_node_of_comparison? hcomparison
    have ha : a.label.NotFloat := (ht.operand (by simp [operands])).label
    have hb : b.label.NotFloat := (ht.operand (by simp [operands])).label
    split at h
    · next hleft => exact tells_compareWith hvalue hcomparison (Or.inl ⟨ha, hleft, h⟩)
    · next hright => exact tells_compareWith hvalue hcomparison (Or.inr ⟨hb, hright, h⟩)
    · exact Option.some.inj h ▸ tells_truthTest value _ negated
  · exact Option.some.inj h ▸ tells_truthTest value _ negated

/-- Each negation that is taken off turns the truth of the condition around. -/
theorem tells_readNegated (ht : t.Everywhere Label.NotFloat) (h : t.readNegated negated = some c) :
    Tells value t negated c := by
  fun_induction readNegated t negated with
  | case1 l negated t ts hkind ih =>
    obtain ⟨o, v, n, htest, htells⟩ := ih (ht.operand List.mem_cons_self) h
    refine ⟨o, v, n, htest, htells.trans ?_⟩
    have hturned : (value t == 0) = !(value t != 0) := by rw [bne, Bool.not_not]
    rw [hvalue.negation hkind, ofTruth_ne_zero, hturned]
    cases value t != 0 <;> cases negated <;> rfl
  | case2 => contradiction
  | case3 negated l ts _ _ => exact tells_readBare hvalue ht h

end Comparison

/-- A condition without floating literals is true exactly when the value of its base passes the test that it is read as,
and exactly when that value satisfies the relation which the negations leave. -/
theorem comparison_tells_truth {t : Tree} (ht : t.Everywhere Label.NotFloat) {c : Comparison}
    (h : t.comparisonOf? = some c) {value : Tree → ℤ} (hvalue : Interprets value) :
    (value t ≠ 0 ↔ c.isTrueAt (.int (value c.base)) = true) ∧
      (value t ≠ 0 ↔ c.meaning.holdsAt (.int (value c.base)) = true) := by
  obtain ⟨o, v, n, htest, htells⟩ := Comparison.tells_readNegated hvalue ht h
  have htrue : c.isTrueAt (.int (value c.base)) = (value t != 0) := by
    rw [Comparison.isTrueAt, htest, Test.isTrueAt_ofInt, htells, Bool.bne_false]
  have hholds : c.meaning.holdsAt (.int (value c.base)) = (value t != 0) := by
    rw [Comparison.meaning, htest, Test.holdsAt_meaning_ofInt, ← htest]
    exact htrue
  rw [htrue, hholds, bne_iff_ne]
  exact ⟨Iff.rfl, Iff.rfl⟩

/-- `!!!(5 < x)` -/
def triplyNegated : Tree :=
  .plain 0 (.unary .not) .bool none [.plain 1 (.unary .not) .bool none [.plain 2 (.unary .not) .bool none
    [.ofOperator 3 (.compare .lt) (.ofInt 4 5) (.ofVariable 5 ⟨0, "x", .int, {}⟩)]]]

/-- It is read as `x > 5` under a negation, which leaves `x <= 5`. With six for `x` it is false. -/
theorem comparison_tells_truth_triplyNegated :
    ∃ c, triplyNegated.comparisonOf? = some c ∧ c.test = ⟨⟨.gt, .int 5⟩, true⟩ ∧ c.meaning = ⟨.le, .int 5⟩ ∧
      Interprets (valueWith fun _ => 6) ∧ valueWith (fun _ => 6) c.base = 6 ∧
      valueWith (fun _ => 6) triplyNegated = 0 := by
  have hfloat : triplyNegated.Everywhere Label.NotFloat := by
    simp [triplyNegated, Tree.plain, Tree.ofOperator, Tree.ofInt, Tree.ofVariable, everywhere_node_iff,
      Label.NotFloat]
  have hread : triplyNegated.comparisonOf? = some _ := rfl
  have htruth := (comparison_tells_truth hfloat hread (interprets_valueWith fun _ => 6)).2
  refine ⟨_, hread, rfl, rfl, interprets_valueWith _, rfl, ?_⟩
  exact not_not.mp (mt htruth.mp (by decide))

end ConditionLint
