import ConditionLint.Finding.Wording
import ConditionLint.Proofs.Opposition
import ConditionLint.Proofs.Reports

/-!
# Constant conjunctions and disjunctions

A logical node is reported as constant for one of two reasons: its operands decide it, being exclusive or
opposite, or the sample points of two comparisons of one base do. Either way a conjunction is reported as
false and a disjunction as true, which is why a pair that is only the end of a longer chain may speak for
all of it. A report about integer operands is right whatever the variables stand for.
-/

namespace ConditionLint

open ConditionLint.Tree

namespace Connective

/-- The truth value that decides the connective: one false operand makes a conjunction false, one true
operand makes a disjunction true. -/
def decisive (c : Connective) : Bool := c = .or

/-- Operands of a chain may be grouped otherwise. -/
theorem eval_assoc (c : Connective) (p q r : Bool) : c.eval (c.eval p q) r = c.eval p (c.eval q r) := by
  cases c
  · exact Bool.and_assoc p q r
  · exact Bool.or_assoc p q r

/-- A decisive second operand decides the connective. -/
@[simp] theorem eval_decisive_right (c : Connective) (p : Bool) : c.eval p c.decisive = c.decisive := by
  cases c
  · exact Bool.and_false p
  · exact Bool.or_true p

/-- A decisive first operand decides the connective. -/
@[simp] theorem eval_decisive_left (c : Connective) (p : Bool) : c.eval c.decisive p = c.decisive := by
  rw [eval_comm, eval_decisive_right]

end Connective

/-- A constant outcome shows its truth value at the points. -/
theorem Outcome.showsAtPoints_alwaysTrue {c : Connective} {unsigned : Bool} {first second : Test}
    (h : ((ofTests c unsigned first second).alwaysTrue ||
      (ofTests c unsigned first second).alwaysFalse) = true) :
    showsAtPoints unsigned first second
      (fun p q => c.eval p q == (ofTests c unsigned first second).alwaysTrue) = true := by
  cases htrue : (ofTests c unsigned first second).alwaysTrue with
  | true =>
    rw [ofTests_eq_showsAtPoints] at htrue
    simpa only [beq_true] using htrue
  | false =>
    rw [htrue, Bool.false_or, ofTests_eq_showsAtPoints] at h
    simpa only [beq_false] using h

/-- Why a logical node is reported to have a truth value. -/
inductive Verdict (c : Connective) (lhs rhs : Tree) (truth : Bool) : Prop where
  /-- Its operands decide it, and the left comparison is not about floating numbers. -/
  | decided (hfloat : ∀ a, (lhs.lastOperand c).comparisonOf? = some a → a.isFloat = false)
      (hdecides : decides c lhs rhs = true) (htruth : truth = c.decisive)
  /-- Two comparisons of one base, that are no equalities of floating numbers, have it at the points. -/
  | sampled {a b : Comparison} (ha : (lhs.lastOperand c).comparisonOf? = some a)
      (hb : rhs.comparisonOf? = some b) (hsame : same a.base b.base = true)
      (hequality : a.isFloat = true → a.isEquality = false ∧ b.isEquality = false)
      (hshows : showsAtPoints (a.base.hasType CType.isUnsigned) a.test b.test
        (fun p q => c.eval p q == truth) = true)

/-- The last operand of a chain is pure when the chain is. -/
theorem Tree.Pure.lastOperand {p : Tree → Bool} {t : Tree} (h : t.Pure p) (c : Connective) :
    (t.lastOperand c).Pure p := by
  unfold Tree.lastOperand
  split
  · next op init last hbinary =>
    split
    · obtain ⟨l, rfl, -⟩ := eq_node_of_binary? hbinary
      exact h.of_binary.2
    · exact h
  · exact h

namespace Place

/-- A finding that a pair of comparisons is constant rests on the sample points. -/
theorem showsAtPoints_of_comparedPair? {o : Options} {p : Place} {c : Connective} {a b : Comparison}
    {inconclusive : Bool} {f : Finding} (h : p.comparedPair? o c a b inconclusive = some f)
    (hrule : f.rule = "incorrectLogicOperator") :
    ∃ pair truth, f = .constantLogic p pair truth inconclusive ∧
      showsAtPoints (a.base.hasType CType.isUnsigned) a.test b.test
        (fun p q => c.eval p q == truth) = true := by
  unfold comparedPair? at h
  dsimp only at h
  split at h
  · next hconstant =>
    split at h
    · obtain rfl := Option.some.inj h
      exact ⟨_, _, rfl, Outcome.showsAtPoints_alwaysTrue hconstant⟩
    · contradiction
  · split at h
    · obtain rfl := Option.some.inj h
      unfold implicationFinding at hrule
      dsimp only at hrule
      split at hrule <;> split at hrule <;> simp [Finding.rule] at hrule
    · contradiction

/-- A finding that a logical node is constant rests on a verdict. -/
theorem verdict_of_operandPair? {o : Options} {p : Place} {c : Connective} {lhs rhs : Tree} {f : Finding}
    (h : p.operandPair? o c lhs rhs = some f) (hrule : f.rule = "incorrectLogicOperator") :
    ∃ pair truth inconclusive, f = .constantLogic p pair truth inconclusive ∧
      Verdict c lhs rhs truth := by
  unfold operandPair? at h
  dsimp only at h
  split at h
  · contradiction
  split at h
  · contradiction
  split at h
  · next hdecided =>
    split at h
    · obtain rfl := Option.some.inj h
      simp only [Bool.and_eq_true, Bool.not_eq_true', Bool.or_eq_false_iff] at hdecided
      obtain ⟨⟨hfirst, -⟩, hdecides⟩ := hdecided
      refine ⟨_, _, _, rfl, .decided (fun a ha => ?_) hdecides rfl⟩
      simpa [ha] using hfirst
    · contradiction
  · split at h
    · next a b ha hb =>
      split at h
      · contradiction
      · next hsame =>
        split at h
        · contradiction
        · next hequality =>
          obtain ⟨pair, truth, rfl, hshows⟩ := showsAtPoints_of_comparedPair? h hrule
          refine ⟨_, _, _, rfl, .sampled ha hb ?_ (fun hfloat => ?_) hshows⟩
          · simpa using (not_or.mp (mt Bool.or_eq_true_iff.mpr hsame)).2
          · simpa [ha, hfloat] using hequality
    · contradiction

/-- An operand that occurs again does not make the node constant. -/
theorem rule_of_absorption? {p : Place} {c : Connective} {lhs rhs : Tree} {f : Finding}
    (h : p.absorption? c lhs rhs = some f) : f.rule = "redundantCondition" := by
  unfold absorption? at h
  split at h
  · split at h
    · contradiction
    · split at h
      · exact Option.some.inj h ▸ rfl
      · split at h
        · exact Option.some.inj h ▸ rfl
        · contradiction
  · contradiction

/-- A finding at a logical node is about an operand that occurs again, or about the pair of operands. -/
theorem cases_of_mem_logicalPairs {o : Options} {p : Place} {f : Finding} (h : f ∈ p.logicalPairs o) :
    ∃ c lhs rhs, p.tree.binary? = some (.logic c, lhs, rhs) ∧
      (p.absorption? c lhs rhs = some f ∨ p.operandPair? o c lhs rhs = some f) := by
  unfold logicalPairs at h
  split at h
  · next c lhs rhs hnode =>
    split at h
    · contradiction
    · rw [Option.mem_toList, Option.orElse_eq_orElse, Option.orElse_eq_or] at h
      refine ⟨c, lhs, rhs, hnode, ?_⟩
      rcases Option.or_eq_some_iff.mp h with habsorption | ⟨-, hpair⟩
      · split at habsorption
        · exact Or.inl habsorption
        · contradiction
      · exact Or.inr hpair
  · contradiction

/-- A finding at a logical node that it is constant is about this node and rests on a verdict. -/
theorem verdict_of_logicalPairs {o : Options} {p : Place} {f : Finding} (h : f ∈ p.logicalPairs o)
    (hrule : f.rule = "incorrectLogicOperator") :
    ∃ c lhs rhs pair truth inconclusive, p.tree.binary? = some (.logic c, lhs, rhs) ∧
      f = .constantLogic p pair truth inconclusive ∧ Verdict c lhs rhs truth := by
  obtain ⟨c, lhs, rhs, hnode, habsorbed | hpair⟩ := cases_of_mem_logicalPairs h
  · rw [rule_of_absorption? habsorbed] at hrule
    contradiction
  · obtain ⟨pair, truth, inconclusive, hf, hverdict⟩ := verdict_of_operandPair? hpair hrule
    exact ⟨c, lhs, rhs, pair, truth, inconclusive, hnode, hf, hverdict⟩

end Place

/-- The diagnostic of a constant logical node tells the truth value of a verdict by its weakness. -/
theorem verdict_of_mem_reports {o : Options} {u : SourceUnit} {l : Ledger} {f : Finding} {p : Place}
    {c : Connective} {lhs rhs : Tree} (hreport : f ∈ Check.logicalPair.reports o u l)
    (hrule : (f.diagnostic u).rule = "incorrectLogicOperator") (hsubjects : f.subjects = [p])
    (hnode : p.tree.binary? = some (.logic c, lhs, rhs)) :
    ∃ truth, (f.diagnostic u).cwe = (if truth then 571 else 570) ∧ Verdict c lhs rhs truth := by
  obtain ⟨_, q, -, hfound⟩ := Check.exists_of_mem_reports hreport
  obtain ⟨c', lhs', rhs', pair, truth, inconclusive, hnode', rfl, hverdict⟩ :=
    Place.verdict_of_logicalPairs hfound hrule
  obtain rfl : q = p := List.singleton_inj.mp hsubjects
  rw [hnode] at hnode'
  obtain ⟨⟨rfl⟩, rfl, rfl⟩ : BinaryOp.logic c = .logic c' ∧ lhs = lhs' ∧ rhs = rhs' := by
    simpa using hnode'
  exact ⟨truth, rfl, hverdict⟩

/-- Two integer tests that are constant together at the sample points are so everywhere, and have the truth
value that decides the connective. -/
theorem eval_eq_of_showsAtPoints {c : Connective} {o₁ o₂ : Order} {v w : ℤ} {n₁ n₂ truth : Bool}
    (h : showsAtPoints false (Test.ofInt o₁ v n₁) (Test.ofInt o₂ w n₂)
      (fun p q => c.eval p q == truth) = true) :
    truth = c.decisive ∧ ∀ x : ℤ, c.eval (o₁.holds x v != n₁) (o₂.holds x w != n₂) = truth := by
  have hall := (showsAtPoints_iff_forall o₁ o₂ v w n₁ n₂ _).mp h
  simp only [Test.isTrueAt_ofInt, beq_iff_eq] at hall
  refine ⟨?_, hall⟩
  -- The first test takes the decisive value somewhere, which leaves nothing to the second one.
  obtain ⟨x, hx⟩ := o₁.exists_holds_eq v (c.decisive != n₁)
  have htruth := hall x
  rw [hx, show ((c.decisive != n₁) != n₁) = c.decisive by cases c.decisive <;> cases n₁ <;> rfl,
    Connective.eval_decisive_left] at htruth
  exact htruth.symm

namespace Valuation

variable (V : Valuation ℤ) {c : Connective} {lhs rhs : Tree}

/-- A connective that the last operand of a chain decides is decided by the chain. -/
theorem eval_isTrue_of_lastOperand {q : Bool}
    (h : c.eval (V.isTrue (lhs.lastOperand c)) q = c.decisive) :
    c.eval (V.isTrue lhs) q = c.decisive := by
  unfold lastOperand at h
  split at h
  · next op init last hbinary =>
    split at h
    · next hop =>
      obtain ⟨l, rfl, hkind⟩ := eq_node_of_binary? hbinary
      rw [V.isTrue_logic (hop ▸ hkind), Connective.eval_assoc, h, Connective.eval_decisive_right]
    · exact h
  · exact h

/-- Integer operands that decide a connective give it the decisive truth value. -/
theorem eval_isTrue_of_decides (hlhs : lhs.Pure isPlainInteger) (hrhs : rhs.Pure isPlainInteger)
    (h : decides c lhs rhs = true) : c.eval (V.isTrue lhs) (V.isTrue rhs) = c.decisive := by
  cases c with
  | and =>
    have hnot := V.not_both_of_exclusive hlhs hrhs h
    simpa [Connective.eval, Connective.decisive] using hnot
  | or =>
    rw [V.isTrue_eq_not_of_opposite hlhs hrhs h]
    exact Bool.not_or_self _

/-- A verdict on integer operands is right, whatever the variables stand for. -/
theorem eval_isTrue_of_verdict {truth : Bool} (hlhs : lhs.Pure isPlainInteger)
    (hrhs : rhs.Pure isPlainInteger)
    (hsigned : ∀ a, (lhs.lastOperand c).comparisonOf? = some a → a.base.hasType CType.isUnsigned = false)
    (h : Verdict c lhs rhs truth) : c.eval (V.isTrue lhs) (V.isTrue rhs) = truth := by
  cases h with
  | decided _ hdecides htruth => rw [V.eval_isTrue_of_decides hlhs hrhs hdecides, htruth]
  | @sampled a b ha hb hsame _ hshows =>
    have hlast : (lhs.lastOperand c).Pure isPlainInteger := hlhs.lastOperand c
    obtain ⟨hbase, o₁, v, n₁, htest, hread⟩ := Comparison.reads_readNegated (α := ℤ) hlast ha
    obtain ⟨hbase', o₂, w, n₂, htest', hread'⟩ := Comparison.reads_readNegated (α := ℤ) hrhs hb
    rw [hsigned a ha, htest, htest'] at hshows
    obtain ⟨rfl, hall⟩ := eval_eq_of_showsAtPoints hshows
    apply V.eval_isTrue_of_lastOperand
    have hvalue := V.eval_eq_of_same single_of_isPlainInteger hbase hbase' hsame
    have hfirst : V.isTrue (lhs.lastOperand c) = (o₁.holds (V.eval a.base) v != n₁) := by
      simpa using hread V
    have hsecond : V.isTrue rhs = (o₂.holds (V.eval a.base) w != n₂) := by
      simpa [hvalue] using hread' V
    rw [hfirst, hsecond, hall]

end Valuation

/-- A report that a logical node of integer operands is constant is right, whatever the variables and the
arithmetic operators stand for, unless the first compared base is unsigned. -/
theorem integer_reports_right (V : Valuation ℤ) {o : Options} {u : SourceUnit} {l : Ledger} {f : Finding}
    {p : Place} {c : Connective} {lhs rhs : Tree} (hreport : f ∈ Check.logicalPair.reports o u l)
    (hrule : (f.diagnostic u).rule = "incorrectLogicOperator") (hsubjects : f.subjects = [p])
    (hnode : p.tree.binary? = some (.logic c, lhs, rhs))
    (hlhs : lhs.Pure isPlainInteger) (hrhs : rhs.Pure isPlainInteger)
    (hsigned : ∀ a, (lhs.lastOperand c).comparisonOf? = some a →
      a.base.hasType CType.isUnsigned = false) :
    (f.diagnostic u).cwe = if V.isTrue p.tree then 571 else 570 := by
  obtain ⟨truth, hcwe, hverdict⟩ := verdict_of_mem_reports hreport hrule hsubjects hnode
  obtain ⟨l, htree, hkind⟩ := eq_node_of_binary? hnode
  rw [htree, V.isTrue_logic hkind, V.eval_isTrue_of_verdict hlhs hrhs hsigned hverdict]
  exact hcwe

/-- `a || x > 3 || x < 5`, whose last two operands leave no integer out. -/
def coveringChain : Tree :=
  let x : Variable := ⟨1, "x", .int, {}⟩
  ofOperator 8 (.logic .or)
    (ofOperator 4 (.logic .or) (ofVariable 0 ⟨0, "a", .int, {}⟩)
      (ofOperator 3 (.compare .gt) (ofVariable 1 x) (ofInt 2 3)))
    (ofOperator 7 (.compare .lt) (ofVariable 5 x) (ofInt 6 5))

/-- The chain is reported as always true, and is. -/
theorem integer_reports_right_coveringChain :
    let u := SourceUnit.ofTree coveringChain
    ∃ f ∈ Check.logicalPair.reports {} u {}, f.subjects = [⟨coveringChain, []⟩] ∧
      (f.diagnostic u).cwe = 571 ∧
        ∀ V : Valuation ℤ, (f.diagnostic u).cwe = if V.isTrue coveringChain then 571 else 570 := by
  intro u
  obtain ⟨pair, hreports⟩ : ∃ pair, Check.logicalPair.reports {} u {} =
      [.constantLogic ⟨coveringChain, []⟩ pair true false] := ⟨_, rfl⟩
  have hmem := hreports ▸ List.mem_singleton_self (Finding.constantLogic ⟨coveringChain, []⟩ pair true false)
  refine ⟨_, hmem, rfl, rfl, fun V => ?_⟩
  refine integer_reports_right V hmem rfl rfl rfl (by decide) (by decide) fun a ha => ?_
  obtain rfl := Option.some.inj ha
  rfl

end ConditionLint
