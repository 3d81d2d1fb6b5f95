import ConditionLint.Proofs.LogicalPair
import ConditionLint.Proofs.Rerun

/-!
# Redundant conditions

A logical node is reported to hold a redundant condition for one of two reasons: its right operand repeats
or negates the left one within, or one of two comparisons of one base implies the other at the sample
points. The message then names a shorter condition, a comparison that suffices, or a comparison that
follows from the other one. For integer operands what it says is right. Which of two comparisons follows
from the other is told by the sample points alone; the second decision, over the real numbers, chooses
between two ways of saying it.
-/

namespace ConditionLint

open ConditionLint.Tree

/-- Of two conditions of which one implies the other, the dominant one has the truth value of both together. -/
theorem Connective.eval_eq_of_implies (c : Connective) {firstImplies p q : Bool}
    (h : (if firstImplies then !(p && !q) else !(q && !p)) = true) :
    c.eval p q = if c.dominantWhen firstImplies = .first then p else q := by
  revert h
  cases c <;> cases firstImplies <;> cases p <;> cases q <;> decide

/-- A condition that is repeated under the other connective absorbs what stands beside the repetition. -/
theorem Connective.eval_dual_self (c : Connective) (p q : Bool) : c.eval p (c.dual.eval p q) = p := by
  cases c <;> cases p <;> cases q <;> rfl

/-- A condition that is negated under the other connective is absorbed there. -/
theorem Connective.eval_dual_not (c : Connective) (p q : Bool) :
    c.eval p (c.dual.eval (!p) q) = c.eval p q := by
  cases c <;> cases p <;> cases q <;> rfl

/-- There are only two connectives. -/
theorem Connective.eq_dual_of_ne {c c' : Connective} (h : c' ≠ c) : c' = c.dual := by
  cases c <;> cases c' <;> trivial

/-- The finding about a pair of which one comparison implies the other, for an answer of the decision over the
real numbers. -/
def Place.implicationFindingFor (p : Place) (c : Connective) (a b : Comparison)
    (firstImplies inconclusive : Bool) (answer : Dominance) : Finding :=
  if answer = c.dominantWhen firstImplies then
    if answer = .first then .redundantComparison p b a inconclusive else .redundantComparison p a b inconclusive
  else if firstImplies then .impliedComparison p a b inconclusive
  else .impliedComparison p b a inconclusive

/-- The finding depends on the decision over the real numbers by its answer only. -/
theorem Place.implicationFinding_eq (p : Place) (c : Connective) (a b : Comparison)
    (firstImplies inconclusive : Bool) :
    p.implicationFinding c a b firstImplies inconclusive =
      p.implicationFindingFor c a b firstImplies inconclusive (dominance c a.meaning b.meaning) := by
  unfold implicationFinding implicationFindingFor
  dsimp only
  split
  · next hanswer => rw [hanswer]
  · rfl

/-- Why a logical node is reported to hold a redundant condition. -/
inductive Redundancy (p : Place) (c : Connective) (lhs rhs : Tree) : Finding → Prop
  /-- The right operand has the left one, or its opposite, within. -/
  | absorption {inner rest : Tree} {negated : Bool} (binary : rhs.binary? = some (.logic c.dual, inner, rest))
      (repeats : (if negated then opposite lhs inner else same lhs inner) = true) :
      Redundancy p c lhs rhs (.absorbed p c lhs inner rest negated)
  /-- Of two comparisons of one base, one implies the other at the points. -/
  | implication {a b : Comparison} {firstImplies inconclusive : Bool}
      (first : (lhs.lastOperand c).comparisonOf? = some a) (second : rhs.comparisonOf? = some b)
      (base : same a.base b.base = true)
      (shows : showsAtPoints (a.base.hasType CType.isUnsigned) a.test b.test
        (fun p q => if firstImplies then !(p && !q) else !(q && !p)) = true) :
      Redundancy p c lhs rhs (p.implicationFinding c a b firstImplies inconclusive)

namespace Place

variable {o : Options} {p : Place} {c : Connective} {lhs rhs : Tree} {f : Finding}

/-- An absorbed condition is redundant. -/
theorem redundancy_of_absorption? (h : p.absorption? c lhs rhs = some f) : Redundancy p c lhs rhs f := by
  unfold absorption? at h
  split at h
  · next c' inner rest hbinary =>
    split at h
    · contradiction
    · next hne =>
      rw [Connective.eq_dual_of_ne hne] at hbinary
      split at h
      · next hopposite =>
        obtain rfl := Option.some.inj h
        exact .absorption hbinary hopposite
      · split at h
        · next hsame =>
          obtain rfl := Option.some.inj h
          exact .absorption hbinary hsame
        · contradiction
  · contradiction

/-- A finding that one of two comparisons is redundant rests on the sample points. -/
theorem showsAtPoints_of_redundant {a b : Comparison} {inconclusive : Bool}
    (h : p.comparedPair? o c a b inconclusive = some f) (hrule : f.rule = "redundantCondition") :
    ∃ firstImplies, f = p.implicationFinding c a b firstImplies inconclusive ∧
      showsAtPoints (a.base.hasType CType.isUnsigned) a.test b.test
        (fun p q => if firstImplies then !(p && !q) else !(q && !p)) = true := by
  unfold comparedPair? at h
  dsimp only at h
  split at h
  · split at h
    · simp [← Option.some.inj h, Finding.rule] at hrule
    · contradiction
  · split at h
    · next hdiffer =>
      obtain rfl := Option.some.inj h
      refine ⟨_, rfl, ?_⟩
      rw [Outcome.ofTests_eq_showsAtPoints] at hdiffer ⊢
      dsimp only at hdiffer ⊢
      -- Exactly one of the comparisons implies the other, so it is the second one when it is not the first.
      split
      · assumption
      · next hfirst =>
        rw [Bool.eq_false_iff.mpr hfirst, Bool.and_eq_true] at hdiffer
        simpa using hdiffer.2
    · contradiction

/-- A report that one of two compared operands is redundant rests on an implication at the points. -/
theorem redundancy_of_operandPair? (h : p.operandPair? o c lhs rhs = some f)
    (hrule : f.rule = "redundantCondition") : Redundancy p c lhs rhs f := by
  unfold operandPair? at h
  dsimp only at h
  split at h
  · contradiction
  split at h
  · contradiction
  split at h
  · split at h
    · simp [← Option.some.inj h, Finding.rule] at hrule
    · contradiction
  · split at h
    · next a b ha hb =>
      split at h
      · contradiction
      · next hsame =>
        split at h
        · contradiction
        · obtain ⟨firstImplies, rfl, hshows⟩ := showsAtPoints_of_redundant h hrule
          refine .implication ha hb ?_ hshows
          simpa using (not_or.mp (mt Bool.or_eq_true_iff.mpr hsame)).2
    · contradiction

/-- Every report of a redundant condition at a logical node has one of the reasons. -/
theorem redundancy_of_mem_logicalPairs (h : f ∈ p.logicalPairs o)
    (hnode : p.tree.binary? = some (.logic c, lhs, rhs)) (hrule : f.rule = "redundantCondition") :
    Redundancy p c lhs rhs f := by
  obtain ⟨c', lhs', rhs', hnode', hcases⟩ := cases_of_mem_logicalPairs h
  obtain ⟨rfl, rfl, rfl⟩ : c = c' ∧ lhs = lhs' ∧ rhs = rhs' := by simpa [hnode] using hnode'
  rcases hcases with habsorption | hpair
  · exact redundancy_of_absorption? habsorption
  · exact redundancy_of_operandPair? hpair hrule

end Place

/-- The two conditions that are read as comparisons, in either order. -/
def AreCompared (c : Connective) (lhs rhs s t : Tree) : Prop :=
  s = lhs.lastOperand c ∧ t = rhs ∨ s = rhs ∧ t = lhs.lastOperand c

/-- What a report of a redundant condition says about a logical node, by its message, and that it is so. -/
inductive RightlyRedundant (V : Valuation ℤ) (p : Place) (c : Connective) (lhs rhs : Tree) :
    Finding → String → Prop
  /-- The two comparisons together are true exactly when the sufficient one is. -/
  | sufficient {s t : Tree} {redundant enough : Comparison} {inconclusive : Bool}
      (compared : AreCompared c lhs rhs s t) (reads : s.comparisonOf? = some redundant)
      (reads' : t.comparisonOf? = some enough)
      (right : c.eval (V.isTrue (lhs.lastOperand c)) (V.isTrue rhs) = V.isTrue t) :
      RightlyRedundant V p c lhs rhs (.redundantComparison p redundant enough inconclusive)
        ("Redundant condition: The condition " ++ quoted redundant.text ++ " is redundant since "
          ++ quoted enough.text ++ " is sufficient.")
  /-- The implied comparison is true whenever the implying one is. -/
  | implied {s t : Tree} {implying implied : Comparison} {inconclusive : Bool}
      (compared : AreCompared c lhs rhs s t) (reads : s.comparisonOf? = some implying)
      (reads' : t.comparisonOf? = some implied) (right : V.isTrue s = true → V.isTrue t = true) :
      RightlyRedundant V p c lhs rhs (.impliedComparison p implying implied inconclusive)
        ("Redundant condition: If " ++ quoted implying.text ++ ", the comparison " ++ quoted implied.text
          ++ " is always true.")
  /-- The node is true exactly when the left operand, joined with what stands beside its opposite, is. -/
  | negated {inner rest : Tree} (binary : rhs.binary? = some (.logic c.dual, inner, rest))
      (right : V.isTrue p.tree = c.eval (V.isTrue lhs) (V.isTrue rest)) :
      RightlyRedundant V p c lhs rhs (.absorbed p c lhs inner rest true)
        ("Redundant condition: " ++ absorptionText c lhs.text inner.text rest.text true)
  /-- The node is true exactly when the left operand is. -/
  | repeated {inner rest : Tree} (binary : rhs.binary? = some (.logic c.dual, inner, rest))
      (right : V.isTrue p.tree = V.isTrue lhs) :
      RightlyRedundant V p c lhs rhs (.absorbed p c lhs inner rest false)
        ("Redundant condition: " ++ absorptionText c lhs.text inner.text rest.text false)

namespace Valuation

variable (V : Valuation ℤ) {c : Connective} {lhs rhs : Tree} {p : Place} {f : Finding}

/-- What the sample points show of two comparisons of one integer holds of the conditions. -/
theorem related_of_showsAtPoints {t u : Tree} {a b : Comparison} {related : Bool → Bool → Bool}
    (ht : t.Pure isPlainInteger) (hu : u.Pure isPlainInteger) (ha : t.comparisonOf? = some a)
    (hb : u.comparisonOf? = some b) (hbase : same a.base b.base = true)
    (hshows : showsAtPoints false a.test b.test related = true) :
    related (V.isTrue t) (V.isTrue u) = true := by
  obtain ⟨hpure, o₁, v, n₁, htest, hread⟩ := Comparison.reads_readNegated (α := ℤ) ht ha
  obtain ⟨hpure', o₂, w, n₂, htest', hread'⟩ := Comparison.reads_readNegated (α := ℤ) hu hb
  have hvalue := V.eval_eq_of_same single_of_isPlainInteger hpure hpure' hbase
  have hfirst : V.isTrue t = (Test.ofInt o₁ v n₁).isTrueAt (.int (V.eval a.base)) := by
    simpa [Test.isTrueAt_ofInt] using hread V
  have hsecond : V.isTrue u = (Test.ofInt o₂ w n₂).isTrueAt (.int (V.eval a.base)) := by
    simpa [Test.isTrueAt_ofInt, hvalue] using hread' V
  rw [htest, htest', showsAtPoints_iff_forall] at hshows
  rw [hfirst, hsecond]
  exact hshows _

/-- What is said of two comparisons of which one implies the other is right, whatever the decision over the real
numbers answers. -/
theorem rightlyRedundant_implicationFindingFor {a b : Comparison} {firstImplies : Bool} (inconclusive : Bool)
    (answer : Dominance) (ha : (lhs.lastOperand c).comparisonOf? = some a) (hb : rhs.comparisonOf? = some b)
    (h : (if firstImplies then !(V.isTrue (lhs.lastOperand c) && !V.isTrue rhs)
      else !(V.isTrue rhs && !V.isTrue (lhs.lastOperand c))) = true) :
    RightlyRedundant V p c lhs rhs (p.implicationFindingFor c a b firstImplies inconclusive answer)
      (p.implicationFindingFor c a b firstImplies inconclusive answer).message := by
  have hdominant := c.eval_eq_of_implies h
  unfold Place.implicationFindingFor
  split
  · next hanswer =>
    rw [← hanswer] at hdominant
    split
    · next hfirst => exact .sufficient (Or.inr ⟨rfl, rfl⟩) hb ha (by rw [hdominant, if_pos hfirst])
    · next hsecond => exact .sufficient (Or.inl ⟨rfl, rfl⟩) ha hb (by rw [hdominant, if_neg hsecond])
  · cases firstImplies with
    | true => exact .implied (Or.inl ⟨rfl, rfl⟩) ha hb ((not_and_not_eq_true_iff _ _).mp h)
    | false => exact .implied (Or.inr ⟨rfl, rfl⟩) hb ha ((not_and_not_eq_true_iff _ _).mp h)

/-- What is said of an operand that occurs again, or negated, within the other one is right. -/
theorem rightlyRedundant_absorbed {inner rest : Tree} {negated : Bool}
    (hnode : p.tree.binary? = some (.logic c, lhs, rhs)) (hlhs : lhs.Pure isPlainInteger)
    (hrhs : rhs.Pure isPlainInteger) (hbinary : rhs.binary? = some (.logic c.dual, inner, rest))
    (hrepeats : (if negated then opposite lhs inner else same lhs inner) = true) :
    RightlyRedundant V p c lhs rhs (.absorbed p c lhs inner rest negated)
      (Finding.absorbed p c lhs inner rest negated).message := by
  obtain ⟨l, htree, hkind⟩ := eq_node_of_binary? hnode
  obtain ⟨m, rfl, hm⟩ := eq_node_of_binary? hbinary
  have hinner := hrhs.of_binary.1
  have hwhole : V.isTrue p.tree = c.eval (V.isTrue lhs) (c.dual.eval (V.isTrue inner) (V.isTrue rest)) := by
    rw [htree, V.isTrue_logic hkind, V.isTrue_logic hm]
  cases negated with
  | true =>
    have hopposite : V.isTrue inner = !V.isTrue lhs := by
      rw [V.isTrue_eq_not_of_opposite hlhs hinner hrepeats, Bool.not_not]
    apply RightlyRedundant.negated hbinary
    rw [hwhole, hopposite, Connective.eval_dual_not]
  | false =>
    have hsame : V.isTrue inner = V.isTrue lhs := by
      rw [isTrue, isTrue, V.eval_eq_of_same single_of_isPlainInteger hlhs hinner hrepeats]
    apply RightlyRedundant.repeated hbinary
    rw [hwhole, hsame, Connective.eval_dual_self]

end Valuation

/-- A report about a node was found at that node. -/
theorem Check.mem_logicalPairs_of_mem_reports {o : Options} {u : SourceUnit} {l : Ledger} {f : Finding} {p : Place}
    (h : f ∈ Check.logicalPair.reports o u l) (hsubjects : f.subjects = [p]) : f ∈ p.logicalPairs o := by
  obtain ⟨_, q, -, hfound⟩ := Check.exists_of_mem_reports h
  rw [Place.subjects_of_mem_logicalPairs hfound] at hsubjects
  exact List.singleton_inj.mp hsubjects ▸ hfound

/-- A report that a logical node of integer operands holds a redundant condition is right in what its message
says, whatever the variables and the arithmetic operators stand for, unless the first compared base is
unsigned. A report about two comparisons would be right with any other answer of the decision over the real
numbers. -/
theorem redundancy_reports_right (V : Valuation ℤ) {o : Options} {u : SourceUnit} {l : Ledger} {f : Finding}
    {p : Place} {c : Connective} {lhs rhs : Tree} (hreport : f ∈ Check.logicalPair.reports o u l)
    (hrule : (f.diagnostic u).rule = "redundantCondition") (hsubjects : f.subjects = [p])
    (hnode : p.tree.binary? = some (.logic c, lhs, rhs))
    (hlhs : lhs.Pure isPlainInteger) (hrhs : rhs.Pure isPlainInteger)
    (hsigned : ∀ a, (lhs.lastOperand c).comparisonOf? = some a →
      a.base.hasType CType.isUnsigned = false) :
    RightlyRedundant V p c lhs rhs f (f.diagnostic u).message ∧
      ((∃ inner rest negated, f = .absorbed p c lhs inner rest negated) ∨
        ∃ a b firstImplies inconclusive, f = p.implicationFinding c a b firstImplies inconclusive ∧
          ∀ answer, RightlyRedundant V p c lhs rhs
            (p.implicationFindingFor c a b firstImplies inconclusive answer)
            ((p.implicationFindingFor c a b firstImplies inconclusive answer).diagnostic u).message) := by
  have hfound := Check.mem_logicalPairs_of_mem_reports hreport hsubjects
  cases Place.redundancy_of_mem_logicalPairs hfound hnode hrule with
  | absorption binary repeats =>
    exact ⟨V.rightlyRedundant_absorbed hnode hlhs hrhs binary repeats, Or.inl ⟨_, _, _, rfl⟩⟩
  | @implication a b firstImplies inconclusive first second base shows =>
    rw [hsigned a first] at shows
    have hrelated := V.related_of_showsAtPoints (hlhs.lastOperand c) hrhs first second base shows
    have hright := fun answer =>
      V.rightlyRedundant_implicationFindingFor (p := p) inconclusive answer first second hrelated
    refine ⟨?_, Or.inr ⟨a, b, firstImplies, inconclusive, rfl, hright⟩⟩
    rw [Place.implicationFinding_eq]
    exact hright _

/-- `x > 5 && x > 3` -/
def tighterBound : Tree :=
  let x : Variable := ⟨0, "x", .int, {}⟩
  ofOperator 6 (.logic .and) (ofOperator 2 (.compare .gt) (ofVariable 0 x) (ofInt 1 5))
    (ofOperator 5 (.compare .gt) (ofVariable 3 x) (ofInt 4 3))

/-- The looser of two bounds is reported as redundant, and both together hold exactly when the tighter one does. -/
theorem redundancy_reports_right_tighterBound :
    let u := SourceUnit.ofTree tighterBound
    ∃ f lhs rhs, f ∈ Check.logicalPair.reports {} u {} ∧ tighterBound.binary? = some (.logic .and, lhs, rhs) ∧
      (f.diagnostic u).message =
        "Redundant condition: The condition 'x > 3' is redundant since 'x > 5' is sufficient." ∧
      ∀ V : Valuation ℤ, RightlyRedundant V ⟨tighterBound, []⟩ .and lhs rhs f (f.diagnostic u).message := by
  intro u
  obtain ⟨a, b, hreports, hmessage⟩ : ∃ a b, Check.logicalPair.reports {} u {} =
      [.redundantComparison ⟨tighterBound, []⟩ b a false] ∧
        (Finding.redundantComparison ⟨tighterBound, []⟩ b a false).message =
          "Redundant condition: The condition 'x > 3' is redundant since 'x > 5' is sufficient." :=
    ⟨_, _, rfl, rfl⟩
  have hmem := hreports ▸ List.mem_singleton_self (Finding.redundantComparison ⟨tighterBound, []⟩ b a false)
  refine ⟨_, _, _, hmem, rfl, hmessage, fun V => ?_⟩
  refine (redundancy_reports_right V hmem rfl rfl rfl (by decide) (by decide) fun a ha => ?_).1
  obtain rfl := Option.some.inj ha
  rfl

end ConditionLint
