import ConditionLint.Proofs.FloatingPair

/-!
# Opposite and exclusive conditions on a floating variable

Whether two comparisons with integer literals are opposite or exclusive is decided over the integers, also
when the variable is a floating one. Such a verdict is right about every rational value exactly when the
comparisons do not meet between two neighbouring integers: there `x > v` and `x < v + 1` are both true, and
their negations `x <= v` and `x >= v + 1` both false.
-/

namespace ConditionLint

open ConditionLint.Tree

namespace Tree.ComparesFloating

variable {x : VarId} {t u : Tree} {o₁ o₂ : Order} {v w : ℤ}

/-- Relations that two comparisons of a floating variable share are the two comparisons. -/
theorem eq_of_sharedRelations? (ht : t.ComparesFloating x o₁ v) (hu : u.ComparesFloating x o₂ w)
    {r s : Relation} (h : sharedRelations? t u = some (r, s)) :
    r = ⟨o₁, .int v⟩ ∧ s = ⟨o₂, .int w⟩ := by
  have hbase : baseRelations? t u = some (r, s) := by
    simpa [sharedRelations?, ht.differenceRelations?_eq] using h
  unfold baseRelations? at hbase
  split at hbase
  · next c d hc hd =>
    obtain ⟨c', hc', htest, -⟩ := ht.comparisonOf?_cases.resolve_left (by simp [hc])
    obtain ⟨d', hd', htest', -⟩ := hu.comparisonOf?_cases.resolve_left (by simp [hd])
    obtain rfl : c = c' := Option.some.inj (hc.symm.trans hc')
    obtain rfl : d = d' := Option.some.inj (hd.symm.trans hd')
    split at hbase
    · obtain ⟨rfl, rfl⟩ := Prod.mk.inj (Option.some.inj hbase)
      rw [Comparison.meaning, Comparison.meaning, htest, htest']
      exact ⟨rfl, rfl⟩
    · contradiction
  · contradiction

/-- Opposite comparisons of a floating variable are complements over the integers. -/
theorem complements_of_opposite (ht : t.ComparesFloating x o₁ v) (hu : u.ComparesFloating x o₂ w)
    (h : opposite t u = true) : (⟨o₁, .int v⟩ : Relation).complements ⟨o₂, .int w⟩ = true := by
  simp only [opposite, isNegationOf, ht.negated?_eq, hu.negated?_eq, Option.any_none, Bool.false_or] at h
  obtain ⟨⟨r, s⟩, hshared, hcomplements⟩ := (Option.any_eq_true _ _).mp h
  obtain ⟨rfl, rfl⟩ := ht.eq_of_sharedRelations? hu hshared
  exact hcomplements

/-- No integer satisfies two exclusive comparisons of a floating variable. -/
theorem not_holds_of_exclusive (ht : t.ComparesFloating x o₁ v) (hu : u.ComparesFloating x o₂ w)
    (h : exclusive t u = true) (n : ℤ) : ¬(o₁.holds n v = true ∧ o₂.holds n w = true) := by
  simp only [exclusive, ht.conjuncts_eq, hu.conjuncts_eq, List.any_nil, Bool.or_false] at h
  rintro ⟨htrue, hutrue⟩
  rcases Bool.or_eq_true_iff.mp h with hopposite | hrelations
  · have hnot := Relation.holds_eq_not_of_complements (ht.complements_of_opposite hu hopposite) n
    simp [htrue, hutrue] at hnot
  · obtain ⟨⟨r, s⟩, hshared, hexcludes⟩ := (Option.any_eq_true _ _).mp hrelations
    obtain ⟨rfl, rfl⟩ := ht.eq_of_sharedRelations? hu hshared
    simp [Relation.not_holds_of_excludes hexcludes htrue] at hutrue

end Tree.ComparesFloating

namespace Order

variable {o₁ o₂ : Order} {v w : ℤ}

/-- Comparisons that exclude each other over the integers do so over the rationals, unless they meet in a
gap. -/
theorem forall_rat_not_both_iff (hnone : ∀ n : ℤ, ¬(o₁.holds n v = true ∧ o₂.holds n w = true)) :
    (∀ q : ℚ, ¬(o₁.holds q (v : ℚ) = true ∧ o₂.holds q (w : ℚ) = true)) ↔ ¬o₁.MeetInGap v o₂ w := by
  rw [← exists_rat_iff_meetInGap_of_none hnone, not_exists]

/-- Complements over the integers are complements over the rationals, unless they or their negations meet
in a gap. -/
theorem forall_rat_eq_not_iff (hint : ∀ n : ℤ, o₁.holds n v = !o₂.holds n w) :
    (∀ q : ℚ, o₁.holds q (v : ℚ) = !o₂.holds q (w : ℚ)) ↔
      ¬(o₁.MeetInGap v o₂ w ∨ o₁.negate.MeetInGap v o₂.negate w) := by
  -- Opposite truth values are excluded twice: both true, and both negations true.
  have hsplit (p q : Bool) : p = (!q) ↔ ¬(p = true ∧ q = true) ∧ ¬((!p) = true ∧ (!q) = true) := by
    cases p <;> cases q <;> decide
  simp only [hsplit, forall_and] at hint ⊢
  simp only [← holds_negate] at hint ⊢
  rw [forall_rat_not_both_iff hint.1, forall_rat_not_both_iff hint.2, not_or]

end Order

/-- Of two comparisons of a floating variable with integer literals, the verdict that they are exclusive is
right about all rational values exactly when they do not meet in a gap, and the verdict that they are
opposite exactly when neither they nor their negations do. -/
theorem floating_verdicts_right_iff {x : VarId} {t u : Tree} {o₁ o₂ : Order} {v w : ℤ}
    (ht : t.ComparesFloating x o₁ v) (hu : u.ComparesFloating x o₂ w) :
    (exclusive t u = true →
        ((∀ V : Valuation ℚ, ¬(V.isTrue t = true ∧ V.isTrue u = true)) ↔ ¬o₁.MeetInGap v o₂ w)) ∧
      (opposite t u = true →
        ((∀ V : Valuation ℚ, V.isTrue t = !V.isTrue u) ↔
          ¬(o₁.MeetInGap v o₂ w ∨ o₁.negate.MeetInGap v o₂.negate w))) := by
  have hvar (P : ℚ → Prop) : (∀ V : Valuation ℚ, P (V.var x)) ↔ ∀ q, P q :=
    ⟨fun h q => h (.constant q), fun h V => h (V.var x)⟩
  simp only [ht.isTrue_eq_holds, hu.isTrue_eq_holds]
  constructor
  · intro h
    rw [← Order.forall_rat_not_both_iff (ht.not_holds_of_exclusive hu h)]
    exact hvar fun q => ¬(o₁.holds q (v : ℚ) = true ∧ o₂.holds q (w : ℚ) = true)
  · intro h
    have hint := Relation.holds_eq_not_of_complements (ht.complements_of_opposite hu h)
    rw [← Order.forall_rat_eq_not_iff hint]
    exact hvar fun q => o₁.holds q (v : ℚ) = !o₂.holds q (w : ℚ)

/-- `x op v` for a floating `x`. -/
def floatingTest (first : NodeId) (o : Order) (v : ℤ) : Tree :=
  ofOperator (first + 2) (.compare o) (ofVariable first ⟨0, "x", .double, {}⟩) (ofInt (first + 1) v)

/-- `x > 0` and `x < 1` are taken for exclusive and `x <= 0` and `x >= 1` for opposite, which is wrong
between zero and one. -/
theorem floating_verdicts_wrong_in_unit :
    (exclusive (floatingTest 0 .gt 0) (floatingTest 3 .lt 1) = true ∧
        ¬∀ V : Valuation ℚ,
          ¬(V.isTrue (floatingTest 0 .gt 0) = true ∧ V.isTrue (floatingTest 3 .lt 1) = true)) ∧
      opposite (floatingTest 0 .le 0) (floatingTest 3 .ge 1) = true ∧
        ¬∀ V : Valuation ℚ, V.isTrue (floatingTest 0 .le 0) = !V.isTrue (floatingTest 3 .ge 1) := by
  have hcompares (first : NodeId) (o : Order) (v : ℤ) : (floatingTest first o v).ComparesFloating 0 o v :=
    .literalRight rfl rfl rfl
  have hexclusive := (floating_verdicts_right_iff (hcompares 0 .gt 0) (hcompares 3 .lt 1)).1 rfl
  have hopposite := (floating_verdicts_right_iff (hcompares 0 .le 0) (hcompares 3 .ge 1)).2 rfl
  exact ⟨⟨rfl, fun h => hexclusive.mp h (by decide)⟩, rfl, fun h => hopposite.mp h (by decide)⟩

end ConditionLint
