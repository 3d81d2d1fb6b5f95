import ConditionLint.Proofs.LogicalPair

/-!
# Floating variables between neighbouring integers

Two comparisons of a floating variable with integer literals are sampled at integers only. A report that
they make a logical node constant is therefore right about every rational value, except when the node is
`x > v && x < v + 1` or `x <= v || x >= v + 1`, in either order of the operands.
-/

namespace ConditionLint

open ConditionLint.Tree

namespace Tree

/-- Whether the node is a variable of a floating type. -/
def isFloatingVariable (x : VarId) (t : Tree) : Bool :=
  match t.kind with
  | .identifier _ none => t.varId? = some x && t.hasType fun ty => ty.isFloat && !ty.isUnsigned
  | _ => false

/-- A condition compares a floating variable with an integer literal. The order is the one with the variable
on the left. -/
inductive ComparesFloating (x : VarId) (t : Tree) : Order → ℤ → Prop where
  | literalRight {o : Order} {a b : Tree} {v : ℤ} (hcomparison : t.comparison? = some (o, a, b))
      (ha : a.isFloatingVariable x = true) (hb : b.spelledInteger? = some v) : ComparesFloating x t o v
  | literalLeft {o : Order} {a b : Tree} {v : ℤ} (hcomparison : t.comparison? = some (o, b, a))
      (ha : a.isFloatingVariable x = true) (hb : b.spelledInteger? = some v) : ComparesFloating x t o.swap v

/-- A variable has the value that the valuation gives it. -/
theorem eval_of_isFloatingVariable {α : Type} [Ring α] [LinearOrder α] (V : Valuation α) {x : VarId}
    {t : Tree} (h : t.isFloatingVariable x = true) : V.eval t = V.var x := by
  unfold isFloatingVariable at h
  split at h
  · next name hkind =>
    obtain ⟨l, ts⟩ := t
    obtain ⟨hvar, -⟩ := Bool.and_eq_true_iff.mp h
    obtain ⟨y, hreferent, rfl⟩ := Option.map_eq_some_iff.mp (of_decide_eq_true hvar)
    exact V.eval_variable hkind hreferent
  · contradiction

/-- The type of a floating variable is floating and not unsigned. -/
theorem type_of_isFloatingVariable {x : VarId} {t : Tree} (h : t.isFloatingVariable x = true) :
    t.hasType CType.isFloat = true ∧ t.hasType CType.isUnsigned = false := by
  unfold isFloatingVariable at h
  split at h
  · obtain ⟨-, htype⟩ := Bool.and_eq_true_iff.mp h
    obtain ⟨ty, hty, hfloat⟩ := (Option.any_eq_true _ _).mp htype
    simpa [hasType, hty] using hfloat
  · contradiction

/-- A variable is no constant operand. -/
theorem constant?_of_isFloatingVariable {x : VarId} {t : Tree} (h : t.isFloatingVariable x = true) :
    t.constant? = none := by
  unfold isFloatingVariable at h
  split at h
  · next name hkind => simp [constant?, spelledConstant?, hkind]
  · contradiction

/-- An integer literal is a constant operand, which is unusable when it comes from a macro. -/
theorem constant?_of_spelledInteger? {t : Tree} {v : ℤ} (h : t.spelledInteger? = some v) :
    t.constant? = some .unusable ∨ ∃ text, t.constant? = some (.numeric (.int v) text false) := by
  unfold spelledInteger? at h
  split at h
  · next w text hkind =>
    obtain rfl := Option.some.inj h
    by_cases hmacro : t.label.fromMacro = true
    · exact Or.inl (by simp [constant?, spelledConstant?, hkind, hmacro])
    · exact Or.inr ⟨text, by simp [constant?, spelledConstant?, hkind, hmacro]⟩
  · contradiction

/-- An integer literal has a known value. -/
theorem spelledValue?_of_spelledInteger? {t : Tree} {v : ℤ} (h : t.spelledInteger? = some v) :
    t.spelledValue? = some v := by
  unfold spelledInteger? at h
  split at h
  · next w text hkind => simpa [spelledValue?, hkind, Literal.int?] using h
  · contradiction

/-- A node whose spelling is an integer has a value. -/
theorem hasValue_of_spelledInteger? {t : Tree} {v : ℤ} (h : t.spelledInteger? = some v) :
    t.hasValue = true := by
  unfold hasValue value?
  split
  · rfl
  · rw [spelledValue?_of_spelledInteger? h, Option.isSome_some]

namespace ComparesFloating

variable {x : VarId} {t u : Tree} {o : Order} {v : ℤ}

/-- The condition is true when the value of the variable compares with the literal. -/
theorem isTrue_eq_holds (h : t.ComparesFloating x o v) (V : Valuation ℚ) :
    V.isTrue t = o.holds (V.var x) (v : ℚ) := by
  cases h with
  | literalRight hcomparison ha hb =>
    obtain ⟨l, rfl, hkind⟩ := eq_node_of_comparison? hcomparison
    rw [V.isTrue_compare hkind, eval_of_isFloatingVariable V ha,
      V.eval_of_spelledValue? (spelledValue?_of_spelledInteger? hb)]
  | literalLeft hcomparison ha hb =>
    obtain ⟨l, rfl, hkind⟩ := eq_node_of_comparison? hcomparison
    rw [V.isTrue_compare hkind, eval_of_isFloatingVariable V ha,
      V.eval_of_spelledValue? (spelledValue?_of_spelledInteger? hb), Order.holds_swap]

/-- The condition is a comparison, one side of which has a known value. -/
theorem exists_node (h : t.ComparesFloating x o v) :
    ∃ l o' a b, t = node l [a, b] ∧ l.kind = .binary (.compare o') ∧ (a.hasValue || b.hasValue) = true := by
  cases h with
  | @literalRight o a b _ hcomparison _ hb =>
    obtain ⟨l, hnode, hkind⟩ := eq_node_of_comparison? hcomparison
    exact ⟨l, o, a, b, hnode, hkind, by simp [hasValue_of_spelledInteger? hb]⟩
  | @literalLeft o a b _ hcomparison _ hb =>
    obtain ⟨l, hnode, hkind⟩ := eq_node_of_comparison? hcomparison
    exact ⟨l, o, b, a, hnode, hkind, by simp [hasValue_of_spelledInteger? hb]⟩

/-- The condition is read as the test of the variable, unless the literal comes from a macro. -/
theorem comparisonOf?_cases (h : t.ComparesFloating x o v) :
    t.comparisonOf? = none ∨
      ∃ c, t.comparisonOf? = some c ∧ c.test = Test.ofInt o v false ∧ c.base.isFloatingVariable x = true := by
  have hbare : t.comparisonOf? = t.readBare false := by
    obtain ⟨l, o', a, b, rfl, hkind, -⟩ := h.exists_node
    rw [comparisonOf?, readNegated.eq_def]
    simp only [hkind]
  rw [hbare]
  cases h with
  | @literalRight o a b v hcomparison ha hb =>
    simp only [readBare, hcomparison, constant?_of_isFloatingVariable ha]
    rcases constant?_of_spelledInteger? hb with hconstant | ⟨text, hconstant⟩
    · exact Or.inl (by simp [hconstant, compareWith])
    · simp only [hconstant, compareWith]
      exact Or.inr ⟨_, rfl, rfl, ha⟩
  | @literalLeft o a b v hcomparison ha hb =>
    simp only [readBare, hcomparison]
    rcases constant?_of_spelledInteger? hb with hconstant | ⟨text, hconstant⟩
    · exact Or.inl (by simp [hconstant, compareWith])
    · simp only [hconstant, compareWith]
      exact Or.inr ⟨_, rfl, rfl, ha⟩

/-- The condition is no chain of connectives. -/
theorem lastOperand_eq (h : t.ComparesFloating x o v) (c : Connective) : t.lastOperand c = t := by
  obtain ⟨l, o', a, b, rfl, hkind, -⟩ := h.exists_node
  simp [lastOperand, binary?, hkind]

/-- The condition is no negation. -/
theorem negated?_eq (h : t.ComparesFloating x o v) : t.negated? = none := by
  obtain ⟨l, o', a, b, rfl, -, -⟩ := h.exists_node
  rfl

/-- The condition is no conjunction. -/
theorem conjuncts_eq (h : t.ComparesFloating x o v) : conjuncts t = [] := by
  obtain ⟨l, o', a, b, rfl, hkind, -⟩ := h.exists_node
  simp [conjuncts, isBinary, kind, label, hkind]

/-- The condition puts no relation on a difference, since it compares with a known value. -/
theorem differenceRelations?_eq (h : t.ComparesFloating x o v) (u : Tree) :
    differenceRelations? t u = none := by
  obtain ⟨l, o', a, b, rfl, hkind, hvalue⟩ := h.exists_node
  rw [Tree.differenceRelations?_eq, if_pos (by simp [comparesKnown, comparison?, binary?, hkind, hvalue])]

/-- A condition that is not read shares no relations with another. -/
theorem sharedRelations?_eq (h : t.ComparesFloating x o v) (hunread : t.comparisonOf? = none) (u : Tree) :
    sharedRelations? t u = none := by
  have hbase : baseRelations? t u = none := by simp [baseRelations?, hunread]
  simp [sharedRelations?, hbase, h.differenceRelations?_eq]

/-- Conditions of which the first is not read do not decide a connective. -/
theorem decides_eq_false {o' : Order} {w : ℤ} (h : t.ComparesFloating x o v)
    (hu : u.ComparesFloating x o' w) (hunread : t.comparisonOf? = none) (c : Connective) :
    decides c t u = false := by
  have hopposite : opposite t u = false := by
    simp [opposite, isNegationOf, h.negated?_eq, hu.negated?_eq, h.sharedRelations?_eq hunread]
  cases c with
  | and =>
    simp [decides, exclusive, clash, hopposite, h.conjuncts_eq, hu.conjuncts_eq,
      h.sharedRelations?_eq hunread]
  | or => exact hopposite

end ComparesFloating

end Tree

namespace Connective

/-- Whether two comparisons leave a gap between neighbouring integers in which they do not decide the
connective: `x > v && x < v + 1` is true there, and `x <= v || x >= v + 1` is false. -/
def LeavesGap : Connective → Order → ℤ → Order → ℤ → Prop
  | and, o₁, v, o₂, w => o₁.MeetInGap v o₂ w
  | or, o₁, v, o₂, w => o₁.negate.MeetInGap v o₂.negate w

instance (c : Connective) (o₁ : Order) (v : ℤ) (o₂ : Order) (w : ℤ) : Decidable (c.LeavesGap o₁ v o₂ w) :=
  match c with
  | and => inferInstanceAs (Decidable (o₁.MeetInGap v o₂ w))
  | or => inferInstanceAs (Decidable (o₁.negate.MeetInGap v o₂.negate w))

/-- Orderings that decide a connective at every integer decide it at every rational, if they leave no gap. -/
theorem forall_rat_eval_iff {c : Connective} {o₁ o₂ : Order} {v w : ℤ} (ho₁ : o₁.isEquality = false)
    (ho₂ : o₂.isEquality = false)
    (hint : ∀ x : ℤ, c.eval (o₁.holds x v) (o₂.holds x w) = c.decisive) :
    (∀ q : ℚ, c.eval (o₁.holds q (v : ℚ)) (o₂.holds q (w : ℚ)) = c.decisive) ↔
      ¬c.LeavesGap o₁ v o₂ w := by
  cases c with
  | and =>
    have heval (p q : Bool) : and.eval p q = and.decisive ↔ ¬(p = true ∧ q = true) := by
      cases p <;> cases q <;> decide
    simp only [heval] at hint ⊢
    rw [LeavesGap, ← Order.exists_rat_iff_meetInGap ho₁ ho₂ hint, not_exists]
  | or =>
    have heval (p q : Bool) : or.eval p q = or.decisive ↔ ¬((!p) = true ∧ (!q) = true) := by
      cases p <;> cases q <;> decide
    simp only [heval, ← Order.holds_negate] at hint ⊢
    rw [LeavesGap, ← Order.exists_rat_iff_meetInGap (by simpa) (by simpa) hint, not_exists]

end Connective

/-- A verdict on two comparisons of a floating variable rests on the sample points: it holds of every
integer, and is about orderings. -/
theorem eval_holds_of_floating_verdict {c : Connective} {lhs rhs : Tree} {truth : Bool} {x : VarId}
    {o₁ o₂ : Order} {v w : ℤ} (hlhs : lhs.ComparesFloating x o₁ v) (hrhs : rhs.ComparesFloating x o₂ w)
    (h : Verdict c lhs rhs truth) :
    truth = c.decisive ∧ o₁.isEquality = false ∧ o₂.isEquality = false ∧
      ∀ x : ℤ, c.eval (o₁.holds x v) (o₂.holds x w) = truth := by
  cases h with
  | decided hfloat hdecides _ =>
    rcases hlhs.comparisonOf?_cases with hunread | ⟨a, ha, -, hbase⟩
    · rw [hlhs.decides_eq_false hrhs hunread] at hdecides
      contradiction
    · have hnot := hfloat a (by rw [hlhs.lastOperand_eq, ha])
      simp [Comparison.isFloat, (type_of_isFloatingVariable hbase).1] at hnot
  | @sampled a b ha hb _ hequality hshows =>
    rw [hlhs.lastOperand_eq] at ha
    obtain ⟨a', ha', htest, hbase⟩ := hlhs.comparisonOf?_cases.resolve_left (by simp [ha])
    obtain ⟨b', hb', htest', -⟩ := hrhs.comparisonOf?_cases.resolve_left (by simp [hb])
    obtain rfl : a = a' := Option.some.inj (ha.symm.trans ha')
    obtain rfl : b = b' := Option.some.inj (hb.symm.trans hb')
    obtain ⟨hfloat, hsigned⟩ := type_of_isFloatingVariable hbase
    obtain ⟨heq₁, heq₂⟩ := hequality (by simp [Comparison.isFloat, hfloat])
    rw [hsigned, htest, htest'] at hshows
    obtain ⟨htruth, hall⟩ := eval_eq_of_showsAtPoints hshows
    rw [Comparison.isEquality, htest] at heq₁
    rw [Comparison.isEquality, htest'] at heq₂
    exact ⟨htruth, heq₁, heq₂, by simpa using hall⟩

/-- A report that two comparisons of a floating variable with integer literals make a logical node constant
is right about all rational values of the variable exactly when the comparisons leave no gap. -/
theorem floating_reports_right_iff {o : Options} {u : SourceUnit} {l : Ledger} {f : Finding} {p : Place}
    {c : Connective} {lhs rhs : Tree} {x : VarId} {o₁ o₂ : Order} {v w : ℤ}
    (hreport : f ∈ Check.logicalPair.reports o u l)
    (hrule : (f.diagnostic u).rule = "incorrectLogicOperator") (hsubjects : f.subjects = [p])
    (hnode : p.tree.binary? = some (.logic c, lhs, rhs))
    (hlhs : lhs.ComparesFloating x o₁ v) (hrhs : rhs.ComparesFloating x o₂ w) :
    (∀ V : Valuation ℚ, (f.diagnostic u).cwe = if V.isTrue p.tree then 571 else 570) ↔
      ¬c.LeavesGap o₁ v o₂ w := by
  obtain ⟨truth, hcwe, hverdict⟩ := verdict_of_mem_reports hreport hrule hsubjects hnode
  obtain ⟨rfl, ho₁, ho₂, hint⟩ := eval_holds_of_floating_verdict hlhs hrhs hverdict
  obtain ⟨l, htree, hkind⟩ := eq_node_of_binary? hnode
  have hvalue (V : Valuation ℚ) :
      V.isTrue p.tree = c.eval (o₁.holds (V.var x) (v : ℚ)) (o₂.holds (V.var x) (w : ℚ)) := by
    rw [htree, V.isTrue_logic hkind, hlhs.isTrue_eq_holds, hrhs.isTrue_eq_holds]
  have hright (truth : Bool) :
      (f.diagnostic u).cwe = (if truth then 571 else 570) ↔ truth = c.decisive := by
    rw [hcwe]
    cases truth <;> cases c.decisive <;> decide
  rw [← Connective.forall_rat_eval_iff ho₁ ho₂ hint]
  constructor
  · intro hall q
    exact (hvalue (.constant q)).symm.trans ((hright _).mp (hall (.constant q)))
  · intro hall V
    exact (hright _).mpr ((hvalue V).trans (hall (V.var x)))

/-- `x > 0 && x < 1` for a floating `x`. -/
def insideUnit : Tree :=
  let x : Variable := ⟨0, "x", .double, {}⟩
  ofOperator 6 (.logic .and) (ofOperator 2 (.compare .gt) (ofVariable 0 x) (ofInt 1 0))
    (ofOperator 5 (.compare .lt) (ofVariable 3 x) (ofInt 4 1))

/-- The condition is reported as always false, and is true of the rationals between zero and one. -/
theorem floating_reports_right_insideUnit :
    let u := SourceUnit.ofTree insideUnit
    ∃ f ∈ Check.logicalPair.reports {} u {}, f.subjects = [⟨insideUnit, []⟩] ∧
      (f.diagnostic u).cwe = 570 ∧
        ¬∀ V : Valuation ℚ, (f.diagnostic u).cwe = if V.isTrue insideUnit then 571 else 570 := by
  intro u
  obtain ⟨pair, hreports⟩ : ∃ pair, Check.logicalPair.reports {} u {} =
      [.constantLogic ⟨insideUnit, []⟩ pair false false] := ⟨_, rfl⟩
  have hmem := hreports ▸ List.mem_singleton_self (Finding.constantLogic ⟨insideUnit, []⟩ pair false false)
  have hiff := floating_reports_right_iff (x := 0) hmem rfl rfl rfl
    (.literalRight rfl (by decide) rfl) (.literalRight rfl (by decide) rfl)
  exact ⟨_, hmem, rfl, rfl, fun hright => hiff.mp hright (by decide)⟩

end ConditionLint
