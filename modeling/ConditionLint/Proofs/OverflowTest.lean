import ConditionLint.Proofs.ConstantCondition
import ConditionLint.Proofs.Likeness

/-!
# What becomes of tests for overflow

A test for overflow compares `e + d` or `e - d` with `e`. Where nothing overflows, the sum compares with `e` as `d`
does with zero, and the difference the other way round. So the comparison of `d` with zero is the test, whichever side
the sum is on. A constant takes its place for positive numbers, and for expressions of an unsigned type. These may be
zero, and then the constant is right for `>=` and `<` only.
-/

namespace ConditionLint

open ConditionLint.Tree

/-- Sums and differences are those of the integers. -/
structure Valuation.IsAdditive (V : Valuation ℤ) : Prop where
  add : ∀ x y, V.arith .add x y = x + y
  sub : ∀ x y, V.arith .sub x y = x - y

/-- The valuation with the given variables under which sums and differences are those of the integers, and all else is
zero. -/
def Valuation.ofSums (σ : VarId → ℤ) : Valuation ℤ where
  var := σ
  unary _ _ := 0
  arith
    | .add, x, y => x + y
    | .sub, x, y => x - y
    | _, _, _ => 0
  arith_comm op x y h := by cases op <;> simp_all [ArithOp.isCommutative, add_comm]
  other _ := 0

/-- Sums and differences are those of the integers. -/
theorem Valuation.isAdditive_ofSums (σ : VarId → ℤ) : (Valuation.ofSums σ).IsAdditive :=
  ⟨fun _ _ => rfl, fun _ _ => rfl⟩

/-- The order of an amount and zero that stands for the order of `e + amount`, or of `e - amount`, and `e`. -/
def Order.ofAmount (o : Order) (subtracts : Bool) : Order := if subtracts then o.swap else o

/-- Exchanging the sides of an ordering leaves an ordering. -/
theorem Order.isEquality_swap (o : Order) : o.swap.isEquality = o.isEquality := by
  cases o <;> rfl

/-- When a number is not negative, an ordering of it and zero is taken for a constant. The constant is wrong where the
number is zero and the ordering is `>` or `<=`. -/
theorem Order.holds_zero_eq_iff {o : Order} (ho : o.isEquality = false) {x : ℤ} (hx : 0 ≤ x) :
    o.holds x 0 = (o = .gt || o = .ge) ↔ (x = 0 → o = .ge ∨ o = .lt) := by
  have hpos : 0 < x ↔ x ≠ 0 := by omega
  cases o with
  | eq | ne => contradiction
  | gt | le => simp [holds, hpos]
  | ge | lt => simp [holds, hx]

namespace Tree

variable {t side e amount other : Tree} {order : Order} {subtracts : Bool} {effect : OverflowEffect} {V : Valuation ℤ}

/-- A node adds an amount to an expression, or subtracts it. -/
inductive Offsets (t e amount : Tree) : Bool → Prop where
  | right (hbinary : t.binary? = some (.arith .add, e, amount)) : Offsets t e amount false
  | left (hbinary : t.binary? = some (.arith .add, amount, e)) : Offsets t e amount false
  | difference (hbinary : t.binary? = some (.arith .sub, e, amount)) : Offsets t e amount true

/-- A sum compares with what the amount is added to as the amount does with zero. -/
theorem Offsets.holds_eval (h : t.Offsets e amount subtracts) (hV : V.IsAdditive) (o : Order) :
    o.holds (V.eval t) (V.eval e) = (o.ofAmount subtracts).holds (V.eval amount) 0 := by
  cases h with
  | right hbinary =>
    obtain ⟨l, rfl, hkind⟩ := eq_node_of_binary? hbinary
    rw [V.eval_arith hkind, hV.add, ← Order.holds_sub_zero, add_sub_cancel_left]
    rfl
  | left hbinary =>
    obtain ⟨l, rfl, hkind⟩ := eq_node_of_binary? hbinary
    rw [V.eval_arith hkind, hV.add, ← Order.holds_sub_zero, add_sub_cancel_right]
    rfl
  | difference hbinary =>
    obtain ⟨l, rfl, hkind⟩ := eq_node_of_binary? hbinary
    rw [V.eval_arith hkind, hV.sub, ← Order.holds_swap, ← Order.holds_sub_zero, sub_sub_cancel]
    rfl

/-- A condition compares a sum or a difference with another expression. The order is that of the sum to the expression,
whichever side it stands on. -/
inductive ComparesOffset (t e amount other : Tree) (order : Order) (subtracts : Bool) : Prop where
  | left {side : Tree} (hcomparison : t.comparison? = some (order, side, other))
      (hside : side.Offsets e amount subtracts) : ComparesOffset t e amount other order subtracts
  | right {side : Tree} (hcomparison : t.comparison? = some (order.swap, other, side))
      (hside : side.Offsets e amount subtracts) : ComparesOffset t e amount other order subtracts

/-- The condition is true when the amount compares with zero accordingly. -/
theorem ComparesOffset.isTrue_eq (h : t.ComparesOffset e amount other order subtracts) (hV : V.IsAdditive)
    (heval : V.eval e = V.eval other) :
    V.isTrue t = (order.ofAmount subtracts).holds (V.eval amount) 0 := by
  cases h with
  | left hcomparison hside =>
    obtain ⟨l, rfl, hkind⟩ := eq_node_of_comparison? hcomparison
    rw [V.isTrue_compare hkind, ← heval, hside.holds_eval hV]
  | right hcomparison hside =>
    obtain ⟨l, rfl, hkind⟩ := eq_node_of_comparison? hcomparison
    rw [V.isTrue_compare hkind, Order.holds_swap, ← heval, hside.holds_eval hV]

/-- A test for overflow orders a sum or a difference and an expression like the one that is added to. -/
structure IsOverflowTest (t e amount other : Tree) (order : Order) (subtracts : Bool) : Prop where
  compares : t.ComparesOffset e amount other order subtracts
  ordering : order.isEquality = false
  alike : same e other = true

/-- The amount is ordered with zero in a test for overflow, not tested for equality. -/
theorem IsOverflowTest.isEquality_ofAmount (h : t.IsOverflowTest e amount other order subtracts) :
    (order.ofAmount subtracts).isEquality = false := by
  cases subtracts with
  | false => exact h.ordering
  | true => exact (Order.isEquality_swap order).trans h.ordering

/-- Without doubled negations, the two expressions have the same value. -/
theorem IsOverflowTest.eval_eq (h : t.IsOverflowTest e amount other order subtracts) (he : e.Pure isSingle)
    (hother : other.Pure isSingle) (V : Valuation ℤ) : V.eval e = V.eval other :=
  V.eval_eq_of_same (fun _ hs => by simpa [isSingle] using hs) he hother h.alike

/-! ## What is found -/

/-- What is made of a comparison is made of the amount that one side adds or subtracts. -/
theorem of_overflowOf? (h : overflowOf? side other order = some effect) :
    ∃ e amount subtracts, side.Offsets e amount subtracts ∧ same e other = true ∧
      overflowEffect? amount subtracts order = some effect := by
  have hamount {e amount : Tree} {subtracts : Bool}
      (h : (if (!e.hasValue && same e other) = true then overflowEffect? amount subtracts order else none) =
        some effect) : same e other = true ∧ overflowEffect? amount subtracts order = some effect := by
    split at h
    · next hguard => exact ⟨(Bool.and_eq_true_iff.mp hguard).2, h⟩
    · contradiction
  unfold overflowOf? at h
  dsimp only at h
  split at h
  · split at h
    · next a b hbinary =>
      simp only [Option.orElse_eq_orElse, Option.orElse_eq_or, Option.or_eq_some_iff] at h
      rcases h with h | ⟨-, h⟩
      · exact ⟨a, b, false, .right hbinary, hamount h⟩
      · exact ⟨b, a, false, .left hbinary, hamount h⟩
    · next a b hbinary => exact ⟨a, b, true, .difference hbinary, hamount h⟩
    · contradiction
  · contradiction

/-- The order of the amount and zero makes a constant of the test, or it takes the place of the test. -/
theorem of_overflowEffect? (h : overflowEffect? amount subtracts order = some effect) :
    amount.isPositiveAmount = true ∧
        effect = .constant (order.ofAmount subtracts = .gt || order.ofAmount subtracts = .ge) ∨
      amount.isIdentifier = true ∧ effect = .signTest amount (order.ofAmount subtracts) := by
  unfold overflowEffect? at h
  dsimp only at h
  split at h
  · next hpositive => exact .inl ⟨hpositive, (Option.some.inj h).symm⟩
  · split at h
    · next hname => exact .inr ⟨(Bool.and_eq_true_iff.mp hname).1, (Option.some.inj h).symm⟩
    · contradiction

end Tree

/-- What is found at a place is about a test for overflow, seen from one of its sides. -/
theorem Place.of_mem_overflowTests {p : Place} {f : Finding} (h : f ∈ p.overflowTests) :
    ∃ e amount other order subtracts isPointer effect, p.tree.IsOverflowTest e amount other order subtracts ∧
      overflowEffect? amount subtracts order = some effect ∧ f = .overflowTest p isPointer effect := by
  have hside {side other : Tree} {order : Order} (h : f ∈ (p.overflowFinding? side other order).toList) :
      ∃ e amount subtracts isPointer effect, side.Offsets e amount subtracts ∧ same e other = true ∧
        overflowEffect? amount subtracts order = some effect ∧ f = .overflowTest p isPointer effect := by
    obtain ⟨effect, hfound, rfl⟩ := Option.map_eq_some_iff.mp (Option.mem_toList.mp h)
    obtain ⟨e, amount, subtracts, hoffsets, halike, heffect⟩ := of_overflowOf? hfound
    exact ⟨e, amount, subtracts, _, effect, hoffsets, halike, heffect, rfl⟩
  unfold overflowTests at h
  split at h
  · next order lhs rhs hcomparison =>
    split at h
    · contradiction
    · next hordering =>
      have hordering : order.isEquality = false := Bool.not_eq_true _ ▸ hordering
      rcases List.mem_append.mp h with h | h
      · obtain ⟨e, amount, subtracts, isPointer, effect, hoffsets, halike, hfound⟩ := hside h
        exact ⟨e, amount, rhs, order, subtracts, isPointer, effect,
          ⟨.left hcomparison hoffsets, hordering, halike⟩, hfound⟩
      · obtain ⟨e, amount, subtracts, isPointer, effect, hoffsets, halike, hfound⟩ := hside h
        rw [← Order.swap_swap order] at hcomparison
        exact ⟨e, amount, lhs, order.swap, subtracts, isPointer, effect,
          ⟨.right hcomparison hoffsets, (Order.isEquality_swap order).trans hordering, halike⟩, hfound⟩
  · contradiction

/-- What is reported is about a test for overflow. -/
theorem exists_overflowTest_of_mem_reports {o : Options} {u : SourceUnit} {l : Ledger} {p : Place} {isPointer : Bool}
    {effect : OverflowEffect} (h : .overflowTest p isPointer effect ∈ Check.overflowTest.reports o u l) :
    ∃ e amount other order subtracts, p.tree.IsOverflowTest e amount other order subtracts ∧
      overflowEffect? amount subtracts order = some effect := by
  obtain ⟨_, q, -, hfound⟩ := Check.exists_of_mem_reports h
  obtain ⟨e, amount, other, order, subtracts, _, _, htest, heffect, heq⟩ := Place.of_mem_overflowTests hfound
  obtain ⟨rfl, -, rfl⟩ := Finding.overflowTest.inj heq
  exact ⟨e, amount, other, order, subtracts, htest, heffect⟩

/-! ## Tests of the sign -/

namespace Tree

/-- The comparison of an expression with zero. -/
def comparedWithZero (y : Tree) (order : Order) : Tree := ofOperator 1 (.compare order) y (ofInt 0 0)

/-- The text of the comparison of a name with zero. -/
theorem text_comparedWithZero {y : Tree} (hy : y.isIdentifier = true) (order : Order) :
    (y.comparedWithZero order).text = y.text ++ " " ++ order.symbol ++ " 0" := by
  have htight : y.precedence = 16 := by
    unfold isIdentifier at hy
    split at hy
    · next hkind => simp [precedence, hkind]
    · contradiction
  have hleast : ¬16 < (operandPrecedences (.compare order)).1 := by cases order <;> decide
  have hzero : (ofInt 0 0).enclose (operandPrecedences (.compare order)).2 (ofInt 0 0).text = "0" := by
    cases order <;> decide
  change y.enclose _ y.text ++ (" " ++ order.symbol ++ " ") ++ _ = _
  rw [hzero, enclose, htight, if_neg hleast, show " 0" = " " ++ "0" by decide]
  simp only [String.append_assoc]

end Tree

/-- The comparison with zero is true when the value compares so. -/
theorem Valuation.isTrue_comparedWithZero (V : Valuation ℤ) (y : Tree) (order : Order) :
    V.isTrue (y.comparedWithZero order) = order.holds (V.eval y) 0 := by
  have hzero : V.eval (ofInt 0 0) = 0 := V.eval_of_spelledNumber? rfl
  rw [comparedWithZero, ofOperator, plain, V.isTrue_compare rfl, hzero]

/-- When a test for overflow is reported to become a comparison with zero, both are true for the same values, as long as
nothing overflows. The expressions that are taken for the same have to have the same value, and they do if there are no
doubled negations in them. -/
theorem overflow_rewrites_right {o : Options} {u : SourceUnit} {l : Ledger} {p : Place} {isPointer : Bool} {y : Tree}
    {order' : Order} (hf : .overflowTest p isPointer (.signTest y order') ∈ Check.overflowTest.reports o u l) :
    (Finding.diagnostic u (.overflowTest p isPointer (.signTest y order'))).message =
        "Invalid test for overflow " ++ quoted p.text ++ "; " ++
          (if isPointer then "pointer overflow" else "signed integer overflow") ++ " is undefined behavior." ++
          (" Some mainstream compilers removes handling of overflows when optimising the code and change the code to "
            ++ quoted (y.comparedWithZero order').text ++ ".") ∧
      ∃ e other order subtracts, p.tree.IsOverflowTest e y other order subtracts ∧
        (e.Pure isSingle → other.Pure isSingle → ∀ V : Valuation ℤ, V.eval e = V.eval other) ∧
        ∀ V : Valuation ℤ, V.IsAdditive → V.eval e = V.eval other →
          V.isTrue p.tree = V.isTrue (y.comparedWithZero order') := by
  obtain ⟨e, amount, other, order, subtracts, htest, heffect⟩ := exists_overflowTest_of_mem_reports hf
  obtain ⟨-, heq⟩ | ⟨hname, heq⟩ := of_overflowEffect? heffect
  · contradiction
  obtain ⟨rfl, rfl⟩ := OverflowEffect.signTest.inj heq
  refine ⟨?_, e, other, order, subtracts, htest, htest.eval_eq, fun V hV heval => ?_⟩
  · rw [text_comparedWithZero hname]
    rfl
  · rw [htest.compares.isTrue_eq hV heval, V.isTrue_comparedWithZero]

/-- The test `x < x - y`. -/
def lessThanDifference : Tree :=
  ofOperator 4 (.compare .lt) (ofVariable 0 (.onStack 0 "x" .int))
    (plain 3 (.binary (.arith .sub)) .int none
      [ofVariable 1 (.onStack 0 "x" .int), ofVariable 2 (.onStack 1 "y" .int)])

/-- The order is turned around twice: the difference stands on the right, and it gets less as `y` gets greater. -/
theorem overflow_rewrites_right_lessThanDifference :
    ∃ f ∈ Check.overflowTest.reports {} (.ofTree lessThanDifference) {},
      (f.diagnostic (.ofTree lessThanDifference)).message =
        "Invalid test for overflow 'x < x - y'; signed integer overflow is undefined behavior. Some mainstream " ++
          "compilers removes handling of overflows when optimising the code and change the code to 'y < 0'." ∧
      ∀ V : Valuation ℤ, V.IsAdditive → V.isTrue lessThanDifference = decide (V.var 1 < 0) := by
  have hf : .overflowTest ((SourceUnit.ofTree lessThanDifference).placeOf lessThanDifference) false
      (.signTest (ofVariable 2 (.onStack 1 "y" .int)) .lt) ∈
        Check.overflowTest.reports {} (.ofTree lessThanDifference) {} := List.mem_of_getElem? (i := 0) rfl
  obtain ⟨hmessage, e, other, order, subtracts, ⟨hcompares, -, -⟩, -, htrue⟩ := overflow_rewrites_right hf
  refine ⟨_, hf, hmessage.trans (by decide +kernel), fun V hV => ?_⟩
  have heval : V.eval e = V.eval other := by
    cases hcompares with
    | left hcomparison hside =>
      cases hcomparison
      rcases hside with hbinary | hbinary | hbinary <;> cases hbinary
    | right hcomparison hside =>
      obtain ⟨-, hsides⟩ := Prod.mk.inj (Option.some.inj hcomparison)
      cases hsides
      rcases hside with hbinary | hbinary | hbinary <;> cases hbinary
      rfl
  have hright := htrue V hV heval
  rwa [V.isTrue_comparedWithZero] at hright

/-! ## Constants -/

/-- The facts about an expression are true, and its value is not negative if its type is unsigned. -/
structure Valuation.Suits (V : Valuation ℤ) (t : Tree) : Prop where
  confirms : V.Confirms t
  nonneg : (t.hasType fun ty => ty.isIntegral && ty.isUnsigned) = true → 0 ≤ V.eval t

namespace Valuation.Suits

variable {V : Valuation ℤ} {amount : Tree}

/-- A number that counts as positive is positive. -/
theorem pos_of_isNumber (h : V.Suits amount) (hpositive : amount.isPositiveAmount = true)
    (hnumber : amount.isNumber = true) : 0 < V.eval amount := by
  rw [isPositiveAmount, if_pos hnumber] at hpositive
  obtain ⟨v, hv, hpos⟩ := (Option.any_eq_true _ _).mp hpositive
  rw [h.confirms.eval_of_value? hv]
  exact of_decide_eq_true hpos

/-- What counts as a positive amount is not negative. -/
theorem nonneg_of_isPositiveAmount (h : V.Suits amount) (hpositive : amount.isPositiveAmount = true) :
    0 ≤ V.eval amount := by
  by_cases hnumber : amount.isNumber = true
  · exact (h.pos_of_isNumber hpositive hnumber).le
  · rw [isPositiveAmount, if_neg hnumber] at hpositive
    exact h.nonneg hpositive

end Valuation.Suits

/-- When a test for overflow is reported to be a constant, the constant is right wherever the amount is not zero. Where
it is zero, the constant is right exactly when the test asks whether the amount is at least zero, or whether it is less.
Numbers that count as amounts are positive, so for them the constant is always right. -/
theorem overflow_constants_right_iff {o : Options} {u : SourceUnit} {l : Ledger} {p : Place} {isPointer truth : Bool}
    (hf : .overflowTest p isPointer (.constant truth) ∈ Check.overflowTest.reports o u l) :
    (Finding.diagnostic u (.overflowTest p isPointer (.constant truth))).message =
        "Invalid test for overflow " ++ quoted p.text ++ "; " ++
          (if isPointer then "pointer overflow" else "signed integer overflow") ++ " is undefined behavior." ++
          (" Some mainstream compilers remove such overflow tests when optimising the code and assume it's always " ++
            truthText truth ++ ".") ∧
      ∃ e amount other order subtracts, p.tree.IsOverflowTest e amount other order subtracts ∧
        amount.isPositiveAmount = true ∧
        (e.Pure isSingle → other.Pure isSingle → ∀ V : Valuation ℤ, V.eval e = V.eval other) ∧
        ∀ V : Valuation ℤ, V.IsAdditive → V.eval e = V.eval other → V.Suits amount →
          (V.isTrue p.tree = truth ↔
            (V.eval amount = 0 → order.ofAmount subtracts = .ge ∨ order.ofAmount subtracts = .lt)) ∧
          (amount.isNumber = true → V.isTrue p.tree = truth) := by
  obtain ⟨e, amount, other, order, subtracts, htest, heffect⟩ := exists_overflowTest_of_mem_reports hf
  obtain ⟨hpositive, heq⟩ | ⟨-, heq⟩ := of_overflowEffect? heffect
  swap
  · contradiction
  obtain rfl := OverflowEffect.constant.inj heq
  refine ⟨rfl, e, amount, other, order, subtracts, htest, hpositive, htest.eval_eq, fun V hV heval hsuits => ?_⟩
  rw [htest.compares.isTrue_eq hV heval]
  have hiff := Order.holds_zero_eq_iff htest.isEquality_ofAmount (hsuits.nonneg_of_isPositiveAmount hpositive)
  refine ⟨hiff, fun hnumber => hiff.mpr fun hzero => ?_⟩
  exact absurd hzero (hsuits.pos_of_isNumber hpositive hnumber).ne'

/-- The test `x + c > x`, with a character `c` that has no sign. -/
def increasedByCharacter : Tree :=
  ofOperator 4 (.compare .gt)
    (plain 2 (.binary (.arith .add)) .int none
      [ofVariable 0 (.onStack 0 "x" .int), ofVariable 1 (.onStack 1 "c" { CType.char with sign := .unsigned })])
    (ofVariable 3 (.onStack 0 "x" .int))

/-- The test is reported to be always true, and it is false when `c` is zero. -/
theorem overflow_constants_right_iff_increasedByCharacter :
    ∃ f ∈ Check.overflowTest.reports {} (.ofTree increasedByCharacter) {},
      (f.diagnostic (.ofTree increasedByCharacter)).message =
        "Invalid test for overflow 'x + c > x'; signed integer overflow is undefined behavior. Some mainstream " ++
          "compilers remove such overflow tests when optimising the code and assume it's always true." ∧
      (∀ V : Valuation ℤ, V.IsAdditive → 0 ≤ V.var 1 → (V.isTrue increasedByCharacter = true ↔ V.var 1 ≠ 0)) ∧
      (Valuation.ofSums fun _ => 0).isTrue increasedByCharacter = false := by
  have hf : .overflowTest ((SourceUnit.ofTree increasedByCharacter).placeOf increasedByCharacter) false
      (.constant true) ∈ Check.overflowTest.reports {} (.ofTree increasedByCharacter) {} :=
    List.mem_of_getElem? (i := 0) rfl
  obtain ⟨hmessage, e, amount, other, order, subtracts, ⟨hcompares, -, halike⟩, -, -, hiff⟩ :=
    overflow_constants_right_iff hf
  have htrue (V : Valuation ℤ) (hV : V.IsAdditive) (hc : 0 ≤ V.var 1) :
      V.isTrue increasedByCharacter = true ↔ V.var 1 ≠ 0 := by
    cases hcompares with
    | left hcomparison hside =>
      cases hcomparison
      rcases hside with hbinary | hbinary | hbinary <;> cases hbinary
      · have hsuits : V.Suits (ofVariable 1 (.onStack 1 "c" { CType.char with sign := .unsigned })) :=
          ⟨by simp [ofVariable, plain, Valuation.confirms_node_iff], fun _ => hc⟩
        refine (hiff V hV rfl hsuits).1.trans ?_
        simp [Order.ofAmount, ofVariable, plain, Valuation.eval, Variable.onStack]
      -- `c` is not like `x`, so that `x` is not the amount.
      · exact absurd halike (by decide +kernel)
    | right hcomparison hside =>
      obtain ⟨-, hsides⟩ := Prod.mk.inj (Option.some.inj hcomparison)
      cases hsides
      rcases hside with hbinary | hbinary | hbinary <;> cases hbinary
  refine ⟨_, hf, hmessage.trans (by decide +kernel), htrue, ?_⟩
  exact Bool.eq_false_iff.mpr fun h => (htrue _ (Valuation.isAdditive_ofSums _) le_rfl).mp h rfl

end ConditionLint
