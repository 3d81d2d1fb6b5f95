import ConditionLint.Proofs.InnerCondition
import ConditionLint.Proofs.Order
import ConditionLint.Proofs.Reports

/-!
# Comparisons that a range decides

A value at the edge of a range or outside of it settles some comparisons, and the verdicts are exact: they are given
if and only if all numbers of the range agree. The range of a type holds the numbers that its bit patterns stand for.

The remainders of a divisor are the numbers that are closer to zero than the divisor is. So a positive divisor is
greater than all of them, while a negative one is less, and a comparison with a number that is not below a negative
divisor may have either result.
-/

namespace ConditionLint

open ConditionLint.Tree

/-! ## Verdicts from a range -/

namespace RangeTest

/-- Whether the comparison is true of an expression with the given value. -/
def holdsFor (t : RangeTest) (e : ℤ) : Bool :=
  if t.valueOnLeft then t.order.holds t.value e else t.order.holds e t.value

variable {t : RangeTest} {low high e : ℤ} {truth : Bool}

/-- The comparison is true when the order towards the constant holds. -/
theorem holdsFor_eq (t : RangeTest) (e : ℤ) : t.holdsFor e = t.towards.holds e t.value := by
  unfold holdsFor towards
  split
  · rw [Order.holds_swap]
  · rfl

/-- The comparison has a truth value when the order affirmed with it holds. -/
theorem holdsFor_eq_iff : t.holdsFor e = truth ↔ (t.towards.affirm truth).holds e t.value = true := by
  rw [holdsFor_eq, Order.holds_affirm]

/-- When a verdict is given. It is stated by the comparison that is then always true. -/
theorem truth?_eq_some_iff (hrange : low ≤ high) : t.truth? low high = some truth ↔
    match t.towards.affirm truth with
    | .eq => False
    | .ne => t.value < low ∨ high < t.value
    | .lt => high < t.value
    | .le => high ≤ t.value
    | .gt => t.value < low
    | .ge => t.value ≤ low := by
  unfold truth?
  split
  · next houtside =>
    simp only [Bool.or_eq_true, decide_eq_true_eq] at houtside
    cases t.towards <;> cases truth <;> simp [Order.affirm, Order.negate] <;> omega
  · next hinside =>
    simp only [Bool.or_eq_true, decide_eq_true_eq] at hinside
    cases t.towards <;> cases truth <;> simp [Order.affirm, Order.negate] <;> omega

/-- A verdict is right for every number of the range. -/
theorem holdsFor_of_truth? (h : t.truth? low high = some truth) (hlow : low ≤ e) (hhigh : e ≤ high) :
    t.holdsFor e = truth := by
  rw [truth?_eq_some_iff (hlow.trans hhigh)] at h
  rw [holdsFor_eq_iff]
  generalize t.towards.affirm truth = order at h ⊢
  cases order <;> simp [Order.holds] at h ⊢ <;> omega

/-- A verdict is given if all numbers of the range agree. The two bounds and the value itself show it. -/
theorem truth?_of_holdsFor (hrange : low < high)
    (h : ∀ e, low ≤ e → e ≤ high → t.holdsFor e = truth) : t.truth? low high = some truth := by
  have hlow := h low le_rfl hrange.le
  have hhigh := h high hrange.le le_rfl
  have hvalue := h t.value
  rw [holdsFor_eq_iff] at hlow hhigh hvalue
  rw [truth?_eq_some_iff hrange.le]
  generalize t.towards.affirm truth = order at hlow hhigh hvalue ⊢
  cases order <;> simp [Order.holds] at hlow hhigh hvalue ⊢ <;> omega

/-- The verdicts are exact. -/
theorem truth?_eq_some_iff_forall (hrange : low < high) :
    t.truth? low high = some truth ↔ ∀ e, low ≤ e → e ≤ high → t.holdsFor e = truth :=
  ⟨fun h _ hlow hhigh => holdsFor_of_truth? h hlow hhigh, truth?_of_holdsFor hrange⟩

/-- No verdict is given where both results occur. -/
theorem truth?_eq_none_iff (hrange : low < high) : t.truth? low high = none ↔
    ∀ truth, ∃ e, low ≤ e ∧ e ≤ high ∧ t.holdsFor e = truth := by
  constructor
  · intro hnone truth
    by_contra hnot
    have hsettled : t.truth? low high = some (!truth) := truth?_of_holdsFor hrange fun e hlow hhigh =>
      Bool.eq_not_of_ne fun heq => hnot ⟨e, hlow, hhigh, heq⟩
    simp [hnone] at hsettled
  · intro hboth
    by_contra hsome
    obtain ⟨truth, htruth⟩ := Option.ne_none_iff_exists'.mp hsome
    obtain ⟨e, hlow, hhigh, he⟩ := hboth !truth
    simp [holdsFor_of_truth? htruth hlow hhigh] at he

end RangeTest

/-! ## Ranges of types -/

namespace CType

/-- Whether the values of the type are not negative: those of unsigned types, and truth values. -/
def isSignless (t : CType) : Bool := t.base = .bool || t.sign = .unsigned

/-- The number that a bit pattern stands for, in two's complement where there are negative numbers. -/
def valueOf (t : CType) {w : ℕ} (pattern : BitVec w) : ℤ := if t.isSignless then pattern.toNat else pattern.toInt

variable {t : CType} {p : Platform} {low high : ℤ}

/-- The least and the greatest value of a type come from its width. -/
theorem of_range? (h : t.range? p = some (low, high)) : ∃ w, t.width? p = some w ∧ 0 < w ∧ w < 64 ∧
    (t.isSignless = true ∧ low = 0 ∧ high = 2 ^ w - 1 ∨
      t.isSignless = false ∧ low = -2 ^ (w - 1) ∧ high = 2 ^ (w - 1) - 1) := by
  obtain ⟨w, hw, h⟩ := Option.bind_eq_some_iff.mp h
  split at h
  · contradiction
  · next hwidth =>
    simp only [Bool.or_eq_true, decide_eq_true_eq, not_or, not_le] at hwidth
    refine ⟨w, hw, Nat.pos_of_ne_zero hwidth.1, hwidth.2, ?_⟩
    split at h
    · next hsignless =>
      obtain ⟨rfl, rfl⟩ := Prod.mk.inj (Option.some.inj h)
      exact Or.inl ⟨hsignless, rfl, rfl⟩
    · next hsignless =>
      split at h
      · obtain ⟨rfl, rfl⟩ := Prod.mk.inj (Option.some.inj h)
        refine Or.inr ⟨Bool.eq_false_iff.mpr hsignless, rfl, ?_⟩
        obtain ⟨k, rfl⟩ := Nat.exists_eq_succ_of_ne_zero hwidth.1
        change ((2 : ℤ) ^ (k + 1) - 1) / 2 = 2 ^ k - 1
        rw [pow_succ]
        omega
      · contradiction

/-- The numbers that bit patterns stand for without sign. -/
theorem exists_toNat_eq_iff {w : ℕ} {x : ℤ} : (∃ v : BitVec w, (v.toNat : ℤ) = x) ↔ 0 ≤ x ∧ x ≤ 2 ^ w - 1 := by
  constructor
  · rintro ⟨v, rfl⟩
    have hlt : (v.toNat : ℤ) < 2 ^ w := by exact_mod_cast v.isLt
    omega
  · rintro ⟨hlow, hhigh⟩
    obtain ⟨n, rfl⟩ := Int.eq_ofNat_of_zero_le hlow
    have hlt : n < 2 ^ w := by
      have : (n : ℤ) < 2 ^ w := by omega
      exact_mod_cast this
    exact ⟨BitVec.ofNat w n, by rw [BitVec.toNat_ofNat, Nat.mod_eq_of_lt hlt]⟩

/-- The numbers that bit patterns stand for in two's complement. -/
theorem exists_toInt_eq_iff {w : ℕ} (hw : 0 < w) {x : ℤ} :
    (∃ v : BitVec w, v.toInt = x) ↔ -2 ^ (w - 1) ≤ x ∧ x ≤ 2 ^ (w - 1) - 1 := by
  constructor
  · rintro ⟨v, rfl⟩
    exact ⟨v.le_toInt, Int.le_sub_one_of_lt BitVec.toInt_lt⟩
  · rintro ⟨hlow, hhigh⟩
    exact ⟨BitVec.ofInt w x, BitVec.toInt_ofInt_eq_self hw hlow (Int.lt_of_le_sub_one hhigh)⟩

/-- The range of a type holds the numbers that its bit patterns stand for. -/
theorem mem_range_iff {w : ℕ} (h : t.range? p = some (low, high)) (hw : t.width? p = some w) (x : ℤ) :
    low ≤ x ∧ x ≤ high ↔ ∃ v : BitVec w, t.valueOf v = x := by
  obtain ⟨w', hw', hpos, -, hcases⟩ := of_range? h
  obtain rfl : w = w' := Option.some.inj (hw.symm.trans hw')
  rcases hcases with ⟨hsignless, rfl, rfl⟩ | ⟨hsigned, rfl, rfl⟩
  · simp only [valueOf, hsignless, if_true, exists_toNat_eq_iff]
  · simp only [valueOf, hsigned, exists_toInt_eq_iff hpos, Bool.false_eq_true, if_false]

/-- Every range holds more than one number. -/
theorem low_lt_high (h : t.range? p = some (low, high)) : low < high := by
  obtain ⟨w, -, hpos, -, hcases⟩ := of_range? h
  obtain ⟨k, rfl⟩ := Nat.exists_eq_succ_of_ne_zero hpos.ne'
  have hk : (0 : ℤ) < 2 ^ k := by positivity
  rcases hcases with ⟨-, rfl, rfl⟩ | ⟨-, rfl, rfl⟩
  · rw [Nat.succ_eq_add_one, pow_succ]
    omega
  · rw [Nat.succ_sub_one]
    omega

/-- A number has a representation in two's complement with the given width. -/
def FitsIn (bits : ℕ) (x : ℤ) : Prop := ∃ v : BitVec bits, v.toInt = x

/-- The bounds of a range, and the numbers from which they are computed, fit into 128 bits. -/
theorem fitsIn_of_range? {w : ℕ} (h : t.range? p = some (low, high)) (hw : t.width? p = some w) :
    ∀ x ∈ rangeNumbers w low high, FitsIn 128 x := by
  obtain ⟨w', hw', hpos, hwidth, hcases⟩ := of_range? h
  obtain rfl : w = w' := Option.some.inj (hw.symm.trans hw')
  have hpow : (2 : ℤ) ^ w ≤ 2 ^ 63 := pow_le_pow_right₀ (by decide) (by omega)
  have hhalf : (0 : ℤ) < 2 ^ (w - 1) ∧ (2 : ℤ) ^ (w - 1) ≤ 2 ^ w :=
    ⟨by positivity, pow_le_pow_right₀ (by decide) (by omega)⟩
  have hbounds : -2 ^ (w - 1) ≤ low ∧ low ≤ 0 ∧ 0 ≤ high ∧ high < 2 ^ w := by omega
  intro x hx
  rw [FitsIn, exists_toInt_eq_iff (by decide)]
  change x ∈ [2 ^ w, 2 ^ w - 1, (2 ^ w - 1) / 2, 2 ^ (w - 1), -2 ^ (w - 1), low, high] at hx
  simp only [List.mem_cons, List.not_mem_nil, or_false] at hx
  omega

end CType

/-- Where a type has a range on a platform, the range holds exactly the numbers that the bit patterns of its width
stand for, and its bounds are computed within 128 bits. A comparison with a value, on either side, gets a verdict
exactly when it is right for all numbers of the range, and otherwise both results occur. -/
theorem type_ranges_exact {t : CType} {p : Platform} {low high : ℤ} (h : t.range? p = some (low, high)) :
    (∃ w, t.width? p = some w ∧ (∀ x, low ≤ x ∧ x ≤ high ↔ ∃ v : BitVec w, t.valueOf v = x) ∧
      ∀ x ∈ CType.rangeNumbers w low high, CType.FitsIn 128 x) ∧
      low < high ∧
      ∀ test : RangeTest,
        (∀ truth, test.truth? low high = some truth ↔
          ∀ e, low ≤ e → e ≤ high → test.holdsFor e = truth) ∧
        (test.truth? low high = none ↔ ∀ truth, ∃ e, low ≤ e ∧ e ≤ high ∧ test.holdsFor e = truth) := by
  have hlt := CType.low_lt_high h
  obtain ⟨w, hw, -⟩ := CType.of_range? h
  refine ⟨⟨w, hw, CType.mem_range_iff h hw, CType.fitsIn_of_range? h hw⟩, hlt, fun test => ⟨fun truth => ?_, ?_⟩⟩
  · exact RangeTest.truth?_eq_some_iff_forall hlt
  · exact RangeTest.truth?_eq_none_iff hlt

/-- Signed characters of 8 bits have the values from -128 to 127. So `-128 <= c` is always true, whereas `-127 <= c`
has either result. -/
theorem type_ranges_exact_signedChar :
    CType.char.range? .unix64 = some (-128, 127) ∧
      (∀ x, -128 ≤ x ∧ x ≤ 127 ↔ ∃ v : BitVec 8, CType.char.valueOf v = x) ∧
      (∀ e, -128 ≤ e → e ≤ 127 → (⟨.le, -128, true⟩ : RangeTest).holdsFor e = true) ∧
      ∀ truth, ∃ e, -128 ≤ e ∧ e ≤ 127 ∧ (⟨.le, -127, true⟩ : RangeTest).holdsFor e = truth := by
  have hrange : CType.char.range? .unix64 = some (-128, 127) := by decide
  obtain ⟨⟨w, hw, hvalues, -⟩, -, hverdicts⟩ := type_ranges_exact hrange
  obtain rfl : 8 = w := Option.some.inj hw
  exact ⟨hrange, hvalues, ((hverdicts _).1 true).mp (by decide), (hverdicts _).2.mp (by decide)⟩

/-! ## Remainders -/

/-- The remainders of a divisor are the numbers that are closer to zero. -/
theorem exists_tmod_eq_iff {n e : ℤ} (hn : n ≠ 0) : (∃ x : ℤ, x.tmod n = e) ↔ e.natAbs < n.natAbs := by
  constructor
  · rintro ⟨x, rfl⟩
    rw [Int.natAbs_tmod]
    exact Nat.mod_lt _ (Int.natAbs_pos.mpr hn)
  · intro he
    refine ⟨e, ?_⟩
    obtain ⟨k, rfl | rfl⟩ := n.eq_nat_or_neg <;> obtain ⟨m, rfl | rfl⟩ := e.eq_nat_or_neg <;>
      simp_all [Int.neg_tmod, Int.tmod_neg, ← Int.ofNat_tmod, Nat.mod_eq_of_lt]

/-- All remainders are less than the divisor exactly when it is positive. -/
theorem forall_tmod_lt_iff {n : ℤ} : (∀ x : ℤ, x.tmod n < n) ↔ 0 < n := by
  refine ⟨fun h => ?_, fun hpos x => Int.tmod_lt_of_pos x hpos⟩
  have := h 0
  rwa [Int.zero_tmod] at this

namespace RangeTest

variable {t : RangeTest} {n : ℤ}

/-- A value outside of the range settles every comparison. -/
theorem exists_truth?_of_outside {low high : ℤ} (h : t.value < low ∨ high < t.value) :
    ∃ truth, t.truth? low high = some truth := by
  rw [truth?, if_pos (by simpa using h)]
  cases t.towards <;> exact ⟨_, rfl⟩

/-- A comparison has one result for all remainders when it has that result for all numbers closer to zero than the
divisor. -/
theorem forall_remainders_iff (hn : n ≠ 0) {truth : Bool} :
    (∀ x : ℤ, t.holdsFor (x.tmod n) = truth) ↔
      ∀ e : ℤ, 1 - (n.natAbs : ℤ) ≤ e → e ≤ (n.natAbs : ℤ) - 1 → t.holdsFor e = truth := by
  constructor
  · intro h e hlow hhigh
    obtain ⟨x, rfl⟩ := (exists_tmod_eq_iff hn).mpr (show e.natAbs < n.natAbs by omega)
    exact h x
  · intro h x
    have hx := (exists_tmod_eq_iff hn).mp ⟨x, rfl⟩
    exact h _ (by omega) (by omega)

/-- The comparison of a remainder with a number that is not below the divisor has a fixed result if the divisor is
positive. Otherwise the result is fixed when there is one remainder only, or the range of the remainders settles it. -/
theorem predetermined_iff (hn : n ≠ 0) (hvalue : n ≤ t.value) :
    (∃ truth, ∀ x : ℤ, t.holdsFor (x.tmod n) = truth) ↔
      0 < n ∨ n = -1 ∨ ∃ truth, t.truth? (n + 1) (-n - 1) = some truth := by
  simp only [forall_remainders_iff hn]
  by_cases hpos : 0 < n
  · obtain ⟨truth, htruth⟩ := exists_truth?_of_outside (t := t) (Or.inr (show (n.natAbs : ℤ) - 1 < t.value by omega))
    exact iff_of_true ⟨truth, fun e hlow hhigh => holdsFor_of_truth? htruth hlow hhigh⟩ (Or.inl hpos)
  by_cases hone : n = -1
  · refine iff_of_true ⟨t.holdsFor 0, fun e hlow hhigh => ?_⟩ (Or.inr (Or.inl hone))
    rw [show e = 0 by omega]
  · have hlow : 1 - (n.natAbs : ℤ) = n + 1 := by omega
    have hhigh : (n.natAbs : ℤ) - 1 = -n - 1 := by omega
    simp only [hlow, hhigh, hpos, hone, false_or, truth?_eq_some_iff_forall (show n + 1 < -n - 1 by omega)]

end RangeTest

namespace Tree

variable {t lhs rhs divisor number : Tree}

/-- The divisor of a node is the second operand of a remainder. -/
theorem of_divisor? (h : t.divisor? = some divisor) :
    ∃ dividend, t.binary? = some (.arith .rem, dividend, divisor) := by
  unfold divisor? at h
  split at h
  · next dividend _ hbinary =>
    obtain rfl := Option.some.inj h
    exact ⟨dividend, hbinary⟩
  · contradiction

/-- One side is the remainder, and the other one is the number. -/
theorem of_remainderTest? (h : remainderTest? lhs rhs = some (divisor, number)) :
    lhs.divisor? = some divisor ∧ rhs = number ∨ rhs.divisor? = some divisor ∧ lhs = number := by
  unfold remainderTest? at h
  split at h
  · next hlhs =>
    split at h
    · obtain ⟨rfl, rfl⟩ := Prod.mk.inj (Option.some.inj h)
      exact Or.inl ⟨hlhs, rfl⟩
    · contradiction
  · next hrhs =>
    split at h
    · obtain ⟨rfl, rfl⟩ := Prod.mk.inj (Option.some.inj h)
      exact Or.inr ⟨hrhs, rfl⟩
    · contradiction
  · contradiction

/-- The number is spelled out, as the divisor is, and not below it. -/
theorem of_reachedDivisor? (h : reachedDivisor? lhs rhs = some divisor) :
    ∃ number n m, remainderTest? lhs rhs = some (divisor, number) ∧ divisor.spelledNumber? = some n ∧
      number.spelledNumber? = some m ∧ n ≤ m := by
  obtain ⟨⟨divisor', number⟩, htest, h⟩ := Option.bind_eq_some_iff.mp h
  dsimp only at h
  split at h
  · next n m hn hm =>
    split at h
    · next hle =>
      obtain rfl := Option.some.inj h
      exact ⟨number, n, m, htest, hn, hm, hle⟩
    · contradiction
  · contradiction

/-- A condition compares a remainder with a number. -/
inductive ComparesRemainder (t dividend divisor : Tree) : RangeTest → Prop where
  | numberRight {order : Order} {a b : Tree} {m : ℤ} (hcomparison : t.comparison? = some (order, a, b))
      (ha : a.binary? = some (.arith .rem, dividend, divisor)) (hb : b.spelledNumber? = some m) :
      ComparesRemainder t dividend divisor ⟨order, m, false⟩
  | numberLeft {order : Order} {a b : Tree} {m : ℤ} (hcomparison : t.comparison? = some (order, b, a))
      (ha : a.binary? = some (.arith .rem, dividend, divisor)) (hb : b.spelledNumber? = some m) :
      ComparesRemainder t dividend divisor ⟨order, m, true⟩

/-- The condition is true when the remainder passes the test. -/
theorem ComparesRemainder.isTrue_eq_holdsFor {dividend : Tree} {test : RangeTest} {n : ℤ}
    (h : t.ComparesRemainder dividend divisor test) (hn : divisor.spelledNumber? = some n) (V : Valuation ℤ) :
    V.isTrue t = test.holdsFor (V.arith .rem (V.eval dividend) n) := by
  cases h with
  | numberRight hcomparison ha hb =>
    obtain ⟨l, rfl, hkind⟩ := eq_node_of_comparison? hcomparison
    obtain ⟨l', rfl, hkind'⟩ := eq_node_of_binary? ha
    rw [V.isTrue_compare hkind, V.eval_arith hkind', V.eval_of_spelledNumber? hn, V.eval_of_spelledNumber? hb]
    rfl
  | numberLeft hcomparison ha hb =>
    obtain ⟨l, rfl, hkind⟩ := eq_node_of_comparison? hcomparison
    obtain ⟨l', rfl, hkind'⟩ := eq_node_of_binary? ha
    rw [V.isTrue_compare hkind, V.eval_arith hkind', V.eval_of_spelledNumber? hn, V.eval_of_spelledNumber? hb]
    rfl

end Tree

/-- What is found compares a remainder with a number that is not below the divisor. -/
theorem Place.of_mem_unreachedRemainders {p : Place} {f : Finding} (hf : f ∈ p.unreachedRemainders) :
    ∃ dividend divisor n test, p.tree.ComparesRemainder dividend divisor test ∧ f = .unreachedRemainder p divisor ∧
      divisor.spelledNumber? = some n ∧ n ≤ test.value := by
  unfold unreachedRemainders at hf
  split at hf
  · next order lhs rhs hcomparison =>
    obtain ⟨divisor, hreached, rfl⟩ := Option.map_eq_some_iff.mp (Option.mem_toList.mp hf)
    obtain ⟨number, n, m, htest, hn, hm, hle⟩ := of_reachedDivisor? hreached
    rcases of_remainderTest? htest with ⟨hdivisor, rfl⟩ | ⟨hdivisor, rfl⟩
    · obtain ⟨dividend, hbinary⟩ := of_divisor? hdivisor
      exact ⟨dividend, divisor, n, _, .numberRight hcomparison hbinary hm, rfl, hn, hle⟩
    · obtain ⟨dividend, hbinary⟩ := of_divisor? hdivisor
      exact ⟨dividend, divisor, n, _, .numberLeft hcomparison hbinary hm, rfl, hn, hle⟩
  · contradiction

/-- Whatever is found about a comparison of a remainder with a number, the remainders are less than the divisor
exactly when the divisor is positive, and then the comparison has the same result for all dividends. With a negative
divisor the result is fixed only if the divisor is -1 or the range of the remainders settles the comparison. -/
theorem remainders_predetermined_iff {o : Options} {u : SourceUnit} {l : Ledger} {p : Place} {f : Finding}
    (hf : f ∈ Check.remainder.findingsAt o u l p) :
    ∃ dividend divisor n test, p.tree.ComparesRemainder dividend divisor test ∧
      f = .unreachedRemainder p divisor ∧
      (f.diagnostic u).message =
        "Comparison of modulo result is predetermined, because it is always less than " ++ divisor.text ++ "." ∧
      divisor.spelledNumber? = some n ∧ n ≤ test.value ∧
      (∀ V : Valuation ℤ, V.arith .rem = Int.tmod → V.isTrue p.tree = test.holdsFor ((V.eval dividend).tmod n)) ∧
      (n ≠ 0 →
        ((∀ x : ℤ, x.tmod n < n) ↔ 0 < n) ∧
        ((∃ truth, ∀ x : ℤ, test.holdsFor (x.tmod n) = truth) ↔
          0 < n ∨ n = -1 ∨ ∃ truth, test.truth? (n + 1) (-n - 1) = some truth)) := by
  obtain ⟨dividend, divisor, n, test, hcompares, rfl, hn, hle⟩ := Place.of_mem_unreachedRemainders hf
  refine ⟨dividend, divisor, n, test, hcompares, rfl, rfl, hn, hle, fun V hV => ?_, fun hzero => ?_⟩
  · rw [hcompares.isTrue_eq_holdsFor hn, hV]
  · exact ⟨forall_tmod_lt_iff, RangeTest.predetermined_iff hzero hle⟩

/-- The comparison `x % -3 == 0`. -/
def negativeDivisor : Tree :=
  ofOperator 0 (.compare .eq)
    (plain 1 (.binary (.arith .rem)) .int none [ofVariable 2 (.onStack 0 "x" .int), ofInt 3 (-3)]) (ofInt 4 0)

/-- The comparison is found although `x % -3` is never less than -3, and is 0 for some values of `x` only. -/
theorem remainders_predetermined_iff_negativeDivisor :
    let u := SourceUnit.ofTree negativeDivisor
    ∃ f ∈ Check.remainder.findingsAt {} u {} (u.placeOf negativeDivisor),
      (f.diagnostic u).message =
        "Comparison of modulo result is predetermined, because it is always less than -3." ∧
      (¬∀ x : ℤ, x.tmod (-3) < -3) ∧
      let test : RangeTest := ⟨.eq, 0, false⟩
      (∀ V : Valuation ℤ, V.arith .rem = Int.tmod →
        V.isTrue negativeDivisor = test.holdsFor ((V.var 0).tmod (-3))) ∧
      ¬∃ truth, ∀ x : ℤ, test.holdsFor (x.tmod (-3)) = truth := by
  intro u
  have hf : .unreachedRemainder (u.placeOf negativeDivisor) (ofInt 3 (-3)) ∈
      Check.remainder.findingsAt {} u {} (u.placeOf negativeDivisor) := List.mem_of_getElem? (i := 0) rfl
  obtain ⟨dividend, divisor, n, test, hcompares, heq, -, hn, -, htrue, hfixed⟩ := remainders_predetermined_iff hf
  obtain ⟨-, rfl⟩ := Finding.unreachedRemainder.inj heq
  obtain rfl : -3 = n := Option.some.inj hn
  obtain ⟨hless, hfixed⟩ := hfixed (by decide)
  -- The number stands on the right, so that the condition is read in one way only.
  cases hcompares with
  | numberRight hcomparison ha hb =>
    cases hcomparison
    cases ha
    cases hb
    exact ⟨_, hf, rfl, hless.not.mpr (by decide), htrue, hfixed.not.mpr (by decide)⟩
  | numberLeft hcomparison _ hb =>
    cases hcomparison
    contradiction

end ConditionLint
