import ConditionLint.TwosComplement
import Mathlib.Data.Int.Bitwise

/-!
# Bits of integers in two's complement

The operations on integers work bit by bit, and an integer is known by its bits. What masks do to an integer
follows from what they do to each of its bits. As to order, a mask bounds what it leaves from above, and bits
that are set bound a number from below as long as it is not negative.
-/

namespace ConditionLint.TwosComplement

/-- Subtracting what two numbers have in common clears the bits of the second one. -/
theorem testBit_sub_and (m n i : ℕ) : (m - (m &&& n)).testBit i = (m.testBit i && !n.testBit i) := by
  induction i generalizing m n with
  | zero =>
    have hle : m &&& n ≤ m := Nat.and_le_left
    have hodd : (m &&& n) % 2 = 1 ↔ m % 2 = 1 ∧ n % 2 = 1 := Nat.and_mod_two_eq_one
    simp only [Nat.testBit_zero, ← decide_not, ← Bool.decide_and, decide_eq_decide]
    omega
  | succ i ih =>
    have hle : m &&& n ≤ m := Nat.and_le_left
    have hodd : (m &&& n) % 2 = 1 ↔ m % 2 = 1 ∧ n % 2 = 1 := Nat.and_mod_two_eq_one
    have hdiv : (m &&& n) / 2 = m / 2 &&& n / 2 := Nat.and_div_two
    -- The last bits are subtracted without a borrow.
    have hhalf : (m - (m &&& n)) / 2 = m / 2 - (m / 2 &&& n / 2) := by omega
    rw [Nat.testBit_add_one, hhalf, ih, Nat.testBit_add_one, Nat.testBit_add_one]

variable (x y : ℤ) (i : ℕ)

/-- The bits that both integers have, one by one. -/
@[simp] theorem testBit_and : (and x y).testBit i = (x.testBit i && y.testBit i) := by
  cases x <;> cases y <;> simp [and, Int.testBit, testBit_sub_and, Bool.and_comm]

/-- The bits that at least one of the integers has, one by one. -/
@[simp] theorem testBit_or : (or x y).testBit i = (x.testBit i || y.testBit i) := by
  cases x <;> cases y <;> simp [or, Int.testBit, testBit_sub_and, Bool.or_comm]

/-- Integers with the same bits are equal. Far enough to the left, the bits show the sign. -/
theorem eq_of_testBit_eq {x y : ℤ} (h : ∀ i, x.testBit i = y.testBit i) : x = y := by
  have hsign (m n : ℕ) : ¬∀ i, m.testBit i = !n.testBit i := by
    intro hbits
    have hm := Nat.testBit_lt_two_pow (x := m) (i := m + n) (by have := @Nat.lt_two_pow_self (m + n); omega)
    have hn := Nat.testBit_lt_two_pow (x := n) (i := m + n) (by have := @Nat.lt_two_pow_self (m + n); omega)
    simpa [hm, hn] using hbits (m + n)
  cases x with
  | ofNat m =>
    cases y with
    | ofNat n => exact congrArg Int.ofNat (Nat.eq_of_testBit_eq h)
    | negSucc n => exact absurd h (hsign m n)
  | negSucc m =>
    cases y with
    | ofNat n => exact absurd (fun i => (h i).symm) (hsign n m)
    | negSucc n => exact congrArg Int.negSucc (Nat.eq_of_testBit_eq fun i => Bool.not_inj (h i))

/-- A mask clears nothing more when it is applied again. -/
theorem and_and_self : and x (and x y) = and x y :=
  eq_of_testBit_eq fun i => by simp

/-- The order of the operands does not matter. -/
theorem and_comm : and x y = and y x :=
  eq_of_testBit_eq fun i => by simp [Bool.and_comm]

/-- The order of the operands does not matter. -/
theorem or_comm : or x y = or y x :=
  eq_of_testBit_eq fun i => by simp [Bool.or_comm]

/-- Bits that were set are all there. -/
theorem and_or_self : and x (or x y) = x := by
  apply eq_of_testBit_eq
  intro i
  rw [testBit_and, testBit_or]
  cases x.testBit i <;> rfl

/-- A mask that has no bit in common with an earlier one leaves nothing. -/
theorem and_eq_zero_of_disjoint {mask used x : ℤ} (hx : and mask x = x) (hdisjoint : and mask used = 0) :
    and x used = 0 := by
  apply eq_of_testBit_eq
  intro i
  have hbit := congrArg (fun z => z.testBit i) hx
  have hnone := congrArg (fun z => z.testBit i) hdisjoint
  simp only [testBit_and] at hbit hnone ⊢
  rw [← hbit, Bool.and_right_comm, hnone]
  cases i <;> simp [Int.testBit]

/-- In a chain of masks it does not matter which one is applied last. -/
theorem and_right_comm (z : ℤ) : and (and x y) z = and (and x z) y :=
  eq_of_testBit_eq fun i => by simp [Bool.and_right_comm]

/-- Of two masks of `|`, either may be applied first. -/
theorem or_right_comm (z : ℤ) : or (or x y) z = or (or x z) y :=
  eq_of_testBit_eq fun i => by simp [Bool.or_right_comm]

/-- Masking with `&` by the number itself changes nothing. -/
theorem and_self : and x x = x :=
  eq_of_testBit_eq fun i => by simp

/-- Bits that were set stay as they are when they are set again. -/
theorem or_or_self : or x (or x y) = or x y :=
  eq_of_testBit_eq fun i => by simp

/-! ## Bits and order -/

/-- What a mask that is not negative leaves lies between zero and the mask. -/
theorem and_bounds {mask : ℤ} (hmask : 0 ≤ mask) : 0 ≤ and x mask ∧ and x mask ≤ mask := by
  obtain ⟨n, rfl⟩ := Int.eq_ofNat_of_zero_le hmask
  cases x with
  | ofNat m => exact ⟨Int.natCast_nonneg _, Int.ofNat_le.mpr Nat.and_le_right⟩
  | negSucc m => exact ⟨Int.natCast_nonneg _, Int.ofNat_le.mpr (Nat.sub_le _ _)⟩

/-- Setting bits makes a number no smaller, unless the sign is among them. -/
theorem le_or {x y : ℤ} (hx : 0 ≤ x) (hy : 0 ≤ y) : y ≤ or x y := by
  obtain ⟨m, rfl⟩ := Int.eq_ofNat_of_zero_le hx
  obtain ⟨n, rfl⟩ := Int.eq_ofNat_of_zero_le hy
  exact Int.ofNat_le.mpr Nat.right_le_or

/-- The sign is a bit like the others, and it is set when one of the numbers has it. -/
theorem or_neg_iff : or x y < 0 ↔ x < 0 ∨ y < 0 := by
  have hneg (n : ℕ) : Int.negSucc n < 0 := Int.negSucc_lt_zero n
  cases x with
  | ofNat m =>
    cases y with
    | ofNat n =>
      have hnonneg (k : ℕ) : ¬Int.ofNat k < 0 := by simp
      exact iff_of_false (hnonneg _) (not_or.mpr ⟨hnonneg m, hnonneg n⟩)
    | negSucc n => exact iff_of_true (hneg _) (Or.inr (hneg n))
  | negSucc m =>
    have hor : or (.negSucc m) y < 0 := by cases y <;> exact hneg _
    exact iff_of_true hor (Or.inl (hneg m))

/-- Zero sets no bit. -/
theorem zero_or {x : ℤ} (hx : 0 ≤ x) : or 0 x = x := by
  obtain ⟨n, rfl⟩ := Int.eq_ofNat_of_zero_le hx
  exact congrArg Int.ofNat (Nat.zero_or n)

end ConditionLint.TwosComplement
