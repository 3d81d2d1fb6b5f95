import ConditionLint.Relation
import Mathlib.Algebra.Order.Group.Unbundled.Basic
import Mathlib.Algebra.Order.Ring.Int
import Mathlib.Data.Rat.Floor
import Mathlib.Tactic.Linarith

/-!
# Comparisons over a linear order

Negating a comparison and exchanging its sides mean what they say over every linear order, integers and
rationals alike. Only the side of its constant on which a value lies decides a comparison, and over an
ordered group the difference of the two sides may be compared with zero instead.

A rational that satisfies two orderings with integer constants can be rounded to an integer that does,
unless both are strict and meet between two neighbouring integers.
-/

namespace ConditionLint.Order

variable {α : Type} [LinearOrder α]

/-- The negated comparison holds exactly when the comparison does not. -/
@[simp] theorem holds_negate (o : Order) (x y : α) : o.negate.holds x y = !o.holds x y := by
  cases o <;> simp [negate, holds, ← decide_not, bne]

/-- Negation keeps equalities apart from orderings. -/
@[simp] theorem isEquality_negate (o : Order) : o.negate.isEquality = o.isEquality := by
  cases o <;> rfl

/-- The comparison that is true where the given one has a truth value. -/
def affirm (o : Order) (truth : Bool) : Order := if truth then o else o.negate

/-- The order that is affirmed with a truth value holds where the order itself has this value. -/
theorem holds_affirm (o : Order) (truth : Bool) (x y : α) :
    (o.affirm truth).holds x y = true ↔ o.holds x y = truth := by
  cases truth <;> simp [affirm]

/-- Affirming turns equalities into equalities and orderings into orderings. -/
@[simp] theorem isEquality_affirm (o : Order) (truth : Bool) : (o.affirm truth).isEquality = o.isEquality := by
  cases truth <;> simp [affirm]

/-- Exchanging the sides twice changes nothing. -/
theorem swap_swap (o : Order) : o.swap.swap = o := by
  cases o <;> rfl

/-- The exchanged comparison holds of the exchanged sides. -/
theorem holds_swap (o : Order) (x y : α) : o.swap.holds x y = o.holds y x := by
  cases o <;> simp [swap, holds, bne, eq_comm]

/-- Two values on the same side of a constant compare with it alike. -/
theorem holds_eq_of_sides (o : Order) {x y v : α} (hbelow : x < v ↔ y < v) (habove : v < x ↔ v < y) :
    o.holds x v = o.holds y v := by
  have hle : x ≤ v ↔ y ≤ v := by rw [← not_lt, ← not_lt, habove]
  have hge : v ≤ x ↔ v ≤ y := by rw [← not_lt, ← not_lt, hbelow]
  have heq : x = v ↔ y = v := by rw [le_antisymm_iff, le_antisymm_iff, hle, hge]
  cases o <;> simp [holds, bne, hbelow, habove, hle, hge, heq, beq_eq_decide]

/-- Two sides compare like their difference with zero. -/
theorem holds_sub_zero [AddGroup α] [AddRightMono α] (o : Order) (x y : α) :
    o.holds (x - y) 0 = o.holds x y := by
  cases o <;> simp [holds, bne, sub_eq_zero, beq_eq_decide]

/-- A comparison of integers with a constant takes both truth values. -/
theorem exists_holds_eq (o : Order) (v : ℤ) (truth : Bool) : ∃ x, o.holds x v = truth := by
  have hfalse (o : Order) : ∃ x, o.holds x v = false := by
    cases o with
    | eq => exact ⟨v + 1, by simp [holds]⟩
    | ne => exact ⟨v, by simp [holds]⟩
    | lt => exact ⟨v, by simp [holds]⟩
    | le => exact ⟨v + 1, by simp [holds]⟩
    | gt => exact ⟨v, by simp [holds]⟩
    | ge => exact ⟨v - 1, by simp [holds]⟩
  cases truth with
  | false => exact hfalse o
  | true =>
    obtain ⟨x, hx⟩ := hfalse o.negate
    exact ⟨x, by simpa using hx⟩

/-- Rounding down keeps a comparison with an integer, unless it excludes the integer from below. -/
theorem holds_floor {o : Order} (hne : o ≠ .ne) (hgt : o ≠ .gt) {q : ℚ} {v : ℤ}
    (h : o.holds q (v : ℚ) = true) : o.holds ⌊q⌋ v = true := by
  cases o with
  | eq => simp_all [holds]
  | ne => contradiction
  | lt => simpa [holds, Int.floor_lt] using h
  | le =>
    have hle : q ≤ v := by simpa [holds] using h
    simpa [holds] using Int.floor_mono hle
  | gt => contradiction
  | ge => simpa [holds, Int.le_floor] using h

/-- Rounding up keeps a comparison with an integer, unless it excludes the integer from above. -/
theorem holds_ceil {o : Order} (hne : o ≠ .ne) (hlt : o ≠ .lt) {q : ℚ} {v : ℤ}
    (h : o.holds q (v : ℚ) = true) : o.holds ⌈q⌉ v = true := by
  cases o with
  | eq => simp_all [holds]
  | ne => contradiction
  | lt => contradiction
  | le => simpa [holds, Int.ceil_le] using h
  | gt => simpa [holds, Int.lt_ceil] using h
  | ge =>
    have hle : (v : ℚ) ≤ q := by simpa [holds] using h
    simpa [holds] using Int.ceil_mono hle

/-- Whether two strict orderings meet between neighbouring integers, as `x > v` and `x < v + 1` do. -/
def MeetInGap (o₁ : Order) (v : ℤ) (o₂ : Order) (w : ℤ) : Prop :=
  (o₁ = .gt ∧ o₂ = .lt ∧ w = v + 1) ∨ (o₁ = .lt ∧ o₂ = .gt ∧ v = w + 1)

instance (o₁ : Order) (v : ℤ) (o₂ : Order) (w : ℤ) : Decidable (MeetInGap o₁ v o₂ w) :=
  inferInstanceAs (Decidable (_ ∨ _))

/-- Strict bounds with a rational but no integer between them are neighbours. -/
theorem eq_add_one_of_between {v w : ℤ} {q : ℚ} (hv : v < q) (hw : q < w)
    (hnone : ¬(v < v + 1 ∧ v + 1 < w)) : w = v + 1 := by
  have hlt : v < w := by exact_mod_cast hv.trans hw
  omega

/-- Two comparisons that no integer satisfies together are satisfied by a rational only in a gap, as long as
neither is an inequation. -/
theorem exists_rat_iff_meetInGap_of_ne {o₁ o₂ : Order} {v w : ℤ} (hne₁ : o₁ ≠ .ne) (hne₂ : o₂ ≠ .ne)
    (hnone : ∀ x : ℤ, ¬(o₁.holds x v = true ∧ o₂.holds x w = true)) :
    (∃ q : ℚ, o₁.holds q (v : ℚ) = true ∧ o₂.holds q (w : ℚ) = true) ↔ MeetInGap o₁ v o₂ w := by
  constructor
  · rintro ⟨q, hq₁, hq₂⟩
    have hfloor : o₁ = .gt ∨ o₂ = .gt := by
      by_contra hnot
      obtain ⟨hgt₁, hgt₂⟩ := not_or.mp hnot
      exact hnone ⌊q⌋ ⟨holds_floor hne₁ hgt₁ hq₁, holds_floor hne₂ hgt₂ hq₂⟩
    have hceil : o₁ = .lt ∨ o₂ = .lt := by
      by_contra hnot
      obtain ⟨hlt₁, hlt₂⟩ := not_or.mp hnot
      exact hnone ⌈q⌉ ⟨holds_ceil hne₁ hlt₁ hq₁, holds_ceil hne₂ hlt₂ hq₂⟩
    rcases hfloor with rfl | rfl <;> rcases hceil with hlt | hlt
    · contradiction
    · subst hlt
      simp only [holds, decide_eq_true_eq] at hq₁ hq₂ hnone
      exact Or.inl ⟨rfl, rfl, eq_add_one_of_between hq₁ hq₂ (hnone _)⟩
    · subst hlt
      simp only [holds, decide_eq_true_eq] at hq₁ hq₂ hnone
      exact Or.inr ⟨rfl, rfl, eq_add_one_of_between hq₂ hq₁ fun h => hnone _ h.symm⟩
    · contradiction
  · rintro (⟨rfl, rfl, rfl⟩ | ⟨rfl, rfl, rfl⟩)
    · refine ⟨v + 1 / 2, ?_⟩
      simp only [holds, decide_eq_true_eq]
      push_cast
      constructor <;> linarith
    · refine ⟨w + 1 / 2, ?_⟩
      simp only [holds, decide_eq_true_eq]
      push_cast
      constructor <;> linarith

/-- Two orderings that no integer satisfies together are satisfied by a rational only in a gap. -/
theorem exists_rat_iff_meetInGap {o₁ o₂ : Order} {v w : ℤ} (ho₁ : o₁.isEquality = false)
    (ho₂ : o₂.isEquality = false) (hnone : ∀ x : ℤ, ¬(o₁.holds x v = true ∧ o₂.holds x w = true)) :
    (∃ q : ℚ, o₁.holds q (v : ℚ) = true ∧ o₂.holds q (w : ℚ) = true) ↔ MeetInGap o₁ v o₂ w :=
  exists_rat_iff_meetInGap_of_ne (by rintro rfl; contradiction) (by rintro rfl; contradiction) hnone

/-- Only the equation with the same constant leaves no integer to an inequation. -/
theorem eq_of_forall_not_ne {o : Order} {v w : ℤ} (hnone : ∀ x : ℤ, ¬(x ≠ v ∧ o.holds x w = true)) :
    o = .eq ∧ w = v := by
  cases o with
  | eq =>
    have hw := hnone w
    simp only [holds, beq_self_eq_true, and_true, not_not] at hw
    exact ⟨rfl, hw⟩
  | ne => exact absurd ⟨by omega, bne_iff_ne.mpr (by omega)⟩ (hnone (max v w + 1))
  | lt => exact absurd ⟨by omega, decide_eq_true (by omega)⟩ (hnone (min v w - 1))
  | le => exact absurd ⟨by omega, decide_eq_true (by omega)⟩ (hnone (min v w - 1))
  | gt => exact absurd ⟨by omega, decide_eq_true (by omega)⟩ (hnone (max v w + 1))
  | ge => exact absurd ⟨by omega, decide_eq_true (by omega)⟩ (hnone (max v w + 1))

/-- An inequation and a comparison that no integer satisfies together are satisfied by no rational, and do
not meet in a gap. -/
theorem not_exists_rat_of_ne {o : Order} {v w : ℤ}
    (hnone : ∀ x : ℤ, ¬(ne.holds x v = true ∧ o.holds x w = true)) :
    (¬∃ q : ℚ, ne.holds q (v : ℚ) = true ∧ o.holds q (w : ℚ) = true) ∧ ¬MeetInGap ne v o w := by
  obtain ⟨rfl, rfl⟩ := eq_of_forall_not_ne (by simpa [holds] using hnone)
  simp [holds, MeetInGap]

/-- A gap does not depend on which comparison comes first. -/
theorem meetInGap_comm {o₁ o₂ : Order} {v w : ℤ} : MeetInGap o₁ v o₂ w ↔ MeetInGap o₂ w o₁ v := by
  unfold MeetInGap
  tauto

/-- Two comparisons that no integer satisfies together are satisfied by a rational only in a gap. -/
theorem exists_rat_iff_meetInGap_of_none {o₁ o₂ : Order} {v w : ℤ}
    (hnone : ∀ x : ℤ, ¬(o₁.holds x v = true ∧ o₂.holds x w = true)) :
    (∃ q : ℚ, o₁.holds q (v : ℚ) = true ∧ o₂.holds q (w : ℚ) = true) ↔ MeetInGap o₁ v o₂ w := by
  by_cases hne₁ : o₁ = .ne
  · subst hne₁
    obtain ⟨hrat, hgap⟩ := not_exists_rat_of_ne hnone
    exact iff_of_false hrat hgap
  · by_cases hne₂ : o₂ = .ne
    · subst hne₂
      obtain ⟨hrat, hgap⟩ := not_exists_rat_of_ne fun x hx => hnone x hx.symm
      exact iff_of_false (fun ⟨q, hq₁, hq₂⟩ => hrat ⟨q, hq₂, hq₁⟩) (mt meetInGap_comm.mp hgap)
    · exact exists_rat_iff_meetInGap_of_ne hne₁ hne₂ hnone

end ConditionLint.Order
