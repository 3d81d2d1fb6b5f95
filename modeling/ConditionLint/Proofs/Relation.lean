import ConditionLint.Proofs.Interval
import ConditionLint.Proofs.Order

/-!
# Integer relations

A relation with an integer constant has the integers of its intervals as solutions. Relations that are
found to exclude each other therefore have no common solution, and of two complements every integer
satisfies exactly one.
-/

namespace ConditionLint.Relation

/-- The intervals of a relation hold its integer solutions. -/
theorem contains_intParts (o : Order) (v x : ℤ) :
    (IntervalUnion.ofParts (intParts o v)).contains x = o.holds x v := by
  rw [IntervalUnion.contains_ofParts, Bool.eq_iff_iff]
  simp only [intParts, Interval.contains, Interval.point, Bound.admitsAbove, Bound.admitsBelow, Order.holds]
  cases o
  all_goals simp
  all_goals omega

/-- Relations that exclude each other have no integer solution in common. -/
theorem not_holds_of_excludes {o o' : Order} {v w : ℤ}
    (h : (⟨o, .int v⟩ : Relation).excludes ⟨o', .int w⟩ = true) {x : ℤ} (hx : o.holds x v = true) :
    o'.holds x w = false := by
  rw [← contains_intParts] at hx ⊢
  exact IntervalUnion.not_contains_of_isDisjoint h hx

/-- Of two complements every integer satisfies exactly one. -/
theorem holds_eq_not_of_complements {o o' : Order} {v w : ℤ}
    (h : (⟨o, .int v⟩ : Relation).complements ⟨o', .int w⟩ = true) (x : ℤ) :
    o.holds x v = !o'.holds x w := by
  simp only [complements, implies, negate, Bool.and_eq_true] at h
  obtain ⟨hforward, hbackward⟩ := h
  have hnegated : o'.negate.holds x w = !o'.holds x w := o'.holds_negate x w
  cases hx : o.holds x v with
  | true =>
    have := not_holds_of_excludes hforward hx
    rw [Order.holds_negate, hnegated] at this
    simpa using this
  | false =>
    cases hy : o'.holds x w with
    | true => rfl
    | false =>
      have := not_holds_of_excludes hbackward (hnegated.trans (by rw [hy, Bool.not_false]))
      simp [hx] at this

/-- Negating twice changes nothing. -/
theorem negate_negate (r : Relation) : r.negate.negate = r := by
  obtain ⟨o, v⟩ := r
  cases o <;> rfl

/-- Integer relations exclude each other whichever comes first. -/
theorem excludes_comm (o o' : Order) (v w : ℤ) :
    (⟨o, .int v⟩ : Relation).excludes ⟨o', .int w⟩ = (⟨o', .int w⟩ : Relation).excludes ⟨o, .int v⟩ :=
  IntervalUnion.isDisjoint_comm _ _

/-- Integer relations are complements whichever comes first. -/
theorem complements_comm (o o' : Order) (v w : ℤ) :
    (⟨o, .int v⟩ : Relation).complements ⟨o', .int w⟩ = (⟨o', .int w⟩ : Relation).complements ⟨o, .int v⟩ := by
  simp only [complements, implies, negate_negate]
  rw [excludes_comm o o' v w, negate, negate, excludes_comm o'.negate o.negate w v]

/-- Complements exclude each other. -/
theorem excludes_of_complements {r s : Relation} (h : r.complements s = true) : r.excludes s = true := by
  rw [complements, implies, negate_negate, Bool.and_eq_true] at h
  exact h.1

/-- A verdict on two relations that does not depend on which one comes first. Where both compare with zero, it
depends neither on the kind of the zero nor on the direction in which the values are counted. -/
structure IsEven (verdict : Relation → Relation → Bool) : Prop where
  comm : ∀ (o o' : Order) (v w : ℤ),
    verdict ⟨o, .int v⟩ ⟨o', .int w⟩ = verdict ⟨o', .int w⟩ ⟨o, .int v⟩
  zero : ∀ o o' : Order, verdict ⟨o, .float 0⟩ ⟨o', .float 0⟩ = verdict ⟨o, .int 0⟩ ⟨o', .int 0⟩
  mirror : ∀ o o' : Order,
    verdict ⟨o.swap, .int 0⟩ ⟨o'.swap, .int 0⟩ = verdict ⟨o, .int 0⟩ ⟨o', .int 0⟩

/-- Whether relations exclude each other is an even verdict. -/
theorem isEven_excludes : IsEven excludes where
  comm := excludes_comm
  zero o o' := by cases o <;> cases o' <;> decide
  mirror o o' := by cases o <;> cases o' <;> decide

/-- So is whether they are complements. -/
theorem isEven_complements : IsEven complements where
  comm := complements_comm
  zero o o' := by simp only [complements, implies, negate, isEven_excludes.zero]
  mirror o o' := by
    have hnegate (o : Order) : o.swap.negate = o.negate.swap := by cases o <;> rfl
    simp only [complements, implies, negate, hnegate, isEven_excludes.mirror]

end ConditionLint.Relation
