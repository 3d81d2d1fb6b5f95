import ConditionLint.Interval.Union
import Mathlib.Algebra.Order.Ring.Int

/-!
# Values of intervals and of their unions

Over a linear order the tighter of two bounds admits what both admit, so meets of intervals and of unions
contain the common values and no others. An interval whose bounds leave no room contains no value, which
is why a union may drop it. Hence unions that are found disjoint share no value.

The converse holds for integers and bounds that are infinite or belong to the interval. Meets keep this form, since each
of their bounds is one of the bounds that meet.
-/

namespace ConditionLint

variable {α : Type} [LinearOrder α]

namespace Bound

/-- The tighter lower bound admits what both lower bounds admit. -/
theorem admitsAbove_tighterLow (a b : Bound α) (x : α) :
    (a.tighterLow b).admitsAbove x = (a.admitsAbove x && b.admitsAbove x) := by
  cases a <;> cases b <;> grind [tighterLow, admitsAbove]

/-- The tighter upper bound admits what both upper bounds admit. -/
theorem admitsBelow_tighterHigh (a b : Bound α) (x : α) :
    (a.tighterHigh b).admitsBelow x = (a.admitsBelow x && b.admitsBelow x) := by
  cases a <;> cases b <;> grind [tighterHigh, admitsBelow]

/-- Which of two lower bounds is tighter does not depend on their order. -/
theorem tighterLow_comm (a b : Bound α) : a.tighterLow b = b.tighterLow a := by
  cases a <;> cases b <;> grind [tighterLow]

/-- Which of two upper bounds is tighter does not depend on their order. -/
theorem tighterHigh_comm (a b : Bound α) : a.tighterHigh b = b.tighterHigh a := by
  cases a <;> cases b <;> grind [tighterHigh]

end Bound

namespace Interval

/-- Intervals meet whichever comes first. -/
theorem meet_comm (i j : Interval α) : i.meet j = j.meet i := by
  rw [meet, meet, Bound.tighterLow_comm, Bound.tighterHigh_comm]

/-- The meet of two intervals contains their common values. -/
theorem contains_meet (i j : Interval α) (x : α) :
    (i.meet j).contains x = (i.contains x && j.contains x) := by
  simp only [contains, meet, Bound.admitsAbove_tighterLow, Bound.admitsBelow_tighterHigh]
  ac_rfl

/-- Bounds that leave no room admit no value. -/
theorem contains_eq_false_of_isBottom (i : Interval α) (h : i.isBottom = true) (x : α) :
    i.contains x = false := by
  obtain ⟨low, high⟩ := i
  cases low <;> cases high <;>
    grind [isBottom, contains, Bound.admitsAbove, Bound.admitsBelow]

end Interval

namespace IntervalUnion

/-- Dropping empty parts loses no value. -/
theorem contains_ofParts (parts : List (Interval α)) (x : α) :
    (ofParts parts).contains x = parts.any fun i => i.contains x := by
  induction parts with
  | nil => rfl
  | cons i rest ih =>
    simp only [ofParts, contains] at ih
    simp only [ofParts, contains, List.filter_cons, List.any_cons]
    by_cases hbottom : i.isBottom = true
    · simp [hbottom, ih, i.contains_eq_false_of_isBottom hbottom x]
    · simp [hbottom, ih]

/-- The meet of two unions contains their common values. -/
theorem contains_meet (u v : IntervalUnion α) (x : α) :
    (u.meet v).contains x = (u.contains x && v.contains x) := by
  rw [meet, contains_ofParts, Bool.eq_iff_iff]
  simp only [contains, List.any_flatMap, List.any_map, Function.comp_def, Interval.contains_meet,
    List.any_eq_true, Bool.and_eq_true]
  constructor
  · rintro ⟨i, hi, j, hj, hxi, hxj⟩
    exact ⟨⟨i, hi, hxi⟩, ⟨j, hj, hxj⟩⟩
  · rintro ⟨⟨i, hi, hxi⟩, ⟨j, hj, hxj⟩⟩
    exact ⟨i, hi, j, hj, hxi, hxj⟩

/-- A union of empty parts contains no value. -/
theorem contains_eq_false_of_isEmpty (u : IntervalUnion α) (h : u.isEmpty = true) (x : α) :
    u.contains x = false := by
  simp only [isEmpty, List.all_eq_true] at h
  simp only [contains, List.any_eq_false, Bool.not_eq_true]
  exact fun i hi => i.contains_eq_false_of_isBottom (h i hi) x

/-- Disjoint unions have no value in common. -/
theorem not_contains_of_isDisjoint {u v : IntervalUnion α} (h : u.isDisjoint v = true) {x : α}
    (hu : u.contains x = true) : v.contains x = false := by
  have hmeet := (u.meet v).contains_eq_false_of_isEmpty h x
  rw [contains_meet, hu, Bool.true_and] at hmeet
  exact hmeet

/-- Unions are disjoint when no part of one meets a part of the other. -/
theorem isDisjoint_iff (u v : IntervalUnion α) :
    u.isDisjoint v = true ↔ ∀ i ∈ u.parts, ∀ j ∈ v.parts, (i.meet j).isBottom = true := by
  simp only [isDisjoint, meet, ofParts, isEmpty, List.all_eq_true, List.mem_filter, List.mem_flatMap,
    List.mem_map]
  grind

/-- Unions are disjoint whichever comes first. -/
theorem isDisjoint_comm (u v : IntervalUnion α) : u.isDisjoint v = v.isDisjoint u := by
  rw [Bool.eq_iff_iff, isDisjoint_iff, isDisjoint_iff]
  constructor
  · intro h j hj i hi
    rw [Interval.meet_comm]
    exact h i hi j hj
  · intro h i hi j hj
    rw [Interval.meet_comm]
    exact h j hj i hi

end IntervalUnion

/-! ## Closed intervals of integers -/

namespace Bound

/-- Whether a bound is infinite or belongs to what it bounds. -/
def isClosed : Bound α → Bool
  | excluded _ => false
  | _ => true

/-- The tighter of two lower bounds is one of them. -/
theorem tighterLow_eq_or (a b : Bound α) : a.tighterLow b = a ∨ a.tighterLow b = b := by
  cases a <;> cases b <;> grind [tighterLow]

/-- The tighter of two upper bounds is one of them. -/
theorem tighterHigh_eq_or (a b : Bound α) : a.tighterHigh b = a ∨ a.tighterHigh b = b := by
  cases a <;> cases b <;> grind [tighterHigh]

end Bound

namespace Interval

/-- Both bounds are infinite or belong to the interval. -/
structure IsClosed (i : Interval α) : Prop where
  low : i.low.isClosed = true
  high : i.high.isClosed = true

namespace IsClosed

/-- Closed intervals meet in a closed one. -/
theorem meet {i j : Interval α} (hi : i.IsClosed) (hj : j.IsClosed) : (i.meet j).IsClosed where
  low := by
    change (i.low.tighterLow j.low).isClosed = true
    rcases i.low.tighterLow_eq_or j.low with h | h
    · rw [h]
      exact hi.low
    · rw [h]
      exact hj.low
  high := by
    change (i.high.tighterHigh j.high).isClosed = true
    rcases i.high.tighterHigh_eq_or j.high with h | h
    · rw [h]
      exact hi.high
    · rw [h]
      exact hj.high

/-- Closed bounds that leave room admit an integer: one of the bounds, or zero if both are infinite. -/
theorem exists_contains {i : Interval ℤ} (h : i.IsClosed) (hroom : i.isBottom = false) :
    ∃ x, i.contains x = true := by
  obtain ⟨low, high⟩ := i
  obtain ⟨hlow, hhigh⟩ := h
  cases low with
  | negInf =>
    cases high with
    | negInf => contradiction
    | included b => exact ⟨b, by simp [contains, Bound.admitsAbove, Bound.admitsBelow]⟩
    | excluded b => contradiction
    | posInf => exact ⟨0, rfl⟩
  | included a =>
    cases high with
    | negInf => contradiction
    | included b =>
      have hab : a ≤ b := by simpa [isBottom] using hroom
      exact ⟨a, by simpa [contains, Bound.admitsAbove, Bound.admitsBelow] using hab⟩
    | excluded b => contradiction
    | posInf => exact ⟨a, by simp [contains, Bound.admitsAbove, Bound.admitsBelow]⟩
  | excluded a => contradiction
  | posInf => contradiction

end IsClosed

end Interval

/-- Unions of closed intervals are disjoint exactly when they share no integer. -/
theorem IntervalUnion.isDisjoint_iff_forall {u v : IntervalUnion ℤ} (hu : ∀ i ∈ u.parts, i.IsClosed)
    (hv : ∀ j ∈ v.parts, j.IsClosed) :
    u.isDisjoint v = true ↔ ∀ x, ¬(u.contains x = true ∧ v.contains x = true) := by
  constructor
  · rintro h x ⟨hxu, hxv⟩
    simp [not_contains_of_isDisjoint h hxu] at hxv
  · intro h
    rw [isDisjoint_iff]
    intro i hi j hj
    by_contra hroom
    obtain ⟨x, hx⟩ := ((hu i hi).meet (hv j hj)).exists_contains (Bool.eq_false_iff.mpr hroom)
    rw [Interval.contains_meet, Bool.and_eq_true] at hx
    exact h x ⟨List.any_eq_true.mpr ⟨i, hi, hx.1⟩, List.any_eq_true.mpr ⟨j, hj, hx.2⟩⟩

/-- Meets contain the common values, whatever the bounds, and dropping empty parts loses none. For integers and bounds
that are infinite or included, unions are disjoint exactly when they have no value in common. -/
theorem IntervalUnion.meets_exactly (α : Type) [LinearOrder α] :
    (∀ (i j : Interval α) (x : α), (i.meet j).contains x = true ↔ i.contains x = true ∧ j.contains x = true) ∧
      (∀ (u v : IntervalUnion α) (x : α), (u.meet v).contains x = true ↔ u.contains x = true ∧ v.contains x = true) ∧
      (∀ i : Interval α, i.isBottom = true → ∀ x, i.contains x = false) ∧
      (∀ (parts : List (Interval α)) (x : α), (ofParts parts).contains x = true ↔ ∃ i ∈ parts, i.contains x = true) ∧
      ∀ u v : IntervalUnion ℤ, (∀ i ∈ u.parts, i.IsClosed) → (∀ j ∈ v.parts, j.IsClosed) →
        (u.isDisjoint v = true ↔ ¬∃ x, u.contains x = true ∧ v.contains x = true) := by
  refine ⟨fun i j x => ?_, fun u v x => ?_, Interval.contains_eq_false_of_isBottom, fun parts x => ?_,
    fun u v hu hv => ?_⟩
  · rw [Interval.contains_meet, Bool.and_eq_true]
  · rw [contains_meet, Bool.and_eq_true]
  · rw [contains_ofParts, List.any_eq_true]
  · rw [isDisjoint_iff_forall hu hv, not_exists]

/-- What differs from 1 has no integer in common with 1, and has 2 in common with what is above 1. An interval that
ends before it begins contains nothing. -/
theorem IntervalUnion.meets_exactly_apart_from_one :
    let apart : IntervalUnion ℤ := ⟨[⟨.negInf, .included 0⟩, ⟨.included 2, .posInf⟩]⟩
    (¬∃ x, apart.contains x = true ∧ IntervalUnion.contains ⟨[.point 1]⟩ x = true) ∧
      (apart.meet ⟨[⟨.excluded 1, .posInf⟩]⟩).contains 2 = true ∧
      ∀ x, Interval.contains (⟨.included 2, .excluded 1⟩ : Interval ℤ) x = false := by
  obtain ⟨-, hmeet, hbottom, -, hdisjoint⟩ := meets_exactly ℤ
  refine ⟨(hdisjoint _ _ ?_ ?_).mp (by decide), (hmeet _ _ 2).mpr (by decide), hbottom _ (by decide)⟩
  · exact List.forall_mem_cons.mpr ⟨⟨rfl, rfl⟩, List.forall_mem_singleton.mpr ⟨rfl, rfl⟩⟩
  · exact List.forall_mem_singleton.mpr ⟨rfl, rfl⟩

end ConditionLint
