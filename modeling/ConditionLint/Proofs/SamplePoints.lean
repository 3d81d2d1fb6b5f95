import ConditionLint.Proofs.Order
import ConditionLint.Relation.Pair

/-!
# Sample points stand for all integers

Two tests against integer constants cannot tell an integer from any other that lies on the same side of
both constants. Each integer therefore has a representative among the five sample points, and what the
points show holds of every integer.

For an unsigned value the negative points are left out. They are missed only by the numbers between a
negative constant and a positive one that is closer to zero: the point between the constants is then
negative, and it alone stands for them.
-/

namespace ConditionLint

/-- The test `x op v` of an integer constant, possibly negated. -/
def Test.ofInt (o : Order) (v : ℤ) (negated : Bool) : Test := ⟨⟨o, .int v⟩, negated⟩

/-- An integer test compares exactly. -/
theorem Test.isTrueAt_ofInt (o : Order) (v : ℤ) (negated : Bool) (x : ℤ) :
    (Test.ofInt o v negated).isTrueAt (.int x) = (o.holds x v != negated) := rfl

/-- The sample point between two constants, or next to the lower one if there is no room. -/
def midpoint (a b : ℤ) : ℤ :=
  if 2 ≤ max a b - min a b then min a b + (max a b - min a b) / 2 else min a b + 1

/-- The five points of two integer constants. -/
theorem samplePoints_int (a b : ℤ) :
    samplePoints (.int a) (.int b) =
      [.int (min a b - 1), .int a, .int (midpoint a b), .int b, .int (max a b + 1)] := rfl

/-- The sample point that stands for an integer. -/
def representative (a b x : ℤ) : ℤ :=
  if x < min a b then min a b - 1
  else if x = min a b ∨ x = max a b then x
  else if x < max a b then midpoint a b
  else max a b + 1

/-- Representatives are sample points. -/
theorem representative_mem (a b x : ℤ) :
    Number.int (representative a b x) ∈ samplePoints (.int a) (.int b) := by
  rw [samplePoints_int]
  unfold representative
  split
  · exact List.mem_cons_self
  · split
    · have hx : x = a ∨ x = b := by omega
      rcases hx with rfl | rfl <;> simp
    · split <;> simp

/-- An integer and its representative lie on the same side of each constant. -/
theorem representative_sides (a b x : ℤ) {v : ℤ} (hv : v = a ∨ v = b) :
    (representative a b x < v ↔ x < v) ∧ (v < representative a b x ↔ v < x) := by
  unfold representative midpoint
  split_ifs <;> omega

/-- A test of one of the constants does not tell an integer from its representative. -/
theorem isTrueAt_representative (o : Order) (negated : Bool) (a b x : ℤ) {v : ℤ} (hv : v = a ∨ v = b) :
    (Test.ofInt o v negated).isTrueAt (.int (representative a b x)) =
      (Test.ofInt o v negated).isTrueAt (.int x) := by
  obtain ⟨hbelow, habove⟩ := representative_sides a b x hv
  rw [Test.isTrueAt_ofInt, Test.isTrueAt_ofInt, o.holds_eq_of_sides hbelow habove]

/-- The points that count, those of an unsigned value being non-negative. -/
def countedPoints (unsigned : Bool) (v w : Number) : List Number :=
  (samplePoints v w).filter fun x => !(unsigned && x.isNegative)

/-- Whether there are points that count, and the two tests are related as stated at all of them. -/
def showsAtPoints (unsigned : Bool) (first second : Test) (related : Bool → Bool → Bool) : Bool :=
  let points := countedPoints unsigned first.relation.value second.relation.value
  !points.isEmpty && points.all fun x => related (first.isTrueAt x) (second.isTrueAt x)

/-- Each part of an outcome is one relation between the two tests, shown at the points that count. -/
theorem Outcome.ofTests_eq_showsAtPoints (c : Connective) (unsigned : Bool) (first second : Test) :
    Outcome.ofTests c unsigned first second =
      { alwaysTrue := showsAtPoints unsigned first second fun p q => c.eval p q
        alwaysFalse := showsAtPoints unsigned first second fun p q => !c.eval p q
        firstImplies := showsAtPoints unsigned first second fun p q => !(p && !q)
        secondImplies := showsAtPoints unsigned first second fun p q => !(q && !p) } := by
  simp only [Outcome.ofTests, showsAtPoints, countedPoints]
  generalize List.filter _ (samplePoints first.relation.value second.relation.value) = points
  cases points <;> rfl

/-- What is shown, in terms of the points that count. -/
theorem showsAtPoints_iff (unsigned : Bool) (first second : Test) (related : Bool → Bool → Bool) :
    showsAtPoints unsigned first second related = true ↔
      countedPoints unsigned first.relation.value second.relation.value ≠ [] ∧
        ∀ x ∈ countedPoints unsigned first.relation.value second.relation.value,
          related (first.isTrueAt x) (second.isTrueAt x) = true := by
  simp only [showsAtPoints, Bool.and_eq_true, Bool.not_eq_true', List.isEmpty_eq_false_iff,
    List.all_eq_true]

/-- The relation by which an outcome tells that one test implies the other. -/
theorem not_and_not_eq_true_iff (p q : Bool) : (!(p && !q)) = true ↔ (p = true → q = true) := by
  cases p <;> cases q <;> decide

/-- Every counted point of two integer constants is an integer sample point. -/
theorem exists_of_mem_countedPoints {unsigned : Bool} {a b : ℤ} {n : Number}
    (h : n ∈ countedPoints unsigned (.int a) (.int b)) :
    ∃ x : ℤ, n = .int x ∧ x ≤ max a b + 1 ∧ (unsigned = true → 0 ≤ x) := by
  simp only [countedPoints, samplePoints_int, List.mem_filter, List.mem_cons, List.not_mem_nil,
    or_false] at h
  obtain ⟨hpoint, hcounts⟩ := h
  have hmiddle : midpoint a b ≤ max a b + 1 := by unfold midpoint; split <;> omega
  rcases hpoint with rfl | rfl | rfl | rfl | rfl
  all_goals
    refine ⟨_, rfl, by omega, fun hunsigned => ?_⟩
    simpa [hunsigned, Number.isNegative] using hcounts

/-- The midpoint does not depend on which number comes first. -/
theorem midpoint_comm (a b : ℤ) : midpoint a b = midpoint b a := by
  rw [midpoint, midpoint, max_comm, min_comm]

/-- The points that count do not depend on which constant comes first. -/
theorem mem_countedPoints_comm {unsigned : Bool} {a b : ℤ} {n : Number} :
    n ∈ countedPoints unsigned (.int a) (.int b) ↔ n ∈ countedPoints unsigned (.int b) (.int a) := by
  rw [countedPoints, countedPoints, List.mem_filter, List.mem_filter, samplePoints_int, samplePoints_int,
    midpoint_comm, max_comm, min_comm]
  simp only [List.mem_cons]
  tauto

section Shows

variable (o₁ o₂ : Order) (a b : ℤ) (n₁ n₂ : Bool) (related : Bool → Bool → Bool)

/-- A relation between two integer tests holds of an integer when it holds of its representative. -/
theorem related_representative (x : ℤ) :
    related ((Test.ofInt o₁ a n₁).isTrueAt (.int (representative a b x)))
        ((Test.ofInt o₂ b n₂).isTrueAt (.int (representative a b x))) =
      related ((Test.ofInt o₁ a n₁).isTrueAt (.int x)) ((Test.ofInt o₂ b n₂).isTrueAt (.int x)) := by
  rw [isTrueAt_representative o₁ n₁ a b x (Or.inl rfl), isTrueAt_representative o₂ n₂ a b x (Or.inr rfl)]

/-- The same is shown with the tests in the other order. -/
theorem showsAtPoints_swap (unsigned : Bool) :
    showsAtPoints unsigned (Test.ofInt o₁ a n₁) (Test.ofInt o₂ b n₂) related =
      showsAtPoints unsigned (Test.ofInt o₂ b n₂) (Test.ofInt o₁ a n₁) fun p q => related q p := by
  have hpoints (x : Number) : x ∈ countedPoints unsigned (.int a) (.int b) ↔
      x ∈ countedPoints unsigned (.int b) (.int a) := mem_countedPoints_comm
  rw [Bool.eq_iff_iff, showsAtPoints_iff, showsAtPoints_iff]
  apply and_congr
  · rw [not_iff_not, List.eq_nil_iff_forall_not_mem, List.eq_nil_iff_forall_not_mem]
    exact forall_congr' fun x => not_congr (hpoints x)
  · exact forall_congr' fun x => imp_congr (hpoints x) Iff.rfl

/-- All five points together show exactly what holds of every integer. -/
theorem showsAtPoints_iff_forall :
    showsAtPoints false (Test.ofInt o₁ a n₁) (Test.ofInt o₂ b n₂) related = true ↔
      ∀ x : ℤ, related ((Test.ofInt o₁ a n₁).isTrueAt (.int x))
        ((Test.ofInt o₂ b n₂).isTrueAt (.int x)) = true := by
  have hcounted (x : ℤ) : Number.int (representative a b x) ∈ countedPoints false (.int a) (.int b) :=
    List.mem_filter.mpr ⟨representative_mem a b x, rfl⟩
  rw [showsAtPoints_iff]
  constructor
  · rintro ⟨-, hall⟩ x
    rw [← related_representative o₁ o₂ a b n₁ n₂ related x]
    exact hall _ (hcounted x)
  · intro hforall
    refine ⟨List.ne_nil_of_mem (hcounted 0), fun n hn => ?_⟩
    obtain ⟨x, rfl, -⟩ := exists_of_mem_countedPoints hn
    exact hforall x

end Shows

/-- Whether an integer has a two's complement representation of the given width. -/
def FitsIn (bits : ℕ) (v : ℤ) : Prop := -2 ^ (bits - 1) ≤ v ∧ v < 2 ^ (bits - 1)

instance (bits : ℕ) (v : ℤ) : Decidable (FitsIn bits v) := inferInstanceAs (Decidable (_ ∧ _))

/-- The result of an operation of the given width, unless it overflows. -/
def checked? (bits : ℕ) (v : ℤ) : Option ℤ := if FitsIn bits v then some v else none

/-- The result of an operation that does not overflow. -/
theorem checked?_eq_some {bits : ℕ} {v : ℤ} (h : FitsIn bits v) : checked? bits v = some v := if_pos h

/-- The sample points of two integer constants, computed with operations of the given width. It fails as
soon as one of them overflows. -/
def checkedPoints? (bits : ℕ) (a b : ℤ) : Option (List Number) := do
  let low := min a b
  let high := max a b
  let width ← checked? bits (high - low)
  let middle ←
    if 2 ≤ width then do
      let half ← checked? bits (width / 2)
      checked? bits (low + half)
    else checked? bits (low + 1)
  let below ← checked? bits (low - 1)
  let above ← checked? bits (high + 1)
  return [.int below, .int a, .int middle, .int b, .int above]

/-- Operations of twice the width of the constants do not overflow. -/
theorem checkedPoints?_eq_samplePoints {a b : ℤ} (ha : FitsIn 64 a) (hb : FitsIn 64 b) :
    checkedPoints? 128 a b = some (samplePoints (.int a) (.int b)) := by
  unfold FitsIn at ha hb
  have hwidth : FitsIn 128 (max a b - min a b) := by unfold FitsIn; omega
  have hhalf : FitsIn 128 ((max a b - min a b) / 2) := by unfold FitsIn; omega
  have hmiddle : FitsIn 128 (min a b + (max a b - min a b) / 2) := by unfold FitsIn; omega
  have hnext : FitsIn 128 (min a b + 1) := by unfold FitsIn; omega
  have hbelow : FitsIn 128 (min a b - 1) := by unfold FitsIn; omega
  have habove : FitsIn 128 (max a b + 1) := by unfold FitsIn; omega
  rw [samplePoints_int, midpoint]
  simp only [checkedPoints?, checked?_eq_some hwidth, checked?_eq_some hhalf,
    checked?_eq_some hmiddle, checked?_eq_some hnext, checked?_eq_some hbelow,
    checked?_eq_some habove, Option.bind_eq_bind, Option.bind_some]
  split <;> rfl

/-- Over the integers an outcome is exact: each of its parts is set if and only if what it says holds of
every integer. For constants of 64 bits, arithmetic of 128 bits computes the points without overflow. -/
theorem ofTests_signed_exact (c : Connective) (o₁ o₂ : Order) (n₁ n₂ : Bool) (a b : ℤ) :
    let first := Test.ofInt o₁ a n₁
    let second := Test.ofInt o₂ b n₂
    let outcome := Outcome.ofTests c false first second
    (outcome.alwaysTrue = true ↔
        ∀ x : ℤ, c.eval (first.isTrueAt (.int x)) (second.isTrueAt (.int x)) = true) ∧
      (outcome.alwaysFalse = true ↔
        ∀ x : ℤ, c.eval (first.isTrueAt (.int x)) (second.isTrueAt (.int x)) = false) ∧
      (outcome.firstImplies = true ↔
        ∀ x : ℤ, first.isTrueAt (.int x) = true → second.isTrueAt (.int x) = true) ∧
      (outcome.secondImplies = true ↔
        ∀ x : ℤ, second.isTrueAt (.int x) = true → first.isTrueAt (.int x) = true) ∧
      (FitsIn 64 a → FitsIn 64 b →
        checkedPoints? 128 a b = some (samplePoints (.int a) (.int b))) := by
  intro first second outcome
  have houtcome : outcome = _ := Outcome.ofTests_eq_showsAtPoints c false first second
  have hshows (related : Bool → Bool → Bool) := showsAtPoints_iff_forall o₁ o₂ a b n₁ n₂ related
  refine ⟨?_, ?_, ?_, ?_, checkedPoints?_eq_samplePoints⟩
  · rw [houtcome, hshows]
  · rw [houtcome, hshows]
    exact forall_congr' fun x => iff_of_eq (Bool.not_eq_true' _)
  · rw [houtcome, hshows]
    exact forall_congr' fun x => not_and_not_eq_true_iff _ _
  · rw [houtcome, hshows]
    exact forall_congr' fun x => not_and_not_eq_true_iff _ _

/-- The exactness of an outcome at the ends of the range of 64 bits, where the points lie outside of it. -/
theorem ofTests_signed_exact_extremes :
    FitsIn 64 (-2 ^ 63) ∧ FitsIn 64 (2 ^ 63 - 1) ∧
      checkedPoints? 128 (-2 ^ 63) (2 ^ 63 - 1) =
        some (samplePoints (.int (-2 ^ 63)) (.int (2 ^ 63 - 1))) :=
  ⟨by decide, by decide,
    (ofTests_signed_exact .or .lt .gt false true (-2 ^ 63) (2 ^ 63 - 1)).2.2.2.2 (by decide) (by decide)⟩

/-- Whether the sample points of an unsigned value overlook numbers: those from zero up to the greater
constant, when the other one is negative and further from zero. -/
def Overlooks (a b : ℤ) : Prop := a + b < 0 ∧ 0 < max a b

instance (a b : ℤ) : Decidable (Overlooks a b) := inferInstanceAs (Decidable (_ ∧ _))

/-- A non-negative number has a non-negative representative unless it is overlooked. -/
theorem representative_nonneg_iff {a b x : ℤ} (hx : 0 ≤ x) (hmax : -1 ≤ max a b) :
    0 ≤ representative a b x ↔ ¬(a + b < 0 ∧ x < max a b) := by
  unfold representative midpoint
  split_ifs <;> omega

/-- The overlooked numbers share their representative with zero. -/
theorem representative_eq_of_overlooked {a b x : ℤ} (hx : 0 ≤ x) (hsum : a + b < 0) (hxmax : x < max a b) :
    representative a b x = representative a b 0 := by
  unfold representative
  split_ifs <;> omega

/-- What is shown of an unsigned value holds of every non-negative integer, unless numbers are overlooked
and it fails of zero, which stands for all of them. -/
theorem forall_nonneg_iff_of_showsAtPoints (o₁ o₂ : Order) (a b : ℤ) (n₁ n₂ : Bool)
    (related : Bool → Bool → Bool)
    (hshown : showsAtPoints true (Test.ofInt o₁ a n₁) (Test.ofInt o₂ b n₂) related = true) :
    (∀ x : ℤ, 0 ≤ x → related ((Test.ofInt o₁ a n₁).isTrueAt (.int x))
        ((Test.ofInt o₂ b n₂).isTrueAt (.int x)) = true) ↔
      ¬(Overlooks a b ∧ related ((Test.ofInt o₁ a n₁).isTrueAt (.int 0))
        ((Test.ofInt o₂ b n₂).isTrueAt (.int 0)) = false) := by
  have hrelated := related_representative o₁ o₂ a b n₁ n₂ related
  obtain ⟨hpoints, hall⟩ := (showsAtPoints_iff _ _ _ _).mp hshown
  have hmax : -1 ≤ max a b := by
    obtain ⟨n, hn⟩ := List.exists_mem_of_ne_nil _ hpoints
    obtain ⟨x, -, hle, hnonneg⟩ := exists_of_mem_countedPoints hn
    have := hnonneg rfl
    omega
  constructor
  · rintro hforall ⟨-, hzero⟩
    rw [hforall 0 le_rfl] at hzero
    contradiction
  · intro hunless x hx
    rw [← hrelated]
    by_cases hoverlooked : a + b < 0 ∧ x < max a b
    · obtain ⟨hsum, hxmax⟩ := hoverlooked
      rw [representative_eq_of_overlooked hx hsum hxmax, hrelated]
      by_contra hzero
      exact hunless ⟨⟨hsum, by omega⟩, Bool.eq_false_iff.mpr hzero⟩
    · refine hall _ (List.mem_filter.mpr ⟨representative_mem a b x, ?_⟩)
      have := (representative_nonneg_iff hx hmax).mpr hoverlooked
      simpa [Number.isNegative] using this

/-- For an unsigned value a part of an outcome that is set is right about every non-negative integer,
except when the points overlook numbers and it is wrong about zero. -/
theorem ofTests_unsigned_right_iff (c : Connective) (o₁ o₂ : Order) (n₁ n₂ : Bool) (a b : ℤ) :
    let first := Test.ofInt o₁ a n₁
    let second := Test.ofInt o₂ b n₂
    let outcome := Outcome.ofTests c true first second
    (outcome.alwaysTrue = true →
        ((∀ x : ℤ, 0 ≤ x → c.eval (first.isTrueAt (.int x)) (second.isTrueAt (.int x)) = true) ↔
          ¬(Overlooks a b ∧ c.eval (first.isTrueAt (.int 0)) (second.isTrueAt (.int 0)) = false))) ∧
      (outcome.alwaysFalse = true →
        ((∀ x : ℤ, 0 ≤ x → c.eval (first.isTrueAt (.int x)) (second.isTrueAt (.int x)) = false) ↔
          ¬(Overlooks a b ∧ c.eval (first.isTrueAt (.int 0)) (second.isTrueAt (.int 0)) = true))) ∧
      (outcome.firstImplies = true →
        ((∀ x : ℤ, 0 ≤ x → first.isTrueAt (.int x) = true → second.isTrueAt (.int x) = true) ↔
          ¬(Overlooks a b ∧ ¬(first.isTrueAt (.int 0) = true → second.isTrueAt (.int 0) = true)))) ∧
      (outcome.secondImplies = true →
        ((∀ x : ℤ, 0 ≤ x → second.isTrueAt (.int x) = true → first.isTrueAt (.int x) = true) ↔
          ¬(Overlooks a b ∧ ¬(second.isTrueAt (.int 0) = true → first.isTrueAt (.int 0) = true)))) := by
  intro first second outcome
  have houtcome : outcome = _ := Outcome.ofTests_eq_showsAtPoints c true first second
  have hright (related : Bool → Bool → Bool) :=
    forall_nonneg_iff_of_showsAtPoints o₁ o₂ a b n₁ n₂ related
  refine ⟨fun hset => ?_, fun hset => ?_, fun hset => ?_, fun hset => ?_⟩
  all_goals rw [houtcome] at hset
  · exact hright (fun p q => c.eval p q) hset
  · simpa only [Bool.not_eq_true', Bool.not_eq_false'] using hright (fun p q => !c.eval p q) hset
  · simpa only [not_and_not_eq_true_iff, ← Bool.not_eq_true] using
      hright (fun p q => !(p && !q)) hset
  · simpa only [not_and_not_eq_true_iff, ← Bool.not_eq_true] using
      hright (fun p q => !(q && !p)) hset

/-- `x >= 2 && x >= -3` counts as always true for an unsigned `x`, and is false at zero. -/
theorem ofTests_unsigned_wrong_at_zero :
    (Outcome.ofTests .and true (.ofInt .ge 2 false) (.ofInt .ge (-3) false)).alwaysTrue = true ∧
      ¬∀ x : ℤ, 0 ≤ x → Connective.and.eval ((Test.ofInt .ge 2 false).isTrueAt (.int x))
        ((Test.ofInt .ge (-3) false).isTrueAt (.int x)) = true :=
  ⟨by decide, fun hforall =>
    ((ofTests_unsigned_right_iff .and .ge .ge false false 2 (-3)).1 (by decide)).mp hforall
      ⟨by decide, by decide⟩⟩

end ConditionLint
