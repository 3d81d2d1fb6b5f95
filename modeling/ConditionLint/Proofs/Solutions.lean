import ConditionLint.Proofs.Relation
import ConditionLint.Proofs.SamplePoints

/-!
# Solutions of integer relations

The integers that satisfy a relation with an integer constant form closed intervals. Unions of these are found disjoint
exactly when they share no integer, so the decisions about two relations are exact: exclusion, implication and
complement are found if and only if the solutions are so related.

The only arithmetic is a step down or up from a constant. With twice the width of the constants it does not overflow.
-/

namespace ConditionLint

namespace Relation

/-! ## Exact decisions -/

/-- The solutions of an integer relation form closed intervals. -/
theorem isClosed_of_mem_intParts {o : Order} {v : ℤ} {i : Interval ℤ} (hi : i ∈ intParts o v) : i.IsClosed := by
  cases o <;> simp only [intParts, List.mem_cons, List.not_mem_nil, or_false] at hi
  case ne => rcases hi with rfl | rfl <;> exact ⟨rfl, rfl⟩
  all_goals
    subst hi
    exact ⟨rfl, rfl⟩

variable (o o' : Order) (v w : ℤ)

/-- Relations exclude each other exactly when they have no integer solution in common. -/
theorem excludes_iff : (⟨o, .int v⟩ : Relation).excludes ⟨o', .int w⟩ = true ↔
    ∀ x : ℤ, ¬(o.holds x v = true ∧ o'.holds x w = true) := by
  have hclosed {o : Order} {v : ℤ} : ∀ i ∈ (IntervalUnion.ofParts (intParts o v)).parts, i.IsClosed :=
    fun i hi => isClosed_of_mem_intParts (List.mem_filter.mp hi).1
  simp only [← contains_intParts]
  exact IntervalUnion.isDisjoint_iff_forall hclosed hclosed

/-- One relation implies another exactly when its integer solutions are among those of the other. -/
theorem implies_iff : (⟨o, .int v⟩ : Relation).implies ⟨o', .int w⟩ = true ↔
    ∀ x : ℤ, o.holds x v = true → o'.holds x w = true := by
  rw [implies, negate, excludes_iff]
  simp

/-- Relations are complements exactly when every integer satisfies one of them and not the other. -/
theorem complements_iff : (⟨o, .int v⟩ : Relation).complements ⟨o', .int w⟩ = true ↔
    ∀ x : ℤ, o.holds x v = !o'.holds x w := by
  rw [complements, Bool.and_eq_true, negate, implies_iff, implies_iff, ← forall_and]
  refine forall_congr' fun x => ?_
  rw [Order.holds_negate]
  cases o.holds x v <;> cases o'.holds x w <;> decide

/-! ## Arithmetic of a fixed width -/

/-- The intervals of a relation, computed with operations of the given width. It fails when one of them overflows. -/
def checkedParts? (bits : ℕ) (o : Order) (v : ℤ) : Option (List (Interval ℤ)) := do
  match o with
  | .eq => return [.point v]
  | .ne =>
    let below ← checked? bits (v - 1)
    let above ← checked? bits (v + 1)
    return [⟨.negInf, .included below⟩, ⟨.included above, .posInf⟩]
  | .lt =>
    let below ← checked? bits (v - 1)
    return [⟨.negInf, .included below⟩]
  | .le => return [⟨.negInf, .included v⟩]
  | .gt =>
    let above ← checked? bits (v + 1)
    return [⟨.included above, .posInf⟩]
  | .ge => return [⟨.included v, .posInf⟩]

/-- Operations of twice the width of the constant do not overflow. -/
theorem checkedParts?_eq_intParts {v : ℤ} (hv : FitsIn 64 v) (o : Order) :
    checkedParts? 128 o v = some (intParts o v) := by
  unfold FitsIn at hv
  have hbelow : FitsIn 128 (v - 1) := by unfold FitsIn; omega
  have habove : FitsIn 128 (v + 1) := by unfold FitsIn; omega
  cases o <;> simp [checkedParts?, intParts, checked?_eq_some hbelow, checked?_eq_some habove]

/-- Whether two integer relations exclude each other, with bounds of the given width. -/
def checkedExcludes? (bits : ℕ) (r s : Relation) : Option Bool :=
  match r.value, s.value with
  | .int v, .int w => do
    let a ← checkedParts? bits r.order v
    let b ← checkedParts? bits s.order w
    return (IntervalUnion.ofParts a).isDisjoint (.ofParts b)
  | _, _ => none

/-- Whether one integer relation implies another, with bounds of the given width. -/
def checkedImplies? (bits : ℕ) (r s : Relation) : Option Bool := checkedExcludes? bits r s.negate

/-- Whether two integer relations are complements, with bounds of the given width. -/
def checkedComplements? (bits : ℕ) (r s : Relation) : Option Bool := do
  let forward ← checkedImplies? bits r s.negate
  let backward ← checkedImplies? bits s.negate r
  return forward && backward

/-- Bounds of 128 bits are enough to tell whether relations with constants of 64 bits exclude each other. -/
theorem checkedExcludes?_eq {v w : ℤ} (hv : FitsIn 64 v) (hw : FitsIn 64 w) (o o' : Order) :
    checkedExcludes? 128 ⟨o, .int v⟩ ⟨o', .int w⟩ = some ((⟨o, .int v⟩ : Relation).excludes ⟨o', .int w⟩) := by
  simp only [checkedExcludes?, checkedParts?_eq_intParts hv, checkedParts?_eq_intParts hw, Option.bind_eq_bind,
    Option.bind_some]
  rfl

end Relation

/-- Over the integers the decisions about two relations are exact. Two relations exclude each other if and only if no
integer satisfies both, one implies the other if and only if its solutions are among those of the other, and they are
complements if and only if every integer satisfies exactly one of them. For constants of 64 bits, arithmetic of 128 bits
makes each decision without overflow. -/
theorem integer_relations_exact (o o' : Order) (v w : ℤ) :
    let r : Relation := ⟨o, .int v⟩
    let s : Relation := ⟨o', .int w⟩
    (r.excludes s = true ↔ ∀ x : ℤ, ¬(r.holdsAt (.int x) = true ∧ s.holdsAt (.int x) = true)) ∧
      (r.implies s = true ↔ ∀ x : ℤ, r.holdsAt (.int x) = true → s.holdsAt (.int x) = true) ∧
      (r.complements s = true ↔ ∀ x : ℤ, r.holdsAt (.int x) = !s.holdsAt (.int x)) ∧
      (FitsIn 64 v → FitsIn 64 w →
        r.checkedExcludes? 128 s = some (r.excludes s) ∧ r.checkedImplies? 128 s = some (r.implies s) ∧
          r.checkedComplements? 128 s = some (r.complements s)) := by
  intro r s
  refine ⟨Relation.excludes_iff o o' v w, Relation.implies_iff o o' v w, Relation.complements_iff o o' v w, ?_⟩
  intro hv hw
  have hexcludes := Relation.checkedExcludes?_eq hv hw
  refine ⟨hexcludes o o', hexcludes o o'.negate, ?_⟩
  have hforward : r.checkedImplies? 128 s.negate = some (r.implies s.negate) := hexcludes o o'.negate.negate
  have hbackward : s.negate.checkedImplies? 128 r = some (s.negate.implies r) :=
    Relation.checkedExcludes?_eq hw hv o'.negate o.negate
  rw [Relation.checkedComplements?, hforward, hbackward]
  rfl

/-- For the greatest constant of 64 bits, `x != c` and `x == c` are complements. The decision needs the number behind
the constant, so that it overflows with 64 bits, and not with 128. -/
theorem integer_relations_exact_greatestConstant :
    let r : Relation := ⟨.ne, .int (2 ^ 63 - 1)⟩
    let s : Relation := ⟨.eq, .int (2 ^ 63 - 1)⟩
    FitsIn 64 (2 ^ 63 - 1) ∧ (∀ x : ℤ, r.holdsAt (.int x) = !s.holdsAt (.int x)) ∧
      r.checkedComplements? 64 s = none ∧ r.checkedComplements? 128 s = some true := by
  intro r s
  have hfits : FitsIn 64 (2 ^ 63 - 1) := by decide
  obtain ⟨-, -, hcomplements, hchecked⟩ := integer_relations_exact .ne .eq (2 ^ 63 - 1) (2 ^ 63 - 1)
  refine ⟨hfits, hcomplements.mp (by decide), by decide, ?_⟩
  exact (hchecked hfits hfits).2.2.trans (congrArg some (by decide))

end ConditionLint
