import ConditionLint.Condition.Opposition
import ConditionLint.Proofs.Comparison
import ConditionLint.Proofs.Relation

/-!
# Opposite and exclusive integer conditions

Whatever the variables stand for, two conditions that are found to be opposite have opposite truth values,
and two that are found exclusive are not both true. Each of the three deciders comes down to one integer:
the truth of a common subexpression, the value of a common base, or the difference of two operands. A
conjunction is excluded through one of its operands, which are all true when it is.
-/

namespace ConditionLint

open ConditionLint.Tree

namespace Tree

/-- A plain integer node negates no negation. -/
theorem single_of_isPlainInteger (t : Tree) (h : t.isPlainInteger = true) :
    t.isDoubleNegation = false := by
  simpa using (Bool.and_eq_true_iff.mp h).2

/-- Relations that two conditions share are relations on one base, or on one difference. -/
theorem sharedRelations?_cases {t u : Tree} {rs : Relation × Relation}
    (h : sharedRelations? t u = some rs) :
    baseRelations? t u = some rs ∨ differenceRelations? t u = some rs := by
  cases hbase : baseRelations? t u with
  | some relations => exact Or.inl (by simpa [sharedRelations?, hbase] using h)
  | none => exact Or.inr (by simpa [sharedRelations?, hbase] using h)

/-- The orders in which two comparisons between the same two operands put the operands of the first one. -/
def sharedOrders? (t u : Tree) : Option (Order × Order) :=
  match t.comparison?, u.comparison? with
  | some (o, a, b), some (o', c, d) =>
    if same a c && same b d then some (o, o')
    else if same a d && same b c then some (o, o'.swap)
    else none
  | _, _ => none

/-- Whether the condition compares an operand of known value. -/
def comparesKnown (t : Tree) : Bool := t.comparison?.any fun (_, a, b) => a.hasValue || b.hasValue

/-- The zero with which the difference of the operands of a comparison is compared. -/
def zeroDifference (t : Tree) : Number :=
  if t.comparison?.all fun (_, a, b) => a.isDiscrete && b.isDiscrete then .int 0 else .float 0

/-- Orders that two comparisons share are relations on the difference, unless the first comparison has an operand
of known value. -/
theorem differenceRelations?_eq (t u : Tree) : differenceRelations? t u =
    if t.comparesKnown then none
    else (sharedOrders? t u).map fun (o, o') => (⟨o, t.zeroDifference⟩, ⟨o', t.zeroDifference⟩) := by
  unfold differenceRelations? sharedOrders? comparesKnown zeroDifference
  cases t.comparison? with
  | none => simp
  | some first =>
    cases u.comparison? with
    | none => simp
    | some second =>
      obtain ⟨o, a, b⟩ := first
      obtain ⟨o', c, d⟩ := second
      simp only [Option.any_some, Option.all_some, apply_ite (Option.map _), Option.map_some, Option.map_none]

/-- What two comparisons with shared orders look like. -/
theorem of_sharedOrders? {t u : Tree} {o o' : Order} (h : sharedOrders? t u = some (o, o')) :
    ∃ a b c d, t.comparison? = some (o, a, b) ∧
      (u.comparison? = some (o', c, d) ∧ same a c = true ∧ same b d = true ∨
        u.comparison? = some (o'.swap, c, d) ∧ same a d = true ∧ same b c = true) := by
  unfold sharedOrders? at h
  split at h
  · next hcomparison hcomparison' =>
    split at h
    · next hstraight =>
      obtain ⟨rfl, rfl⟩ := Prod.mk.inj (Option.some.inj h)
      exact ⟨_, _, _, _, hcomparison, Or.inl ⟨hcomparison', Bool.and_eq_true_iff.mp hstraight⟩⟩
    · split at h
      · next hcrossed =>
        obtain ⟨rfl, rfl⟩ := Prod.mk.inj (Option.some.inj h)
        rw [Order.swap_swap]
        exact ⟨_, _, _, _, hcomparison, Or.inr ⟨hcomparison', Bool.and_eq_true_iff.mp hcrossed⟩⟩
      · contradiction
  · contradiction

/-- What holds of relations on a difference holds of the same orders over the integers. -/
theorem exists_of_differenceRelations? {t u : Tree} {verdict : Relation → Relation → Bool}
    (heven : Relation.IsEven verdict) {r s : Relation} (h : differenceRelations? t u = some (r, s))
    (hverdict : verdict r s = true) :
    ∃ o o', sharedOrders? t u = some (o, o') ∧ verdict ⟨o, .int 0⟩ ⟨o', .int 0⟩ = true := by
  rw [differenceRelations?_eq] at h
  split at h
  · contradiction
  · obtain ⟨⟨o, o'⟩, hshared, hrelations⟩ := Option.map_eq_some_iff.mp h
    obtain ⟨rfl, rfl⟩ := Prod.mk.inj hrelations
    refine ⟨o, o', hshared, ?_⟩
    unfold zeroDifference at hverdict
    split at hverdict
    · exact hverdict
    · rwa [heven.zero] at hverdict

/-- The operands that are reached from a pure expression through one operator are pure. -/
theorem Pure.of_mem_chain {p : Tree → Bool} {t : Tree} (h : t.Pure p) (op : BinaryOp) :
    ∀ a ∈ t.chain op, a.Pure p := by
  fun_induction chain op t with
  | case1 l lhs rhs _ ihl ihr =>
    obtain ⟨hl, hr⟩ := h.of_binary
    exact fun s hs => (List.mem_append.mp hs).elim (ihl hl s) (ihr hr s)
  | case2 l lhs rhs _ => exact fun s hs => List.mem_singleton.mp hs ▸ h
  | case3 t _ => exact fun s hs => List.mem_singleton.mp hs ▸ h

/-- The conjuncts of a condition are operands of its chain. -/
theorem mem_chain_of_mem_conjuncts {a t : Tree} (h : a ∈ conjuncts t) : a ∈ t.chain (.logic .and) := by
  unfold conjuncts at h
  split at h
  · exact h
  · contradiction

/-- Exclusive conditions clash, as they stand or in one of their conjuncts. -/
theorem exclusive_cases {t u : Tree} (h : exclusive t u = true) :
    ∃ a ∈ t :: conjuncts t, ∃ b ∈ u :: conjuncts u, clash a b = true ∨ clash b a = true := by
  simp only [exclusive, Bool.or_eq_true, List.any_eq_true] at h
  rcases h with (h | ⟨a, ha, h | ⟨b, hb, h⟩⟩) | ⟨b, hb, h | ⟨a, ha, h⟩⟩
  · exact ⟨t, List.mem_cons_self, u, List.mem_cons_self, Or.inl h⟩
  · exact ⟨a, List.mem_cons_of_mem t ha, u, List.mem_cons_self, Or.inl h⟩
  · exact ⟨a, List.mem_cons_of_mem t ha, b, List.mem_cons_of_mem u hb, Or.inr h⟩
  · exact ⟨t, List.mem_cons_self, b, List.mem_cons_of_mem u hb, Or.inr h⟩
  · exact ⟨a, List.mem_cons_of_mem t ha, b, List.mem_cons_of_mem u hb, Or.inl h⟩

end Tree

namespace Valuation

/-- The operands of a conjunction are true when it is. -/
theorem isTrue_of_mem_chain {α : Type} [Ring α] [LinearOrder α] [Nontrivial α] (V : Valuation α)
    {t : Tree} (ht : V.isTrue t = true) : ∀ a ∈ t.chain (.logic .and), V.isTrue a = true := by
  fun_induction chain (.logic .and) t with
  | case1 l lhs rhs hkind ihl ihr =>
    rw [V.isTrue_logic hkind] at ht
    obtain ⟨hl, hr⟩ := Bool.and_eq_true_iff.mp ht
    exact fun s hs => (List.mem_append.mp hs).elim (ihl hl s) (ihr hr s)
  | case2 l lhs rhs hkind => exact fun s hs => List.mem_singleton.mp hs ▸ ht
  | case3 t hshape => exact fun s hs => List.mem_singleton.mp hs ▸ ht

/-- The negation of a condition has the opposite truth value. -/
theorem isTrue_eq_not_of_isNegationOf {α : Type} [Ring α] [LinearOrder α] [Nontrivial α]
    (V : Valuation α) {p : Tree → Bool} (hp : ∀ s, p s = true → s.isDoubleNegation = false)
    {t u : Tree} (ht : t.Pure p) (hu : u.Pure p) (h : isNegationOf t u = true) :
    V.isTrue t = !V.isTrue u := by
  obtain ⟨inner, hinner, hsame⟩ := (Option.any_eq_true _ _).mp h
  obtain ⟨l, rfl, hkind⟩ := eq_node_of_negated? hinner
  cases ht with
  | unary _ _ _ hpure =>
    have heq := V.eval_eq_of_same hp hpure hu (Bool.and_eq_true_iff.mp hsame).1
    rw [V.isTrue_not hkind, isTrue, isTrue, heq]

section Integers

variable (V : Valuation ℤ) {t u : Tree}

/-- Two integer conditions are about one integer when the truth of each is a relation on it. -/
def AboutOne (V : Valuation ℤ) (t u : Tree) (r s : Relation) : Prop :=
  ∃ o v o' w, r = ⟨o, .int v⟩ ∧ s = ⟨o', .int w⟩ ∧
    ∃ x : ℤ, V.isTrue t = o.holds x v ∧ V.isTrue u = o'.holds x w

section Single

variable {p : Tree → Bool} (hp : ∀ s, p s = true → s.isDoubleNegation = false) (ht : t.Pure p) (hu : u.Pure p)
include hp ht hu

/-- Tests of the same base are about its value. -/
theorem aboutOne_of_baseRelations? {r s : Relation} (h : baseRelations? t u = some (r, s)) :
    V.AboutOne t u r s := by
  unfold baseRelations? at h
  split at h
  · next c d hc hd =>
    split at h
    · next hsame =>
      obtain ⟨rfl, rfl⟩ := Prod.mk.inj (Option.some.inj h)
      obtain ⟨hbase, o, v, hmeaning, htruth⟩ := Comparison.isTrue_eq_holds_meaning (α := ℤ) ht hc
      obtain ⟨hbase', o', w, hmeaning', htruth'⟩ := Comparison.isTrue_eq_holds_meaning (α := ℤ) hu hd
      have heq := V.eval_eq_of_same hp hbase hbase' (Bool.and_eq_true_iff.mp hsame).2
      exact ⟨o, v, o', w, hmeaning, hmeaning', V.eval c.base, htruth V, by rw [heq]; exact htruth' V⟩
    · contradiction
  · contradiction

/-- Comparisons between the same two operands are about their difference. -/
theorem aboutOne_of_sharedOrders? {o o' : Order} (h : sharedOrders? t u = some (o, o')) :
    V.AboutOne t u ⟨o, .int 0⟩ ⟨o', .int 0⟩ := by
  have hsame {a b : Tree} (ha : a.Pure p) (hb : b.Pure p) := V.eval_eq_of_same hp ha hb
  obtain ⟨a, b, c, d, hcomparison, hcases⟩ := of_sharedOrders? h
  obtain ⟨l, rfl, hkind⟩ := eq_node_of_comparison? hcomparison
  obtain ⟨ha, hb⟩ := ht.of_binary
  have htruth : V.isTrue (node l [a, b]) = o.holds (V.eval a - V.eval b) 0 := by
    rw [V.isTrue_compare hkind, Order.holds_sub_zero]
  refine ⟨o, 0, o', 0, rfl, rfl, _, htruth, ?_⟩
  rcases hcases with ⟨hcomparison', hac, hbd⟩ | ⟨hcomparison', had, hbc⟩
  · obtain ⟨m, rfl, hkind'⟩ := eq_node_of_comparison? hcomparison'
    obtain ⟨hc, hd⟩ := hu.of_binary
    rw [V.isTrue_compare hkind', Order.holds_sub_zero, hsame ha hc hac, hsame hb hd hbd]
  · obtain ⟨m, rfl, hkind'⟩ := eq_node_of_comparison? hcomparison'
    obtain ⟨hc, hd⟩ := hu.of_binary
    rw [V.isTrue_compare hkind', Order.holds_sub_zero, Order.holds_swap, hsame ha hd had, hsame hb hc hbc]

/-- A verdict on the relations that two conditions share is a verdict on one integer. Of which type the
compared operands are does not matter. -/
theorem exists_aboutOne {verdict : Relation → Relation → Bool} (heven : Relation.IsEven verdict)
    (h : ((sharedRelations? t u).any fun (r, s) => verdict r s) = true) :
    ∃ r s, V.AboutOne t u r s ∧ verdict r s = true := by
  obtain ⟨⟨r, s⟩, hshared, hverdict⟩ := (Option.any_eq_true _ _).mp h
  rcases sharedRelations?_cases hshared with hbase | hdifference
  · exact ⟨r, s, V.aboutOne_of_baseRelations? hp ht hu hbase, hverdict⟩
  · obtain ⟨o, o', horders, hverdict⟩ := exists_of_differenceRelations? heven hdifference hverdict
    exact ⟨_, _, V.aboutOne_of_sharedOrders? hp ht hu horders, hverdict⟩

/-- Exactly one of two opposite conditions is true. -/
theorem isTrue_of_opposite (h : opposite t u = true) : V.isTrue t = !V.isTrue u := by
  simp only [opposite, Bool.or_eq_true] at h
  rcases h with (hnegation | hnegation) | hrelations
  · exact V.isTrue_eq_not_of_isNegationOf hp ht hu hnegation
  · rw [V.isTrue_eq_not_of_isNegationOf hp hu ht hnegation, Bool.not_not]
  · obtain ⟨r, s, ⟨o, v, o', w, rfl, rfl, x, hx, hx'⟩, hcomplements⟩ :=
      V.exists_aboutOne hp ht hu Relation.isEven_complements hrelations
    rw [hx, hx']
    exact Relation.holds_eq_not_of_complements hcomplements x

end Single

/-- Exactly one of two opposite integer conditions is true. -/
theorem isTrue_eq_not_of_opposite (ht : t.Pure isPlainInteger) (hu : u.Pure isPlainInteger)
    (h : opposite t u = true) : V.isTrue t = !V.isTrue u :=
  V.isTrue_of_opposite single_of_isPlainInteger ht hu h

/-- Integer conditions that clash are not both true. -/
theorem isTrue_eq_false_of_clash (ht : t.Pure isPlainInteger) (hu : u.Pure isPlainInteger)
    (h : clash t u = true) (htrue : V.isTrue t = true) : V.isTrue u = false := by
  rcases Bool.or_eq_true_iff.mp h with hopposite | hrelations
  · simpa [htrue] using V.isTrue_eq_not_of_opposite ht hu hopposite
  · obtain ⟨r, s, ⟨o, v, o', w, rfl, rfl, x, hx, hx'⟩, hexcludes⟩ :=
      V.exists_aboutOne single_of_isPlainInteger ht hu Relation.isEven_excludes hrelations
    rw [hx] at htrue
    rw [hx']
    exact Relation.not_holds_of_excludes hexcludes htrue

/-- The operands of a true integer conjunction are pure and true. -/
theorem conjuncts_hold (ht : t.Pure isPlainInteger) (htrue : V.isTrue t = true) :
    ∀ a ∈ conjuncts t, a.Pure isPlainInteger ∧ V.isTrue a = true := by
  intro a ha
  have hchain := mem_chain_of_mem_conjuncts ha
  exact ⟨ht.of_mem_chain _ a hchain, V.isTrue_of_mem_chain htrue a hchain⟩

/-- Of integer conditions that clash, in either order, at most one is true. -/
theorem not_both_of_clash (ht : t.Pure isPlainInteger) (hu : u.Pure isPlainInteger)
    (h : clash t u = true ∨ clash u t = true) : ¬(V.isTrue t = true ∧ V.isTrue u = true) := by
  rintro ⟨htrue, hutrue⟩
  rcases h with h | h
  · simpa [hutrue] using V.isTrue_eq_false_of_clash ht hu h htrue
  · simpa [htrue] using V.isTrue_eq_false_of_clash hu ht h hutrue

/-- Exclusive integer conditions are not both true. -/
theorem not_both_of_exclusive (ht : t.Pure isPlainInteger) (hu : u.Pure isPlainInteger)
    (h : exclusive t u = true) : ¬(V.isTrue t = true ∧ V.isTrue u = true) := by
  rintro ⟨htrue, hutrue⟩
  have hholds {s a : Tree} (hs : s.Pure isPlainInteger) (hstrue : V.isTrue s = true)
      (ha : a ∈ s :: conjuncts s) : a.Pure isPlainInteger ∧ V.isTrue a = true := by
    rcases List.mem_cons.mp ha with rfl | ha
    · exact ⟨hs, hstrue⟩
    · exact V.conjuncts_hold hs hstrue a ha
  obtain ⟨a, ha, b, hb, hclash⟩ := exclusive_cases h
  obtain ⟨hapure, hatrue⟩ := hholds ht htrue ha
  obtain ⟨hbpure, hbtrue⟩ := hholds hu hutrue hb
  exact V.not_both_of_clash hapure hbpure hclash ⟨hatrue, hbtrue⟩

end Integers

end Valuation

/-- Verdicts on integer conditions hold whatever the variables and the arithmetic operators stand for, and
whatever facts are attached: exactly one of two opposite conditions is true, and two exclusive conditions
are not both true. -/
theorem integer_verdicts_right (V : Valuation ℤ) {t u : Tree} (ht : t.Pure isPlainInteger)
    (hu : u.Pure isPlainInteger) :
    (opposite t u = true → V.isTrue t = !V.isTrue u) ∧
      (exclusive t u = true → ¬(V.isTrue t = true ∧ V.isTrue u = true)) :=
  ⟨V.isTrue_eq_not_of_opposite ht hu, V.not_both_of_exclusive ht hu⟩

/-- `a < b` or another comparison of the two variables, with a fact attached that nothing supports. -/
def comparedVariables (first : NodeId) (o : Order) (a b : Variable) : Tree :=
  (ofOperator (first + 2) (.compare o) (ofVariable first a) (ofVariable (first + 1) b)).relabel
    fun l => { l with facts := [.ofValue 1] }

/-- `a < b` and `b <= a` are opposite, and `n && a < b` excludes `b < a`. -/
theorem integer_verdicts_right_comparedVariables :
    let a : Variable := ⟨0, "a", .int, {}⟩
    let b : Variable := ⟨1, "b", .char, {}⟩
    let below := comparedVariables 0 .lt a b
    let guarded := ofOperator 10 (.logic .and) (ofVariable 9 ⟨2, "n", .int, {}⟩) below
    (opposite below (comparedVariables 3 .le b a) = true ∧
        ∀ V : Valuation ℤ, V.isTrue below = !V.isTrue (comparedVariables 3 .le b a)) ∧
      exclusive guarded (comparedVariables 6 .lt b a) = true ∧
        ∀ V : Valuation ℤ, ¬(V.isTrue guarded = true ∧ V.isTrue (comparedVariables 6 .lt b a) = true) := by
  intro a b below guarded
  refine ⟨⟨by decide, fun V => ?_⟩, by decide, fun V => ?_⟩
  · exact (integer_verdicts_right V (by decide) (by decide)).1 (by decide)
  · exact (integer_verdicts_right V (by decide) (by decide)).2 (by decide)

end ConditionLint
