import ConditionLint.Proofs.Equivalence
import ConditionLint.Proofs.Opposition

/-!
# The order of two conditions

Which of two conditions comes first should not matter for the question whether they are opposite or exclude
each other. A negation is tried on both sides, tests of one base are relations that can be exchanged, and the
operands of a conjunction are compared in both orders. Only two comparisons between the same operands are not
treated alike: they are given up when an operand of the first one has a known value, and facts are attached to
single occurrences. So the verdict depends on the order exactly where it rests on such comparisons and one
of them, but not the other, has an operand of known value.
-/

namespace ConditionLint

/-- The node is no floating literal. -/
def Label.NotFloat (l : Label) : Prop := ∀ v text, l.kind ≠ .literal (.float v text)

namespace Tree

variable {t u : Tree}

/-! ## Reading conditions without floating literals -/

/-- A constant operand that is no floating literal is unusable or the integer that it spells. -/
theorem constant?_of_notFloat (h : t.label.NotFloat) {c : Constant} (hc : t.constant? = some c) :
    c = .unusable ∨ ∃ v text isChar, c = .numeric (.int v) text isChar ∧ t.spelledValue? = some v := by
  rcases constant?_cases hc with hunusable | hinteger | ⟨v, text, hkind⟩
  · exact Or.inl hunusable
  · exact Or.inr hinteger
  · exact absurd hkind (h v text)

/-- A comparison with an integer is read as a relation with an integer. -/
theorem meaning_of_compareWith {s base : Tree} (hs : s.label.NotFloat) {constant : Constant}
    (hconstant : s.constant? = some constant) {o : Order} {negated : Bool} {c : Comparison}
    (h : compareWith base o negated constant = some c) : ∃ o v, c.meaning = ⟨o, .int v⟩ := by
  rcases constant?_of_notFloat hs hconstant with rfl | ⟨v, text, isChar, rfl, -⟩
  · contradiction
  · obtain rfl := Option.some.inj h
    exact ⟨_, v, Test.meaning_ofInt o v negated⟩

/-- So is a condition without a negation in front. -/
theorem meaning_of_readBare (ht : t.Everywhere Label.NotFloat) {negated : Bool} {c : Comparison}
    (h : t.readBare negated = some c) : ∃ o v, c.meaning = ⟨o, .int v⟩ := by
  have htruth : ∃ o v, (truthTest t negated).meaning = ⟨o, .int v⟩ := ⟨_, 0, Test.meaning_ofInt .ne 0 negated⟩
  unfold readBare at h
  split at h
  · next o a b hcomparison =>
    obtain ⟨l, rfl, -⟩ := eq_node_of_comparison? hcomparison
    split at h
    · next hleft => exact meaning_of_compareWith (ht.operand (by simp [operands])).label hleft h
    · next hright => exact meaning_of_compareWith (ht.operand (by simp [operands])).label hright h
    · exact Option.some.inj h ▸ htruth
  · exact Option.some.inj h ▸ htruth

/-- So is a condition under negations. -/
theorem meaning_of_readNegated (ht : t.Everywhere Label.NotFloat) {negated : Bool} {c : Comparison}
    (h : t.readNegated negated = some c) : ∃ o v, c.meaning = ⟨o, .int v⟩ := by
  fun_induction readNegated t negated with
  | case1 negated l t ts _ ih => exact ih (ht.operand List.mem_cons_self) h
  | case2 => contradiction
  | case3 negated l ts _ _ => exact meaning_of_readBare ht h

/-! ## Relations in either order -/

/-- Exchanging two conditions exchanges the relations on their common base. -/
theorem baseRelations?_swap (t u : Tree) : baseRelations? u t = (baseRelations? t u).map Prod.swap := by
  unfold baseRelations?
  cases t.comparisonOf? with
  | none => cases u.comparisonOf? <;> rfl
  | some c =>
    cases u.comparisonOf? with
    | none => rfl
    | some d =>
      dsimp only
      rw [same_comm d.base, Bool.and_comm (!d.inconclusive), apply_ite (Option.map Prod.swap)]
      rfl

/-- Relations on a common base are relations with integers. -/
theorem of_baseRelations? (ht : t.Everywhere Label.NotFloat) (hu : u.Everywhere Label.NotFloat) {r s : Relation}
    (h : baseRelations? t u = some (r, s)) : ∃ o v o' w, r = ⟨o, .int v⟩ ∧ s = ⟨o', .int w⟩ := by
  unfold baseRelations? at h
  split at h
  · next c d hc hd =>
    split at h
    · obtain ⟨rfl, rfl⟩ := Prod.mk.inj (Option.some.inj h)
      obtain ⟨o, v, hr⟩ := meaning_of_readNegated ht hc
      obtain ⟨o', w, hs⟩ := meaning_of_readNegated hu hd
      exact ⟨o, v, o', w, hr, hs⟩
    · contradiction
  · contradiction

section Verdict

variable {verdict : Relation → Relation → Bool} (heven : Relation.IsEven verdict)

/-- Whether a verdict applies to two comparisons between the same operands, whatever is known about these. -/
def appliesToOrders (verdict : Relation → Relation → Bool) (t u : Tree) : Bool :=
  (sharedOrders? t u).any fun (o, o') => verdict ⟨o, .int 0⟩ ⟨o', .int 0⟩

/-- Whether a verdict applies to the relations that two conditions share. -/
def applies (verdict : Relation → Relation → Bool) (t u : Tree) : Bool :=
  (sharedRelations? t u).any fun (r, s) => verdict r s

include heven in
/-- With the operands exchanged both orders are turned around, which an even verdict does not notice. -/
theorem appliesToOrders_comm (t u : Tree) : appliesToOrders verdict t u = appliesToOrders verdict u t := by
  unfold appliesToOrders sharedOrders?
  cases t.comparison? with
  | none => cases u.comparison? <;> rfl
  | some first =>
    cases u.comparison? with
    | none => rfl
    | some second =>
      obtain ⟨o, a, b⟩ := first
      obtain ⟨o', c, d⟩ := second
      have hcrossed : verdict ⟨o, .int 0⟩ ⟨o'.swap, .int 0⟩ = verdict ⟨o', .int 0⟩ ⟨o.swap, .int 0⟩ := by
        rw [← heven.mirror, Order.swap_swap, heven.comm]
      dsimp only
      rw [same_comm c a, same_comm d b, same_comm c b, same_comm d a, Bool.and_comm (same b c)]
      split
      · exact heven.comm o o' 0 0
      · split
        · exact hcrossed
        · rfl

include heven in
/-- A verdict applies to a common base, or else to two comparisons of which the first has no operand of known
value. -/
theorem applies_eq (t u : Tree) : applies verdict t u =
    match baseRelations? t u with
    | some (r, s) => verdict r s
    | none => !t.comparesKnown && appliesToOrders verdict t u := by
  unfold applies sharedRelations? appliesToOrders
  cases baseRelations? t u with
  | some rs => rfl
  | none =>
    simp only [Option.orElse_eq_orElse, Option.orElse_eq_or, Option.none_or, differenceRelations?_eq]
    cases t.comparesKnown with
    | true => rfl
    | false =>
      cases sharedOrders? t u with
      | none => rfl
      | some orders =>
        simp only [Bool.false_eq_true, if_false, Option.map_some, Option.any_some, zeroDifference]
        split
        · rfl
        · exact heven.zero _ _

/-- A verdict applies to two comparisons between the same operands and does not rest on a common base, but only
one of the comparisons has an operand of known value. -/
structure Lopsided (verdict : Relation → Relation → Bool) (t u : Tree) : Prop where
  unread : baseRelations? t u = none
  applies : appliesToOrders verdict t u = true
  known : t.comparesKnown ≠ u.comparesKnown

/-- Lopsided conditions are comparisons. -/
theorem Lopsided.comparisons (h : Lopsided verdict t u) :
    (∃ o a b, t.comparison? = some (o, a, b)) ∧ ∃ o a b, u.comparison? = some (o, a, b) := by
  obtain ⟨⟨o, o'⟩, horders, -⟩ := (Option.any_eq_true _ _).mp h.applies
  obtain ⟨a, b, c, d, ht, ⟨hu, -⟩ | ⟨hu, -⟩⟩ := of_sharedOrders? horders
  · exact ⟨⟨_, _, _, ht⟩, _, _, _, hu⟩
  · exact ⟨⟨_, _, _, ht⟩, _, _, _, hu⟩

include heven in
/-- An even verdict applies in both orders or in none, unless the conditions are lopsided. -/
theorem applies_comm_iff (ht : t.Everywhere Label.NotFloat) (hu : u.Everywhere Label.NotFloat) :
    applies verdict t u = applies verdict u t ↔ ¬Lopsided verdict t u := by
  rw [applies_eq heven, applies_eq heven, baseRelations?_swap t u, appliesToOrders_comm heven u t]
  cases hbase : baseRelations? t u with
  | some rs =>
    obtain ⟨r, s⟩ := rs
    obtain ⟨o, v, o', w, rfl, rfl⟩ := of_baseRelations? ht hu hbase
    refine iff_of_true (heven.comm o o' v w) fun h => ?_
    rw [h.unread] at hbase
    contradiction
  | none =>
    have hlopsided : Lopsided verdict t u ↔
        appliesToOrders verdict t u = true ∧ t.comparesKnown ≠ u.comparesKnown :=
      ⟨fun h => ⟨h.applies, h.known⟩, fun h => ⟨hbase, h.1, h.2⟩⟩
    rw [hlopsided, Option.map_none]
    dsimp only
    cases appliesToOrders verdict t u <;> cases t.comparesKnown <;> cases u.comparesKnown <;> decide

end Verdict

/-! ## Opposite and exclusive conditions -/

/-- A comparison is no negation. -/
theorem isNegationOf_of_comparison? {o : Order} {a b : Tree} (h : t.comparison? = some (o, a, b)) (u : Tree) :
    isNegationOf t u = false := by
  obtain ⟨l, rfl, -⟩ := eq_node_of_comparison? h
  rfl

/-- A comparison is no conjunction. -/
theorem conjuncts_of_comparison? {o : Order} {a b : Tree} (h : t.comparison? = some (o, a, b)) :
    conjuncts t = [] := by
  obtain ⟨l, rfl, hkind⟩ := eq_node_of_comparison? h
  simp [conjuncts, isBinary, kind, label, hkind]

/-- Conditions are opposite when one negates the other, or when their relations are complements. -/
theorem opposite_eq (t u : Tree) : opposite t u =
    (isNegationOf t u || isNegationOf u t || applies Relation.complements t u) := rfl

/-- Conditions clash when one negates the other, or when their relations exclude each other. -/
theorem clash_eq (t u : Tree) : clash t u =
    (isNegationOf t u || isNegationOf u t || applies Relation.excludes t u) := by
  have himplies : applies Relation.complements t u = true → applies Relation.excludes t u = true := by
    simp only [applies, Option.any_eq_true]
    rintro ⟨rs, hrs, hcomplements⟩
    exact ⟨rs, hrs, Relation.excludes_of_complements hcomplements⟩
  change (opposite t u || applies Relation.excludes t u) = _
  rw [opposite_eq]
  cases hcomplements : applies Relation.complements t u with
  | true => simp [himplies hcomplements]
  | false => rw [Bool.or_false]

section Symmetry

variable (ht : t.Everywhere Label.NotFloat) (hu : u.Everywhere Label.NotFloat)
include ht hu

/-- What rests on a negation or on an even verdict does not depend on the order, unless the conditions are
lopsided: then neither negates the other, and the verdict decides. -/
theorem negated_or_applies_comm_iff {verdict : Relation → Relation → Bool} (heven : Relation.IsEven verdict) :
    (isNegationOf t u || isNegationOf u t || applies verdict t u) =
        (isNegationOf u t || isNegationOf t u || applies verdict u t) ↔ ¬Lopsided verdict t u := by
  rw [Bool.or_comm (isNegationOf u t)]
  constructor
  · intro heq hlopsided
    obtain ⟨⟨_, _, _, htcompares⟩, _, _, _, hucompares⟩ := hlopsided.comparisons
    rw [isNegationOf_of_comparison? htcompares, isNegationOf_of_comparison? hucompares] at heq
    exact (applies_comm_iff heven ht hu).mp heq hlopsided
  · intro hlopsided
    rw [(applies_comm_iff heven ht hu).mpr hlopsided]

/-- Being opposite depends on the order only for lopsided conditions. -/
theorem opposite_comm_iff : opposite t u = opposite u t ↔ ¬Lopsided Relation.complements t u :=
  negated_or_applies_comm_iff ht hu Relation.isEven_complements

/-- So does clashing. -/
theorem clash_comm_iff : clash t u = clash u t ↔ ¬Lopsided Relation.excludes t u := by
  rw [clash_eq, clash_eq]
  exact negated_or_applies_comm_iff ht hu Relation.isEven_excludes

/-- Conjuncts are compared in both orders, so only the conditions as they stand may make a difference, and these
are no conjunctions when they do. -/
theorem exclusive_comm_iff : exclusive t u = exclusive u t ↔ ¬Lopsided Relation.excludes t u := by
  rw [← clash_comm_iff ht hu]
  unfold exclusive
  constructor
  · intro heq
    by_cases hlopsided : Lopsided Relation.excludes t u
    · obtain ⟨⟨_, _, _, htcompares⟩, _, _, _, hucompares⟩ := hlopsided.comparisons
      rw [conjuncts_of_comparison? htcompares, conjuncts_of_comparison? hucompares] at heq
      simpa using heq
    · exact (clash_comm_iff ht hu).mpr hlopsided
  · intro hclash
    rw [hclash, Bool.or_right_comm]

end Symmetry

end Tree

open ConditionLint.Tree in
/-- Without floating literals, two conditions are opposite in both orders or in none, unless they are two
comparisons between the same operands that complement each other and only one of them has an operand of known
value. They exclude each other in both orders or in none, unless they are such comparisons that exclude each
other. -/
theorem verdicts_comm_iff {t u : Tree} (ht : t.Everywhere Label.NotFloat) (hu : u.Everywhere Label.NotFloat) :
    (opposite t u = opposite u t ↔ ¬Lopsided Relation.complements t u) ∧
      (exclusive t u = exclusive u t ↔ ¬Lopsided Relation.excludes t u) :=
  ⟨opposite_comm_iff ht hu, exclusive_comm_iff ht hu⟩

/-- `x < y`, where the left `x` is known to be five. -/
def knownBelow : Tree :=
  .ofOperator 2 (.compare .lt)
    ((Tree.ofVariable 0 ⟨0, "x", .int, {}⟩).relabel fun l => { l with facts := [.ofValue 5] })
    (.ofVariable 1 ⟨1, "y", .int, {}⟩)

/-- `x >= y` -/
def notBelow : Tree :=
  .ofOperator 5 (.compare .ge) (.ofVariable 3 ⟨0, "x", .int, {}⟩) (.ofVariable 4 ⟨1, "y", .int, {}⟩)

open ConditionLint.Tree in
/-- `x >= y` is opposite to `x < y` and excludes it, but not the other way round, because only one of them knows
the value of `x`. -/
theorem verdicts_comm_iff_knownBelow :
    opposite knownBelow notBelow = false ∧ opposite notBelow knownBelow = true ∧
      exclusive knownBelow notBelow = false ∧ exclusive notBelow knownBelow = true ∧
        Lopsided Relation.complements knownBelow notBelow ∧ Lopsided Relation.excludes knownBelow notBelow := by
  have hleaf {l : Label} (h : l.NotFloat) : (Tree.node l []).Everywhere Label.NotFloat := .node h (by simp)
  have hpair {l m n : Label} (hl : l.NotFloat) (hm : m.NotFloat) (hn : n.NotFloat) :
      (Tree.node l [.node m [], .node n []]).Everywhere Label.NotFloat :=
    .node hl (by simp [hleaf hm, hleaf hn])
  have hknown : knownBelow.Everywhere Label.NotFloat :=
    hpair (by simp [Label.NotFloat]) (by simp [Label.NotFloat]) (by simp [Label.NotFloat])
  have hplain : notBelow.Everywhere Label.NotFloat :=
    hpair (by simp [Label.NotFloat]) (by simp [Label.NotFloat]) (by simp [Label.NotFloat])
  obtain ⟨hopposite, hexclusive⟩ := verdicts_comm_iff hknown hplain
  refine ⟨by decide, by decide, by decide, by decide, ?_, ?_⟩
  · exact not_not.mp (mt hopposite.mpr (by decide))
  · exact not_not.mp (mt hexclusive.mpr (by decide))

end ConditionLint
