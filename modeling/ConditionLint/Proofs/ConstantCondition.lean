import ConditionLint.Proofs.InnerCondition
import ConditionLint.Proofs.LogicalPair
import ConditionLint.Proofs.SideEffects

/-!
# Conditions of known truth

A known fact says that the value of a node is some integer, or that it is not. A few rules lead from facts about a
condition and its operands to the truth of the condition: a fact may settle it, a negation turns the truth of its
operand around, a comparison of known values holds or does not, and one operand of `&&` or `||` may decide alone.
Under every valuation that makes the facts true, the rules lead to the truth, and what is deduced is exactly what
follows by the rules.
-/

namespace ConditionLint

open ConditionLint.Tree

/-! ## What facts say -/

namespace Fact

/-- What a fact says about the value of its node. A known value is the value, unless it is impossible, and then it is
not. Other facts say nothing that holds in every run. -/
def HoldsOf (f : Fact) (x : ℤ) : Prop :=
  match f.payload with
  | .int v => f.known = true → (x = v ↔ f.impossible = false)
  | _ => True

variable {f : Fact} {x v : ℤ} {truth : Bool}

/-- A known value is the value of the node. -/
theorem HoldsOf.eq_of_value? (h : f.HoldsOf x) (hvalue : f.value? = some v) : x = v := by
  unfold value? at hvalue
  unfold HoldsOf at h
  split at hvalue
  · next w hpayload =>
    rw [hpayload] at h
    simp_all [isDefinite]
  · contradiction

/-- A fact that settles the truth of its node settles it rightly. -/
theorem HoldsOf.truth_eq (h : f.HoldsOf x) (htruth : f.truth? = some truth) : (x != 0) = truth := by
  unfold truth? at htruth
  unfold HoldsOf at h
  split at htruth
  · next hpayload hknown hpossible => simp_all
  · next hpayload hknown himpossible => simp_all
  · contradiction

end Fact

/-- The valuation makes all facts true that are attached to the nodes of a tree. -/
inductive Valuation.Confirms (V : Valuation ℤ) : Tree → Prop
  | node {l : Label} {ts : List Tree} (facts : ∀ f ∈ l.facts, f.HoldsOf (V.eval (node l ts)))
      (below : ∀ t ∈ ts, V.Confirms t) : V.Confirms (node l ts)

/-- The facts are true at a node and below it. -/
theorem Valuation.confirms_node_iff {V : Valuation ℤ} {l : Label} {ts : List Tree} : V.Confirms (node l ts) ↔
    (∀ f ∈ l.facts, f.HoldsOf (V.eval (node l ts))) ∧ ∀ t ∈ ts, V.Confirms t :=
  ⟨fun ⟨facts, below⟩ => ⟨facts, below⟩, fun ⟨facts, below⟩ => .node facts below⟩

namespace Valuation.Confirms

variable {V : Valuation ℤ} {t a : Tree} {f : Fact} {v : ℤ}

/-- The facts at the topmost node are true. -/
theorem holdsOf (h : V.Confirms t) (hf : f ∈ t.label.facts) : f.HoldsOf (V.eval t) := by
  obtain ⟨facts, -⟩ := h
  exact facts f hf

/-- The facts are true below each operand. -/
theorem operand (h : V.Confirms t) (ha : a ∈ t.operands) : V.Confirms a := by
  obtain ⟨-, below⟩ := h
  exact below a ha

/-- What is known about a value, by a fact or by its spelling, is the value. -/
theorem eval_of_value? (h : V.Confirms t) (hvalue : t.value? = some v) : V.eval t = v := by
  unfold value? at hvalue
  split at hvalue
  · next w hfact =>
    obtain rfl := Option.some.inj hvalue
    obtain ⟨f, hf, hw⟩ := Option.bind_eq_some_iff.mp hfact
    exact (h.holdsOf (List.mem_of_find?_eq_some hf)).eq_of_value? hw
  · exact V.eval_of_spelledValue? hvalue

end Valuation.Confirms

/-! ## Rules -/

namespace Connective

variable {c : Connective} {lhs rhs : Option Deduction} {v : Deduction}

/-- What is deduced about a connective comes from one operand that decides it, or from both. -/
theorem of_deduction? (h : c.deduction? lhs rhs = some v) :
    lhs = some v ∧ v.truth = c.decisive ∨ rhs = some v ∧ v.truth = c.decisive ∨
      ∃ p q, lhs = some p ∧ rhs = some q ∧ v.truth = c.eval p.truth q.truth := by
  unfold deduction? at h
  cases c <;> cases lhs <;> cases rhs <;> grind [decisive, eval]

/-- Something is deduced about a connective when one operand is known to decide it, or when both are known. -/
theorem exists_deduction? (h : (∃ p ∈ lhs, p.truth = c.decisive) ∨ (∃ q ∈ rhs, q.truth = c.decisive) ∨
    lhs.isSome = true ∧ rhs.isSome = true) : ∃ v, c.deduction? lhs rhs = some v := by
  unfold deduction?
  cases c <;> cases lhs <;> cases rhs <;> grind [decisive, eval]

end Connective

namespace Tree

/-- The truth of a condition follows from facts about it, from the truth of its operands, or from their values. -/
inductive Derives : Tree → Bool → Prop
  | fact {t : Tree} {f : Fact} {truth : Bool} (attached : f ∈ t.label.facts) (gives : f.truth? = some truth) :
      Derives t truth
  | negation {l : Label} {t : Tree} {truth : Bool} (hkind : l.kind = .unary .not) (operand : Derives t truth) :
      Derives (node l [t]) (!truth)
  | comparison {l : Label} {order : Order} {a b : Tree} {v w : ℤ} (hkind : l.kind = .binary (.compare order))
      (left : a.value? = some v) (right : b.value? = some w) : Derives (node l [a, b]) (order.holds v w)
  | decidedLeft {l : Label} {c : Connective} {a b : Tree} (hkind : l.kind = .binary (.logic c))
      (left : Derives a c.decisive) : Derives (node l [a, b]) c.decisive
  | decidedRight {l : Label} {c : Connective} {a b : Tree} (hkind : l.kind = .binary (.logic c))
      (right : Derives b c.decisive) : Derives (node l [a, b]) c.decisive
  | joined {l : Label} {c : Connective} {a b : Tree} {p q : Bool} (hkind : l.kind = .binary (.logic c))
      (left : Derives a p) (right : Derives b q) : Derives (node l [a, b]) (c.eval p q)

variable {t : Tree} {truth : Bool} {v : Deduction} {V : Valuation ℤ}

/-- The rules lead to the truth where the facts are true. -/
theorem Derives.isTrue_eq (h : t.Derives truth) (hV : V.Confirms t) : V.isTrue t = truth := by
  induction h with
  | fact attached gives => exact (hV.holdsOf attached).truth_eq gives
  | negation hkind _ ih => rw [V.isTrue_not hkind, ih (hV.operand (by simp [operands]))]
  | comparison hkind left right =>
    rw [V.isTrue_compare hkind, (hV.operand (by simp [operands])).eval_of_value? left,
      (hV.operand (by simp [operands])).eval_of_value? right]
  | decidedLeft hkind _ ih =>
    rw [V.isTrue_logic hkind, ih (hV.operand (by simp [operands])), Connective.eval_decisive_left]
  | decidedRight hkind _ ih =>
    rw [V.isTrue_logic hkind, ih (hV.operand (by simp [operands])), Connective.eval_decisive_right]
  | joined hkind _ _ iha ihb =>
    rw [V.isTrue_logic hkind, iha (hV.operand (by simp [operands])), ihb (hV.operand (by simp [operands]))]

/-- What is deduced follows by the rules. -/
theorem derives_of_deduce? (ht : t.IsFormed) (h : t.deduce? = some v) : t.Derives v.truth := by
  induction t using induction_operands generalizing v with
  | step l ts ih =>
    rw [deduce?.eq_def] at h
    dsimp only at h
    split at h
    · next truth hfact =>
      obtain rfl := Option.some.inj h
      obtain ⟨f, hf, htruth⟩ := List.exists_of_findSome?_eq_some hfact
      exact .fact hf htruth
    · split at h
      · next t rest hkind _ =>
        obtain rfl : rest = [] := by simpa [operands] using ht.count 1 (by simp [kind, label, hkind, Kind.arity?])
        obtain ⟨w, hw, rfl⟩ := Option.map_eq_some_iff.mp h
        exact .negation hkind (ih t (by simp) (ht.operand (by simp [operands])) hw)
      · next a b hkind _ =>
        split at h
        · next ha hb =>
          obtain rfl := Option.some.inj h
          exact .comparison hkind ha hb
        · contradiction
      · next a b hkind _ =>
        have iha {w : Deduction} (hw : a.deduce? = some w) : a.Derives w.truth :=
          ih a (by simp) (ht.operand (by simp [operands])) hw
        have ihb {w : Deduction} (hw : b.deduce? = some w) : b.Derives w.truth :=
          ih b (by simp) (ht.operand (by simp [operands])) hw
        obtain ⟨ha, htruth⟩ | ⟨hb, htruth⟩ | ⟨p, q, ha, hb, htruth⟩ := Connective.of_deduction? h
        · exact htruth ▸ .decidedLeft hkind (htruth ▸ iha ha)
        · exact htruth ▸ .decidedRight hkind (htruth ▸ ihb hb)
        · exact htruth ▸ .joined hkind (iha ha) (ihb hb)
      · contradiction

/-- What is deduced is right where the facts are true. -/
theorem isTrue_of_deduce? (ht : t.IsFormed) (hV : V.Confirms t) (h : t.deduce? = some v) : V.isTrue t = v.truth :=
  (derives_of_deduce? ht h).isTrue_eq hV

/-- What is deduced is what the rules lead to, where the facts are true. -/
theorem Derives.truth_eq (h : t.Derives truth) (ht : t.IsFormed) (hV : V.Confirms t) (hv : t.deduce? = some v) :
    v.truth = truth := by
  rw [← isTrue_of_deduce? ht hV hv, h.isTrue_eq hV]

/-- A fact about the truth of the node itself comes before all rules. -/
theorem deduce?_of_factTruth? (h : t.factTruth? = some truth) : t.deduce? = some ⟨truth, t.valueSteps⟩ := by
  obtain ⟨l, ts⟩ := t
  rw [deduce?.eq_def]
  simp only [h]

/-- Something is deduced about every node with a fact about its truth. -/
theorem exists_deduce?_of_none (h : t.factTruth? = none → ∃ v, t.deduce? = some v) : ∃ v, t.deduce? = some v := by
  cases hfact : t.factTruth? with
  | none => exact h hfact
  | some truth => exact ⟨_, deduce?_of_factTruth? hfact⟩

/-- Without such a fact, the truth of `&&` and `||` is deduced from the operands. -/
theorem deduce?_logic {l : Label} {c : Connective} {a b : Tree} (hkind : l.kind = .binary (.logic c))
    (hnone : (node l [a, b]).factTruth? = none) :
    (node l [a, b]).deduce? = c.deduction? a.deduce? b.deduce? := by
  simp [deduce?, hnone, hkind]

/-- What follows by the rules is deduced, if there is a valuation that makes the facts true. -/
theorem Derives.exists_deduce? (h : t.Derives truth) (ht : t.IsFormed) (hV : V.Confirms t) :
    ∃ v, t.deduce? = some v := by
  induction h with
  | fact attached gives =>
    apply exists_deduce?_of_none
    intro hnone
    simp [List.findSome?_eq_none_iff.mp hnone _ attached] at gives
  | negation hkind _ ih =>
    apply exists_deduce?_of_none
    intro hnone
    obtain ⟨w, hw⟩ := ih (ht.operand (by simp [operands])) (hV.operand (by simp [operands]))
    simp [deduce?, hnone, hkind, hw]
  | comparison hkind left right =>
    apply exists_deduce?_of_none
    intro hnone
    simp [deduce?, hnone, hkind, left, right]
  | @decidedLeft l c a b hkind left ih =>
    apply exists_deduce?_of_none
    intro hnone
    have ha := ht.operand (show a ∈ (node l [a, b]).operands by simp [operands])
    have hVa := hV.operand (show a ∈ (node l [a, b]).operands by simp [operands])
    obtain ⟨w, hw⟩ := ih ha hVa
    rw [deduce?_logic hkind hnone]
    exact Connective.exists_deduction? (.inl ⟨w, hw, left.truth_eq ha hVa hw⟩)
  | @decidedRight l c a b hkind right ih =>
    apply exists_deduce?_of_none
    intro hnone
    have hb := ht.operand (show b ∈ (node l [a, b]).operands by simp [operands])
    have hVb := hV.operand (show b ∈ (node l [a, b]).operands by simp [operands])
    obtain ⟨w, hw⟩ := ih hb hVb
    rw [deduce?_logic hkind hnone]
    exact Connective.exists_deduction? (.inr (.inl ⟨w, hw, right.truth_eq hb hVb hw⟩))
  | joined hkind _ _ iha ihb =>
    apply exists_deduce?_of_none
    intro hnone
    obtain ⟨p, hp⟩ := iha (ht.operand (by simp [operands])) (hV.operand (by simp [operands]))
    obtain ⟨q, hq⟩ := ihb (ht.operand (by simp [operands])) (hV.operand (by simp [operands]))
    rw [deduce?_logic hkind hnone]
    exact Connective.exists_deduction? (.inr (.inr (by simp [hp, hq])))

/-- A fact about the condition itself changes the reasoning that is shown, and not the truth. -/
theorem map_truth_deduction? (t : Tree) : t.deduction?.map Deduction.truth = t.deduce?.map Deduction.truth := by
  have hfind (fs : List Fact) :
      (fs.find? fun f => f.truth?.isSome).bind Fact.truth? = fs.findSome? Fact.truth? := by
    induction fs with
    | nil => rfl
    | cons f fs ih => cases hf : f.truth? <;> simp [hf, ih]
  unfold deduction?
  split
  · next f hf =>
    have hsome : f.truth?.isSome = true := List.find?_some (p := fun f : Fact => f.truth?.isSome) hf
    obtain ⟨truth, htruth⟩ := Option.isSome_iff_exists.mp hsome
    have hfact : t.factTruth? = some truth := by rw [factTruth?, ← hfind, hf, Option.bind_some, htruth]
    rw [deduce?_of_factTruth? hfact, htruth]
    rfl
  · rfl

/-- What is deduced about a condition is what follows by the rules, where the facts are true. -/
theorem map_truth_deduction?_eq_some_iff (ht : t.IsFormed) (hV : V.Confirms t) :
    t.deduction?.map Deduction.truth = some truth ↔ t.Derives truth := by
  rw [map_truth_deduction?]
  constructor
  · intro h
    obtain ⟨v, hv, rfl⟩ := Option.map_eq_some_iff.mp h
    exact derives_of_deduce? ht hv
  · intro h
    obtain ⟨v, hv⟩ := h.exists_deduce? ht hV
    rw [hv, Option.map_some, h.truth_eq ht hV hv]

end Tree

/-- A finding about a condition gives the truth value that is deduced. -/
theorem Place.of_mem_constantConditions {u : SourceUnit} {p : Place} {f : Finding} (h : f ∈ p.constantConditions u) :
    ∃ use v, p.tree.deduction? = some v ∧ f = .constantCondition p use v.truth v.steps := by
  unfold constantConditions at h
  split at h
  · next use v _ hv =>
    split at h
    · contradiction
    · exact ⟨use, v, hv, List.mem_singleton.mp h⟩
  · contradiction

/-- In a unit whose nodes have as many operands as their kinds settle, what is deduced about a condition is its truth
under every valuation that makes the facts about it true, and it is deduced exactly when it follows by the rules. So
every message about a condition states its truth. -/
theorem known_conditions_right {u : SourceUnit} (hu : ∀ t ∈ u.listing, t.IsFormed) (V : Valuation ℤ) :
    (∀ t ∈ u.listing, V.Confirms t →
      (∀ v, t.deduction? = some v → V.isTrue t = v.truth) ∧
        ∀ truth, t.deduction?.map Deduction.truth = some truth ↔ t.Derives truth) ∧
    ∀ (o : Options) (l : Ledger), ∀ f ∈ Check.constantCondition.reports o u l, ∃ p use truth steps,
      f = .constantCondition p use truth steps ∧ p.tree ∈ u.listing ∧
        (V.Confirms p.tree →
          (f.diagnostic u).message = (if use = .returned then "Return value " else "Condition ") ++ quoted p.text ++
            " is always " ++ truthText (V.isTrue p.tree) ∧
          (f.diagnostic u).cwe = if V.isTrue p.tree then 571 else 570) := by
  have hright {t : Tree} (ht : t ∈ u.listing) (hV : V.Confirms t) {v : Deduction} (hv : t.deduction? = some v) :
      V.isTrue t = v.truth :=
    ((map_truth_deduction?_eq_some_iff (hu t ht) hV).mp (by rw [hv]; rfl)).isTrue_eq hV
  constructor
  · intro t ht hV
    exact ⟨fun v hv => hright ht hV hv, fun truth => map_truth_deduction?_eq_some_iff (hu t ht) hV⟩
  · intro o l f hf
    obtain ⟨_, q, hq, hfound⟩ := Check.exists_of_mem_reports hf
    obtain ⟨t, ht, rfl⟩ := SourceUnit.exists_of_mem_scanned hq
    obtain ⟨use, v, hv, rfl⟩ := Place.of_mem_constantConditions hfound
    refine ⟨u.placeOf t, use, v.truth, v.steps, rfl, ht, fun hV => ?_⟩
    change V.Confirms t at hV
    change _ = _ ++ truthText (V.isTrue t) ∧ _ = if V.isTrue t then 571 else 570
    rw [hright ht hV hv]
    exact ⟨rfl, rfl⟩

/-- `x < 3 && y`, with the fact that `x` is five. -/
def knownAbove : Tree :=
  ofOperator 4 (.logic .and)
    (ofOperator 2 (.compare .lt)
      ((ofVariable 0 (.onStack 0 "x" .int)).relabel fun l => { l with facts := [.ofValue 5] }) (ofInt 1 3))
    (ofVariable 3 (.onStack 1 "y" .int))

/-- The comparison decides the conjunction, whatever `y` is. -/
theorem known_conditions_right_knownAbove :
    ∃ f ∈ Check.constantCondition.reports {} (.ofTree knownAbove) {},
      (f.diagnostic (.ofTree knownAbove)).message = "Condition 'x < 3 && y' is always false" ∧
        ∀ V : Valuation ℤ, V.var 0 = 5 → V.Confirms knownAbove ∧ V.isTrue knownAbove = false := by
  have hmessages : (Check.constantCondition.reports {} (.ofTree knownAbove) {}).map
      (fun f => (f.diagnostic (.ofTree knownAbove)).message) = ["Condition 'x < 3 && y' is always false"] := by
    decide +kernel
  obtain ⟨f, hf, hmessage⟩ := List.mem_map.mp (hmessages ▸ List.mem_singleton_self _)
  refine ⟨f, hf, hmessage, fun V hx => ?_⟩
  have hformed : knownAbove.IsFormed := by
    simp [knownAbove, ofOperator, ofVariable, ofInt, plain, relabel, isFormed_node_iff, Kind.arity?]
  have hV : V.Confirms knownAbove := by
    simp [knownAbove, ofOperator, ofVariable, ofInt, plain, relabel, Valuation.confirms_node_iff, Fact.HoldsOf,
      Fact.ofValue, Valuation.eval, hx, Variable.onStack]
  have hlisted : ∀ t ∈ (SourceUnit.ofTree knownAbove).listing, t.IsFormed := by
    intro t ht
    obtain ⟨s, hs, ht⟩ := List.mem_flatMap.mp ht
    obtain rfl := List.mem_singleton.mp hs
    exact of_mem_subtrees (fun _ h _ => h.operand) hformed ht
  obtain ⟨hright, -⟩ := known_conditions_right hlisted V
  refine ⟨hV, ?_⟩
  exact (hright _ (List.mem_of_getElem? (i := 0) rfl) hV).1 ⟨false, []⟩ (by decide +kernel)

end ConditionLint
