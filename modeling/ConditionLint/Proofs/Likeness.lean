import ConditionLint.Proofs.DoubledNegation
import ConditionLint.Proofs.Order

/-!
# Same expressions have the same value

Likeness is decided by walking down two trees at once, past doubled negations. Without those each step
compares one node with one node; there the value is a function of the operands' values, and exchanging
operands is allowed only where it changes nothing. So what two same expressions are without their doubled
negations has one value. The expressions themselves are true together as long as a doubled negation stands
only where truth counts; `!!x == 1` and `x == 1` are taken for the same, and differ at two.
-/

namespace ConditionLint

/-- The operands of a connective may change places. -/
theorem Connective.eval_comm (c : Connective) (p q : Bool) : c.eval p q = c.eval q p := by
  cases c
  · exact Bool.and_comm p q
  · exact Bool.or_comm p q

namespace Tree

/-- A list that is the same as one with a first expression has the same first expression. -/
theorem eq_cons_of_sameAll {t : Tree} {ts us : List Tree} (h : sameAll (t :: ts) us = true) :
    ∃ u rest, us = u :: rest ∧ same t u = true ∧ sameAll ts rest = true := by
  cases us with
  | nil => simp [sameAll] at h
  | cons u rest => exact ⟨u, rest, rfl, by simpa [sameAll] using h⟩

/-- Only the empty list is the same as the empty list. -/
theorem eq_nil_of_sameAll {us : List Tree} (h : sameAll [] us = true) : us = [] := by
  cases us with
  | nil => rfl
  | cons u rest => simp [sameAll] at h

/-- A leaf is compared with what is left of the other expression. -/
theorem same_leaf {l : Label} {ts : List Tree} {u : Tree}
    (hkind : (∃ v, l.kind = .literal v) ∨ ∃ name v, l.kind = .identifier name v) :
    same (node l ts) u = leavesAgree (node l ts) u.core := by
  rcases hkind with ⟨v, hkind⟩ | ⟨name, v, hkind⟩
  · simp [same, hkind]
  · rw [same.eq_def]
    simp only [hkind]

/-- A unary node is the same as a node with the same operator, which does not increment, and the same
operand. -/
theorem same_unary {l : Label} {op : UnaryOp} {t u : Tree} (hkind : l.kind = .unary op)
    (hsingle : (node l [t]).isDoubleNegation = false) (h : same (node l [t]) u = true) :
    op.isIncrement = false ∧ ∃ m v, u.core = node m [v] ∧ m.kind = .unary op ∧ same t v = true := by
  have hagree {m : Label} (h : labelsAgree l m = true) : op.isIncrement = false ∧ m.kind = .unary op := by
    unfold labelsAgree at h
    split at h <;> grind
  rw [same.eq_def] at h
  simp only at h
  split at h
  · next l' inner hnot heq =>
    obtain rfl : t = node l' [inner] := List.singleton_inj.mp heq
    rw [if_neg (kind_ne_not_of_single hnot hsingle)] at h
    split at h
    · next m v hcore =>
      rw [Bool.and_eq_true] at h
      exact ⟨(hagree h.1).1, m, v, hcore, (hagree h.1).2, h.2⟩
    · contradiction
  · next hcall _ => simp [hkind] at hcall
  · next hbinary _ => simp [hkind] at hbinary
  · next hliteral => simp [hkind] at hliteral
  · next hname => simp [hkind] at hname
  · cases hcore : u.core with
    | node m vs =>
      rw [hcore, Bool.and_eq_true] at h
      obtain ⟨v, rest, rfl, hsame, hrest⟩ := eq_cons_of_sameAll h.2
      obtain rfl := eq_nil_of_sameAll hrest
      exact ⟨(hagree h.1).1, m, v, rfl, (hagree h.1).2, hsame⟩

/-- A binary node is the same as one with the same operator and the same operands in order, or with the
operands exchanged under operators that allow it. Neither operator assigns. -/
theorem same_binary {l : Label} {op : BinaryOp} {a b u : Tree} (hkind : l.kind = .binary op)
    (h : same (node l [a, b]) u = true) :
    op.isAssignment = false ∧ ∃ m op' c d, u.core = node m [c, d] ∧ m.kind = .binary op' ∧
      op'.isAssignment = false ∧
      ((op = op' ∧ same a c = true ∧ same b d = true) ∨
        (agreeSwapped op op' = true ∧ same a d = true ∧ same b c = true)) := by
  rw [same.eq_def] at h
  simp only [hkind] at h
  split at h
  · next op' c d hbinary =>
    obtain ⟨m, hcore, hm⟩ := eq_node_of_binary? hbinary
    simp only [Bool.and_eq_true, Bool.or_eq_true, decide_eq_true_eq, and_assoc, Bool.not_eq_true'] at h
    exact ⟨h.1, m, op', c, d, hcore, hm, h.2⟩
  · contradiction

/-- A ternary node is the same as one with the same operands. -/
theorem same_ternary {l : Label} {c a b u : Tree} (hkind : l.kind = .ternary)
    (h : same (node l [c, a, b]) u = true) :
    ∃ m c' a' b', u.core = node m [c', a', b'] ∧ m.kind = .ternary ∧
      same c c' = true ∧ same a a' = true ∧ same b b' = true := by
  rw [same.eq_def] at h
  simp only [hkind, Bool.and_eq_true] at h
  obtain ⟨hagree, hall⟩ := h
  cases hcore : u.core with
  | node m vs =>
    rw [hcore] at hagree hall
    have hm : m.kind = .ternary := by
      simp only [label, labelsAgree, hkind] at hagree
      split at hagree <;> simp_all
    obtain ⟨c', _, rfl, hc, hall⟩ := eq_cons_of_sameAll hall
    obtain ⟨a', _, rfl, ha, hall⟩ := eq_cons_of_sameAll hall
    obtain ⟨b', _, rfl, hb, hall⟩ := eq_cons_of_sameAll hall
    obtain rfl := eq_nil_of_sameAll hall
    exact ⟨m, c', a', b', rfl, hm, hc, ha, hb⟩

/-- A pure name is an enumerator, which refers to no variable, or a variable. -/
theorem Pure.name_cases {p : Tree → Bool} {t : Tree} (h : t.Pure p) {name : String} {e : Option Int}
    (hkind : t.kind = .identifier name e) :
    (∃ i, t.spelledValue? = some i ∧ t.varId? = none) ∨
      ∃ l x, t = node l [] ∧ l.kind = .identifier name none ∧ l.referent = some x ∧
        t.spelledValue? = none ∧ t.varId? = some x.id := by
  cases h with
  | @enumerator l name' i _ hname hreferent =>
    exact Or.inl ⟨i, by simp [spelledValue?, kind, label, hname],
      by simp [varId?, referent, label, hreferent]⟩
  | @reference l name' x _ hname hreferent =>
    obtain ⟨rfl, rfl⟩ : name' = name ∧ none = e := by simpa [kind, label, hname] using hkind
    exact Or.inr ⟨l, x, rfl, hname, hreferent, by simp [spelledValue?, kind, label, hname],
      by simp [varId?, referent, label, hreferent]⟩
  | literal _ hname _ => simp [kind, label, hname] at hkind
  | unary _ hname _ _ => simp [kind, label, hname] at hkind
  | binary _ hname _ _ _ => simp [kind, label, hname] at hkind
  | ternary _ hname _ _ _ => simp [kind, label, hname] at hkind

/-- A pure literal is an integer constant. -/
theorem Pure.literal_int? {p : Tree → Bool} {t : Tree} (h : t.Pure p) {v : Literal}
    (hkind : t.kind = .literal v) : ∃ i, v.int? = some i := by
  cases h <;> simp_all [kind, label]

/-- A pure expression that agrees with another as a leaf is a leaf. -/
theorem Pure.eq_leaf_of_leavesAgree {p : Tree → Bool} {t u : Tree} (hu : u.Pure p)
    (h : leavesAgree t u = true) : ∃ m, u = node m [] := by
  cases hu with
  | literal _ _ _ => exact ⟨_, rfl⟩
  | enumerator _ _ _ => exact ⟨_, rfl⟩
  | reference _ _ _ => exact ⟨_, rfl⟩
  | unary _ hkind _ _ => simp [leavesAgree, spelledValue?, kind, label, hkind] at h
  | binary _ hkind _ _ _ => simp [leavesAgree, spelledValue?, kind, label, hkind] at h
  | ternary _ hkind _ _ _ => simp [leavesAgree, spelledValue?, kind, label, hkind] at h

end Tree

namespace Valuation

open ConditionLint.Tree

variable {α : Type} [Ring α] [LinearOrder α] (V : Valuation α) {p : Tree → Bool}

/-- Leaves that agree have the same value. -/
theorem eval_eq_of_leavesAgree {t u : Tree} (ht : t.Pure p) (hu : u.Pure p)
    (h : leavesAgree t u = true) : V.eval t = V.eval u := by
  unfold leavesAgree at h
  split at h
  · next i j hi hj =>
    rw [V.eval_of_spelledValue? hi, V.eval_of_spelledValue? hj, of_decide_eq_true h]
  · next hspelled =>
    split at h
    · next hkind _ => simpa [Literal.int?] using ht.literal_int? hkind
    · next hkind _ => simpa [Literal.int?] using ht.literal_int? hkind
    · next hname hname' =>
      rcases ht.name_cases hname with ⟨i, hi, hnone⟩ | ⟨l, x, rfl, hl, hx, hi, hsome⟩
      · rcases hu.name_cases hname' with ⟨j, hj, -⟩ | ⟨m, y, rfl, hm, hy, -, hsome'⟩
        · exact absurd hj (hspelled i j hi)
        · simp [hnone, hsome'] at h
      · rcases hu.name_cases hname' with ⟨j, -, hnone'⟩ | ⟨m, y, rfl, hm, hy, -, hsome'⟩
        · simp [hnone', hsome] at h
        · rw [V.eval_variable hl hx, V.eval_variable hm hy]
          simp only [hsome, hsome', decide_eq_true_eq] at h
          rw [h]
    · contradiction

/-- A pure unary operation depends on the value of its operand only. -/
theorem eval_unary_congr {l m : Label} {op : UnaryOp} {t u : Tree} (hop : op.isPure = true)
    (hl : l.kind = .unary op) (hm : m.kind = .unary op) (h : V.eval t = V.eval u) :
    V.eval (node l [t]) = V.eval (node m [u]) := by
  cases op <;> simp_all [eval, UnaryOp.isPure]

/-- A pure binary operation depends on the values of its operands only. -/
theorem eval_binary_congr {l m : Label} {op : BinaryOp} {a b c d : Tree} (hop : op.isPure = true)
    (hl : l.kind = .binary op) (hm : m.kind = .binary op) (hac : V.eval a = V.eval c)
    (hbd : V.eval b = V.eval d) : V.eval (node l [a, b]) = V.eval (node m [c, d]) := by
  cases op <;> simp_all [eval, BinaryOp.isPure]

/-- Operators that agree with operands exchanged give the same value for exchanged operands. -/
theorem eval_binary_swapped {l m : Label} {op op' : BinaryOp} {a b c d : Tree} (hop : op.isPure = true)
    (hagree : agreeSwapped op op' = true) (hl : l.kind = .binary op) (hm : m.kind = .binary op')
    (had : V.eval a = V.eval d) (hbc : V.eval b = V.eval c) :
    V.eval (node l [a, b]) = V.eval (node m [c, d]) := by
  unfold agreeSwapped at hagree
  cases op with
  | arith op =>
    split at hagree
    · next hcomm =>
      obtain rfl := of_decide_eq_true hagree
      rw [V.eval_arith hl, V.eval_arith hm, had, hbc]
      exact V.arith_comm op _ _ hcomm
    · simp [BinaryOp.isComparison] at hagree
  | compare o =>
    obtain rfl : .compare o.swap = op' := by
      split at hagree
      · next hcomm => cases o <;> simp_all [BinaryOp.isCommutative, Order.isEquality, Order.swap]
      · exact of_decide_eq_true (Bool.and_eq_true_iff.mp hagree).2
    rw [V.eval_compare hl, V.eval_compare hm, had, hbc, Order.holds_swap]
  | logic c =>
    obtain rfl : .logic c = op' := by simpa [BinaryOp.isCommutative] using hagree
    rw [V.eval_logic hl, V.eval_logic hm, isTrue, isTrue, had, hbc, Connective.eval_comm]
    rfl
  | assign => simp [BinaryOp.isPure] at hop
  | update op => simp [BinaryOp.isPure] at hop
  | comma => simp [BinaryOp.isCommutative, BinaryOp.isComparison] at hagree

/-- A leaf has the same value as an expression that it agrees with at the top. -/
theorem eval_leaf_eq_undoubled {l : Label} {u : Tree} (ht : (node l []).Pure p) (hu : u.Pure p)
    (h : leavesAgree (node l []) u.core = true) : V.eval (node l []) = V.eval u.undoubled := by
  obtain ⟨hcore, -, hundoubled⟩ := hu.core_spec
  obtain ⟨m, hm⟩ := hcore.eq_leaf_of_leavesAgree h
  rw [← hundoubled, V.eval_eq_of_leavesAgree ht hcore h, hm, undoubled_leaf]

/-- Pure expressions that are the same have the same value without their doubled negations. -/
theorem eval_undoubled_eq_of_same {t u : Tree} (ht : t.Pure p) (hu : u.Pure p) (h : same t u = true) :
    V.eval t.undoubled = V.eval u.undoubled := by
  induction t using induction_two_levels generalizing u with
  | step l ts ih =>
    obtain ⟨hcore, hsingle, hundoubled⟩ := hu.core_spec
    cases ht with
    | literal hnode hkind hvalue =>
      rw [same_leaf (Or.inl ⟨_, hkind⟩)] at h
      rw [undoubled_leaf, V.eval_leaf_eq_undoubled (.literal hnode hkind hvalue) hu h]
    | enumerator hnode hkind hreferent =>
      rw [same_leaf (Or.inr ⟨_, _, hkind⟩)] at h
      rw [undoubled_leaf, V.eval_leaf_eq_undoubled (.enumerator hnode hkind hreferent) hu h]
    | reference hnode hkind hreferent =>
      rw [same_leaf (Or.inr ⟨_, _, hkind⟩)] at h
      rw [undoubled_leaf, V.eval_leaf_eq_undoubled (.reference hnode hkind hreferent) hu h]
    | @unary _ op t hnode hkind hop ht =>
      rcases (Pure.unary hnode hkind hop ht).single_or_doubled with
        htsingle | ⟨l', inner, rfl, hnot, hnot', hinner⟩
      · obtain ⟨-, m, v, hm, hmkind, hsame⟩ := same_unary hkind htsingle h
        rw [hm] at hcore hsingle hundoubled
        cases hcore with
        | unary _ _ _ hv =>
          rw [undoubled_single htsingle, ← hundoubled, undoubled_single hsingle]
          exact V.eval_unary_congr hop hkind hmkind ((ih t List.mem_cons_self).1 ht hv hsame)
      · rw [undoubled_doubled hnot hnot']
        have hsame : same inner u = true := by simpa [same, hnot, hnot'] using h
        exact (ih _ List.mem_cons_self).2 inner List.mem_cons_self hinner hu hsame
    | @binary _ op a b _ hkind hop ha hb =>
      obtain ⟨-, m, op', c, d, hm, hmkind, -, hsame⟩ := same_binary hkind h
      rw [hm] at hcore hundoubled
      cases hcore with
      | binary _ _ _ hc hd =>
        have iha {v : Tree} := @(ih a (by simp)).1 v ha
        have ihb {v : Tree} := @(ih b (by simp)).1 v hb
        rw [← hundoubled, undoubled_pair, undoubled_pair]
        rcases hsame with ⟨rfl, hac, hbd⟩ | ⟨hagree, had, hbc⟩
        · exact V.eval_binary_congr hop hkind hmkind (iha hc hac) (ihb hd hbd)
        · exact V.eval_binary_swapped hop hagree hkind hmkind (iha hd had) (ihb hc hbc)
    | @ternary _ c a b _ hkind hc ha hb =>
      obtain ⟨m, c', a', b', hm, hmkind, hsamec, hsamea, hsameb⟩ := same_ternary hkind h
      rw [hm] at hcore hundoubled
      cases hcore with
      | ternary _ _ hc' ha' hb' =>
        rw [← hundoubled, undoubled_triple, undoubled_triple]
        simp only [eval, hkind, hmkind, (ih c (by simp)).1 hc hc' hsamec,
          (ih a (by simp)).1 ha ha' hsamea, (ih b (by simp)).1 hb hb' hsameb]

/-- Pure expressions without a doubled negation that are the same have the same value. -/
theorem eval_eq_of_same (hp : ∀ s, p s = true → s.isDoubleNegation = false) {t u : Tree}
    (ht : t.Pure p) (hu : u.Pure p) (h : same t u = true) : V.eval t = V.eval u := by
  have heq := V.eval_undoubled_eq_of_same ht hu h
  rwa [undoubled_eq_self hp ht, undoubled_eq_self hp hu] at heq

end Valuation

/-- Expressions that are taken for the same are true together exactly when dropping their doubled negations
changes the truth of both or of neither. It changes none as long as doubled negations stand only where the
truth of an expression counts. -/
theorem same_right_iff (V : Valuation ℤ) {p : Tree → Bool} {t u : Tree} (ht : t.Pure p) (hu : u.Pure p)
    (h : Tree.same t u = true) :
    (V.isTrue t = V.isTrue u ↔
        (V.isTrue t.undoubled = V.isTrue t ↔ V.isTrue u.undoubled = V.isTrue u)) ∧
      (t.doublesTruthOnly = true → u.doublesTruthOnly = true → V.isTrue t = V.isTrue u) := by
  have hundoubled : V.isTrue t.undoubled = V.isTrue u.undoubled := by
    rw [Valuation.isTrue, Valuation.isTrue, V.eval_undoubled_eq_of_same ht hu h]
  constructor
  · rw [hundoubled]
    cases V.isTrue t <;> cases V.isTrue u <;> cases V.isTrue u.undoubled <;> decide
  · intro htruth hutruth
    rw [← V.isTrue_undoubled ht htruth, hundoubled, V.isTrue_undoubled hu hutruth]

/-- `!!x` for an integer variable. -/
def doublyNegated (first : NodeId) (x : Variable) : Tree :=
  .plain (first + 2) (.unary .not) .bool none
    [.plain (first + 1) (.unary .not) .bool none [.ofVariable first x]]

/-- `!!x && n` and `n && x` are true together. `!!x == 1` and `x == 1` are taken for the same too, and are
not true together when `x` is two. -/
theorem same_right_iff_doublyNegated :
    let x : Variable := ⟨0, "x", .int, {}⟩
    let n : Tree := .ofVariable 3 ⟨1, "n", .int, {}⟩
    let doubled := Tree.ofOperator 4 (.logic .and) (doublyNegated 0 x) n
    let single := Tree.ofOperator 6 (.logic .and) n (.ofVariable 5 x)
    let doubledTest := Tree.ofOperator 4 (.compare .eq) (doublyNegated 0 x) (.ofInt 3 1)
    let singleTest := Tree.ofOperator 7 (.compare .eq) (.ofVariable 5 x) (.ofInt 6 1)
    (Tree.same doubled single = true ∧ ∀ V : Valuation ℤ, V.isTrue doubled = V.isTrue single) ∧
      Tree.same doubledTest singleTest = true ∧
        ¬∀ V : Valuation ℤ, V.isTrue doubledTest = V.isTrue singleTest := by
  intro x n doubled single doubledTest singleTest
  refine ⟨⟨by decide, fun V => ?_⟩, by decide, fun hall => ?_⟩
  · exact (same_right_iff V (p := fun _ => true) (by decide) (by decide) (by decide)).2
      (by decide) (by decide)
  · have hright := (same_right_iff (.constant 2) (p := fun _ => true) (by decide) (by decide)
      (by decide : Tree.same doubledTest singleTest = true)).1.mp (hall _)
    exact absurd hright (by decide)

end ConditionLint
