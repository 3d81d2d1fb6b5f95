import ConditionLint.Proofs.InnerCondition
import ConditionLint.Proofs.Ancestry
import ConditionLint.Proofs.Redundancy

/-!
# Changes between the operands of a conjunction

A conjunction is reported as always false when an operand in front excludes the last one. The two are compared
as if they were evaluated in one state, but the operands of a conjunction are evaluated one after the other.
Between an operand of a chain and what is joined to the chain stand the later operands of the chain, and nothing
else changes anything there. So the report is right in every run over integer variables when no later operand
changes the excluding one. An assignment in a later operand makes the conjunction true in some runs, and it is
reported all the same.
-/

namespace ConditionLint

open ConditionLint.Tree

namespace Tree

variable {a b s t : Tree}

/-- A condition that is no conjunction is a chain of its own. -/
theorem chain_of_not_and (h : t.isBinary (.logic .and) = false) : t.chain (.logic .and) = [t] := by
  fun_cases chain (.logic .and) t with
  | case1 l lhs rhs hkind => simp [isBinary, kind, label, hkind] at h
  | case2 l lhs rhs hkind => rfl
  | case3 t hshape => rfl

/-- An operand of a conjunction is a chain of its own. -/
theorem chain_of_mem_chain (h : a ∈ t.chain (.logic .and)) : a.chain (.logic .and) = [a] := by
  fun_induction chain (.logic .and) t with
  | case1 l lhs rhs hkind ihl ihr => exact (List.mem_append.mp h).elim ihl ihr
  | case2 l lhs rhs hkind =>
    obtain rfl := List.mem_singleton.mp h
    rw [chain, if_neg hkind]
  | case3 t hshape =>
    obtain rfl := List.mem_singleton.mp h
    rw [chain.eq_def]
    split
    · next l lhs rhs => exact absurd rfl (hshape l lhs rhs)
    · rfl

/-- The nodes of a node with two operands are the node itself and those of the operands. -/
theorem IsWhole.mem_subtrees_pair {l : Label} (hwhole : (node l [a, b]).IsWhole) :
    s ∈ (node l [a, b]).subtrees ↔ s = node l [a, b] ∨ s ∈ a.subtrees ∨ s ∈ b.subtrees := by
  rw [hwhole.subtrees_node]
  simp

/-- The operands of a conjunction are subtrees. -/
theorem IsWhole.mem_subtrees_of_mem_chain (hwhole : t.IsWhole) (h : a ∈ t.chain (.logic .and)) :
    a ∈ t.subtrees := by
  rw [← leaves_and] at h
  exact mem_subtrees_of_mem_leaves hwhole h

/-- A node of a conjunction joins operands, or stands in one of them. -/
theorem IsWhole.joins_or_mem_chain (hwhole : t.IsWhole) (hs : s ∈ t.subtrees) :
    s.kind = .binary (.logic .and) ∨ ∃ r ∈ t.chain (.logic .and), s ∈ r.subtrees := by
  fun_induction chain (.logic .and) t with
  | case1 l lhs rhs hkind ihl ihr =>
    rcases hwhole.mem_subtrees_pair.mp hs with rfl | hs | hs
    · exact Or.inl hkind
    · refine (ihl (hwhole.operand (by simp)) hs).imp_right ?_
      rintro ⟨r, hr, hsr⟩
      exact ⟨r, List.mem_append_left _ hr, hsr⟩
    · refine (ihr (hwhole.operand (by simp)) hs).imp_right ?_
      rintro ⟨r, hr, hsr⟩
      exact ⟨r, List.mem_append_right _ hr, hsr⟩
  | case2 => exact Or.inr ⟨_, List.mem_singleton_self _, hs⟩
  | case3 => exact Or.inr ⟨_, List.mem_singleton_self _, hs⟩

/-- A conjunction stores into no more variables than its operands. -/
theorem IsWhole.spares_of_chain {vars : VarId → Prop} (hwhole : t.IsWhole)
    (h : ∀ r ∈ t.chain (.logic .and), r.Spares vars) : t.Spares vars := by
  intro s hs x hx
  rcases hwhole.joins_or_mem_chain hs with hjoins | ⟨r, hr, hsr⟩
  · simp [storedVar?, isAssignment, isIncrement, binaryOp?, unaryOp?, hjoins, BinaryOp.isAssignment] at hx
  · exact h r hr s hsr x hx

/-- The only conjunct of an operand of a conjunction is the operand. -/
theorem eq_of_mem_conjuncts (ha : a ∈ t.chain (.logic .and)) (hs : s ∈ conjuncts a) : s = a := by
  have hchain := mem_chain_of_mem_conjuncts hs
  rw [chain_of_mem_chain ha] at hchain
  exact List.mem_singleton.mp hchain

/-- A conjunction excludes what one of its operands excludes. -/
theorem exclusive_of_mem_chain (ha : a ∈ t.chain (.logic .and)) (h : exclusive a b = true) :
    exclusive t b = true := by
  cases hand : t.isBinary (.logic .and) with
  | false =>
    rw [chain_of_not_and hand] at ha
    exact List.mem_singleton.mp ha ▸ h
  | true =>
    have hconjunct : a ∈ conjuncts t := by rwa [conjuncts, if_pos hand]
    simp only [exclusive, Bool.or_eq_true, List.any_eq_true] at h ⊢
    rcases h with (h | ⟨s, hs, h⟩) | ⟨r, hr, h | ⟨s, hs, h⟩⟩
    · exact Or.inl (Or.inr ⟨a, hconjunct, Or.inl h⟩)
    · obtain rfl := eq_of_mem_conjuncts ha hs
      exact Or.inl (Or.inr ⟨s, hconjunct, h⟩)
    · exact Or.inl (Or.inr ⟨a, hconjunct, Or.inr ⟨r, hr, h⟩⟩)
    · obtain rfl := eq_of_mem_conjuncts ha hs
      exact Or.inr ⟨r, hr, Or.inr ⟨s, hconjunct, h⟩⟩

/-- The first tree is reached in a conjunction that has the given operands behind it. -/
inductive Conjoined (a : Tree) : List Tree → Tree → Prop
  | here : Conjoined a [] a
  | left {l : Label} {lhs rhs : Tree} {behind : List Tree} (kind : l.kind = .binary (.logic .and))
      (operand : Conjoined a behind lhs) : Conjoined a (behind ++ rhs.chain (.logic .and)) (node l [lhs, rhs])
  | right {l : Label} {lhs rhs : Tree} {behind : List Tree} (kind : l.kind = .binary (.logic .and))
      (operand : Conjoined a behind rhs) : Conjoined a behind (node l [lhs, rhs])

/-- An operand of the chain is reached with the rest of the chain behind it. -/
theorem conjoined_of_chain {before behind : List Tree} (h : t.chain (.logic .and) = before ++ a :: behind) :
    Conjoined a behind t := by
  have hhere {t : Tree} {before behind : List Tree} (h : [t] = before ++ a :: behind) :
      Conjoined a behind t := by
    obtain ⟨-, hsplit⟩ | ⟨-, hnil⟩ := List.singleton_eq_append_iff.mp h
    · obtain ⟨rfl, rfl⟩ := List.cons.inj hsplit
      exact .here
    · contradiction
  fun_induction chain (.logic .and) t generalizing before behind with
  | case1 l lhs rhs hkind ihl ihr =>
    rcases List.append_eq_append_iff.mp h with ⟨front, -, hsplit⟩ | ⟨back, hsplit, hback⟩
    · exact .right hkind (ihr hsplit)
    · cases back with
      | nil =>
        have hsplit : rhs.chain (.logic .and) = [] ++ a :: behind := hback.symm
        exact .right hkind (ihr hsplit)
      | cons x back =>
        obtain ⟨rfl, rfl⟩ := List.cons.inj hback
        exact .left hkind (ihl hsplit)
  | case2 => exact hhere h
  | case3 => exact hhere h

/-- What is reached is a subtree of the conjunction. -/
theorem Conjoined.mem_subtrees {behind : List Tree} (h : Conjoined a behind t) (hwhole : t.IsWhole) :
    a ∈ t.subtrees := by
  induction h with
  | here => exact mem_subtrees_self a
  | left _ _ ih =>
    exact hwhole.mem_subtrees_pair.mpr (Or.inr (Or.inl (ih (hwhole.operand (by simp)))))
  | right _ _ ih =>
    exact hwhole.mem_subtrees_pair.mpr (Or.inr (Or.inr (ih (hwhole.operand (by simp)))))

end Tree

/-- A node that joins operands by `&&` changes nothing. -/
theorem Place.changes_of_and {q : Place} (h : q.tree.kind = .binary (.logic .and)) (e : Tree) :
    q.changes e = false := by
  have hkind : q.kind = .binary (.logic .and) := h
  simp [changes, changesVariable, hkind, storesMemory, h, BinaryOp.isAssignment]

namespace SourceUnit.IsUnshared

variable {u : SourceUnit} (h : u.IsUnshared) {behind : List Tree} {a b r s t : Tree}
include h

/-- What stands in the left one of two operands is listed before what stands in the right one. -/
theorem end_le_of_right_operand {l : Label} (ht : node l [a, b] ∈ u.listing) (hs : s ∈ a.subtrees)
    (hr : r ∈ b.subtrees) : u.position s + s.size ≤ u.position r := by
  have hoperands : (node l [a, b]).operands = [a] ++ b :: [] := rfl
  exact h.end_le_of_later_operand ht hoperands (List.mem_singleton_self a) hs hr

/-- The later operands of a conjunction are listed behind an earlier one, and within the conjunction. -/
theorem range_of_mem_behind (ht : t ∈ u.listing) (hconjoined : Conjoined a behind t) (hr : r ∈ behind) :
    r ∈ t.subtrees ∧ u.position a + a.size ≤ u.position r := by
  induction hconjoined with
  | here => contradiction
  | @left l lhs rhs behind hkind hoperand ih =>
    have hlhs : lhs ∈ u.listing := h.operand_listed ht (by simp [operands])
    have hrhs : rhs ∈ u.listing := h.operand_listed ht (by simp [operands])
    rcases List.mem_append.mp hr with hr | hr
    · obtain ⟨hmem, hend⟩ := ih hlhs hr
      exact ⟨(h.isWhole ht).mem_subtrees_pair.mpr (Or.inr (Or.inl hmem)), hend⟩
    · have hmem := (h.isWhole hrhs).mem_subtrees_of_mem_chain hr
      have hend := h.end_le_of_right_operand ht (hoperand.mem_subtrees (h.isWhole hlhs)) hmem
      exact ⟨(h.isWhole ht).mem_subtrees_pair.mpr (Or.inr (Or.inr hmem)), hend⟩
  | @right l lhs rhs behind hkind hoperand ih =>
    obtain ⟨hmem, hend⟩ := ih (h.operand_listed ht (by simp [operands])) hr
    exact ⟨(h.isWhole ht).mem_subtrees_pair.mpr (Or.inr (Or.inr hmem)), hend⟩

/-- What is listed in a conjunction behind one of its operands joins operands, or stands in a later one. -/
theorem joins_or_mem_behind (ht : t ∈ u.listing) (hconjoined : Conjoined a behind t) (hs : s ∈ t.subtrees)
    (hfront : u.position a + a.size ≤ u.position s) :
    s.kind = .binary (.logic .and) ∨ ∃ r ∈ behind, s ∈ r.subtrees := by
  induction hconjoined with
  | here => exact absurd hs (h.not_mem_subtrees_of_end_le ht hfront)
  | @left l lhs rhs behind hkind hoperand ih =>
    have hlhs : lhs ∈ u.listing := h.operand_listed ht (by simp [operands])
    rcases (h.isWhole ht).mem_subtrees_pair.mp hs with rfl | hs | hs
    · exact Or.inl hkind
    · refine (ih hlhs hs).imp_right ?_
      rintro ⟨r, hr, hsr⟩
      exact ⟨r, List.mem_append_left _ hr, hsr⟩
    · refine (((h.isWhole ht).operand (a := rhs) (by simp)).joins_or_mem_chain hs).imp_right ?_
      rintro ⟨r, hr, hsr⟩
      exact ⟨r, List.mem_append_right _ hr, hsr⟩
  | @right l lhs rhs behind hkind hoperand ih =>
    have hrhs : rhs ∈ u.listing := h.operand_listed ht (by simp [operands])
    rcases (h.isWhole ht).mem_subtrees_pair.mp hs with rfl | hs | hs
    · exact Or.inl hkind
    · -- The left operand ends before the right one begins.
      have hend := h.end_le_of_right_operand ht hs (hoperand.mem_subtrees (h.isWhole hrhs))
      have hsize := s.size_pos
      omega
    · exact ih hrhs hs

/-- Between an operand of a conjunction and what is joined to the conjunction, an expression is changed exactly
when a later operand changes it. -/
theorem changesBetween_iff {l : Label} {lhs rhs e : Tree} (ht : node l [lhs, rhs] ∈ u.listing)
    (hconjoined : Conjoined a behind lhs) :
    u.changesBetween e a rhs = true ↔ ∃ r ∈ behind, u.changesWithin e r = true := by
  have hlhs : lhs ∈ u.listing := h.operand_listed ht (by simp [operands])
  have hrhs : rhs ∈ u.listing := h.operand_listed ht (by simp [operands])
  have hlisted {x : Tree} (hx : x ∈ lhs.subtrees) : x ∈ u.listing := (isInfix_listing hlhs).subset hx
  have hnext : u.position rhs = u.position lhs + lhs.size := h.position_next_operand (i := 0) ht rfl rfl
  have ha := hconjoined.mem_subtrees (h.isWhole hlhs)
  simp only [changesBetween, changesWithin, List.any_eq_true, h.between_eq (hlisted ha) hrhs]
  constructor
  · rintro ⟨q, hq, hchanges⟩
    obtain ⟨s, hs, hstart, hend, rfl⟩ := h.mem_slice_iff.mp hq
    -- The right side begins where the left side ends, so what lies between stands in the left side.
    have hrange := h.range_of_mem_subtrees hlhs ha
    have hmem : s ∈ lhs.subtrees := (h.mem_subtrees_iff hlhs hs).mpr (by omega)
    rcases h.joins_or_mem_behind hlhs hconjoined hmem hstart with hjoins | ⟨r, hr, hsr⟩
    · rw [Place.changes_of_and hjoins] at hchanges
      contradiction
    · exact ⟨r, hr, u.placeOf s, List.mem_map_of_mem hsr, hchanges⟩
  · rintro ⟨r, hr, q, hq, hchanges⟩
    obtain ⟨s, hs, rfl⟩ := List.mem_map.mp hq
    obtain ⟨hmem, hend⟩ := h.range_of_mem_behind hlhs hconjoined hr
    have hrange := h.range_of_mem_subtrees hlhs (mem_subtrees_trans hs hmem)
    have hinner := h.range_of_mem_subtrees (hlisted hmem) hs
    have hsize := s.size_pos
    refine ⟨u.placeOf s, h.placeOf_mem_slice_iff.mpr ⟨?_, by omega, by omega⟩, hchanges⟩
    exact hlisted (mem_subtrees_trans hs hmem)

end SourceUnit.IsUnshared

namespace Tree.Expression

variable {a b t : Tree}

/-- The last operand of a chain is an expression when the chain is. -/
theorem lastOperand {p : Tree → Bool} (h : t.Expression p) (c : Connective) :
    (t.lastOperand c).Expression p := by
  unfold Tree.lastOperand
  split
  · next op init last hbinary =>
    split
    · obtain ⟨l, rfl, -⟩ := eq_node_of_binary? hbinary
      exact h.operand (by simp [operands])
    · exact h
  · exact h

/-- A condition of integer expressions is read as a comparison with an integer. -/
theorem value_of_readNegated {p : Tree → Bool} (h : t.Expression p) {negated : Bool} {c : Comparison}
    (hread : t.readNegated negated = some c) : ∃ v, c.test.relation.value = .int v := by
  have hconstant {base s : Tree} {o : Order} {negated : Bool} {constant : Constant} (hs : s.Expression p)
      (hconstant : s.constant? = some constant) (hread : compareWith base o negated constant = some c) :
      ∃ v, c.test.relation.value = .int v := by
    rcases (hs.isPure_of_constant? hconstant).constant_cases hconstant with rfl | ⟨v, text, isChar, rfl, -⟩
    · contradiction
    · obtain rfl := Option.some.inj hread
      exact ⟨v, rfl⟩
  have hbare {t : Tree} {negated : Bool} (h : t.Expression p) (hread : t.readBare negated = some c) :
      ∃ v, c.test.relation.value = .int v := by
    unfold readBare at hread
    split at hread
    · next hcomparison =>
      obtain ⟨ha, hb, -⟩ := h.of_comparison? hcomparison
      split at hread
      · next hleft => exact hconstant ha hleft hread
      · next hright => exact hconstant hb hright hread
      · obtain rfl := Option.some.inj hread
        exact ⟨0, rfl⟩
    · obtain rfl := Option.some.inj hread
      exact ⟨0, rfl⟩
  induction t using induction_operands generalizing negated with
  | step l ts ih =>
    rw [readNegated.eq_def] at hread
    simp only at hread
    split at hread
    · exact ih _ List.mem_cons_self (h.operand List.mem_cons_self) hread
    · contradiction
    · exact hbare h hread

/-- A comparison of integer expressions is not about floating numbers. -/
theorem isFloat_eq_false (h : t.Expression isPlainInteger) {c : Comparison} (hread : t.comparisonOf? = some c) :
    c.isFloat = false := by
  obtain ⟨v, hvalue⟩ := h.value_of_readNegated hread
  have hbase := (h.isPure_of_readNegated hread).1.node_holds
  obtain ⟨ty, hty, hintegral⟩ := (Option.any_eq_true _ _).mp (Bool.and_eq_true_iff.mp hbase).1
  have hfloat : ty.isFloat = false := by
    cases hbase : ty.base <;> simp_all [CType.isIntegral, CType.isFloat]
  simp [Comparison.isFloat, hvalue, Number.isFloat, hasType, hty, hfloat]

/-- An operand of a conjunction that excludes an expression is pure. -/
theorem isPure_of_exclusive (ha : a.Expression isPlainInteger) (hsingle : a.chain (.logic .and) = [a])
    (hb : b.Expression isPlainInteger) (hwhole : b.IsWhole) (h : exclusive a b = true) :
    a.Pure isPlainInteger := by
  obtain ⟨x, hx, y, hy, hclash⟩ := exclusive_cases h
  obtain rfl : x = a := by
    rcases List.mem_cons.mp hx with rfl | hx
    · rfl
    · exact eq_of_mem_conjuncts (t := a) (by simp [hsingle]) hx
  have hy : y.Expression isPlainInteger := by
    rcases List.mem_cons.mp hy with rfl | hy
    · exact hb
    · exact hb.of_mem (hwhole.mem_subtrees_of_mem_chain (mem_chain_of_mem_conjuncts hy))
  rcases hclash with hclash | hclash
  · exact (isPure_of_clash single_of_isPlainInteger ha hy hclash).1
  · exact (isPure_of_clash single_of_isPlainInteger hy ha hclash).2

end Tree.Expression

namespace Valuation

variable (V : Valuation ℤ) {p : Tree → Bool} {behind : List Tree} {a b t : Tree} {m : Machine}

/-- A pure operand of a conjunction that evaluates to true holds behind it when later operands store into nothing
that it reads. -/
theorem isTrue_behind_conjunction (h : Conjoined a behind t) (ha : a.Pure p) (hwhole : t.IsWhole)
    (hspares : ∀ r ∈ behind, r.Spares a.Reads) (htrue : (V.evaluate t m).1 ≠ 0) :
    (V.under (V.evaluate t m).2.vars).isTrue a = true := by
  have hawhole : a.IsWhole := hwhole.of_mem (h.mem_subtrees hwhole)
  induction h generalizing m with
  | here =>
    obtain ⟨hvalue, hvars⟩ := V.evaluate_pure ha m
    rw [hvars]
    simpa [isTrue, hvalue] using htrue
  | @left l lhs rhs behind hkind _ ih =>
    obtain ⟨hlhs, hrhs, hvars⟩ := V.evaluate_and_ne_zero hkind htrue
    have hrwhole : rhs.IsWhole := hwhole.operand (by simp)
    have hkept := (Knowledge.ofCondition V ha hawhole true).stable V hrwhole
      (hrwhole.spares_of_chain fun r hr => hspares r (List.mem_append_right _ hr))
    rw [hvars]
    apply hkept.evaluate
    exact ih (hwhole.operand (by simp)) (fun r hr => hspares r (List.mem_append_left _ hr)) hlhs
  | @right l lhs rhs behind hkind _ ih =>
    obtain ⟨-, hrhs, hvars⟩ := V.evaluate_and_ne_zero hkind htrue
    rw [hvars]
    exact ih (hwhole.operand (by simp)) hspares hrhs

/-- What an operand that holds excludes evaluates to false. Where it is a conjunction, it must store nothing of
the operand. -/
theorem evaluate_of_excluding (ha : a.Pure isPlainInteger) (hawhole : a.IsWhole)
    (hholds : (V.under m.vars).isTrue a = true) (hb : b.Expression isPlainInteger) (hbwhole : b.IsWhole)
    (h : exclusive a b = true) (hspares : b.isBinary (.logic .and) = true → b.Spares a.Reads) :
    (V.evaluate b m).1 = 0 := by
  cases hand : b.isBinary (.logic .and) with
  | true =>
    have hkept := (Knowledge.ofCondition V ha hawhole true).stable V hbwhole (hspares hand)
    exact evaluate_of_exclusive hkept (fun _ hm => hm) ha hb h hholds
  | false =>
    obtain ⟨x, hx, y, hy, hclash⟩ := exclusive_cases h
    have hxholds : x.Pure isPlainInteger ∧ (V.under m.vars).isTrue x = true := by
      rcases List.mem_cons.mp hx with rfl | hx
      · exact ⟨ha, hholds⟩
      · exact (V.under m.vars).conjuncts_hold ha hholds x hx
    obtain rfl : y = b := by simpa [conjuncts, hand] using hy
    exact evaluate_of_clash hxholds.1 hxholds.2 hb hclash

/-- A conjunction evaluates to false when an operand of its left side excludes the right side and nothing stores
into what that operand reads: neither a later operand, nor the right side where it is a conjunction. -/
theorem evaluate_and_eq_zero {l : Label} {lhs rhs : Tree} {before : List Tree}
    (hkind : l.kind = .binary (.logic .and)) (ht : (node l [lhs, rhs]).Expression isPlainInteger)
    (hwhole : (node l [lhs, rhs]).IsWhole) (hchain : lhs.chain (.logic .and) = before ++ a :: behind)
    (h : exclusive a rhs = true) (hbehind : ∀ r ∈ behind, r.Spares a.Reads)
    (hright : rhs.isBinary (.logic .and) = true → rhs.Spares a.Reads) (m : Machine) :
    (V.evaluate (node l [lhs, rhs]) m).1 = 0 := by
  have hlwhole : lhs.IsWhole := hwhole.operand (by simp)
  have hrwhole : rhs.IsWhole := hwhole.operand (by simp)
  have hlhs : lhs.Expression isPlainInteger := ht.operand (by simp [operands])
  have hrhs : rhs.Expression isPlainInteger := ht.operand (by simp [operands])
  have hamem : a ∈ lhs.chain (.logic .and) := by simp [hchain]
  have hasubtree := hlwhole.mem_subtrees_of_mem_chain hamem
  have hpure := (hlhs.of_mem hasubtree).isPure_of_exclusive (chain_of_mem_chain hamem) hrhs hrwhole h
  -- A run that makes the node true leaves the operand true in front of the right side, which it excludes.
  by_contra htrue
  obtain ⟨hltrue, hrtrue, -⟩ := V.evaluate_and_ne_zero hkind htrue
  have hholds := V.isTrue_behind_conjunction (conjoined_of_chain hchain) hpure hlwhole hbehind hltrue
  exact hrtrue (V.evaluate_of_excluding hpure (hlwhole.of_mem hasubtree) hholds hrhs hrwhole h hright)

end Valuation

/-- Operands that exclude each other and are not about floating numbers are reported to be always false. -/
theorem Place.constantLogic_of_exclusive {o : Options} {p : Place} {lhs rhs : Tree} {f : Finding}
    (h : p.operandPair? o .and lhs rhs = some f) (hexclusive : exclusive lhs rhs = true)
    (hfirst : ∀ a, (lhs.lastOperand .and).comparisonOf? = some a → a.isFloat = false)
    (hsecond : ∀ b, rhs.comparisonOf? = some b → b.isFloat = false) :
    ∃ inconclusive, f = .constantLogic p none false inconclusive := by
  have hfloat : ((lhs.lastOperand .and).comparisonOf?.any Comparison.isFloat ||
      rhs.comparisonOf?.any Comparison.isFloat) = false := by
    rw [Bool.or_eq_false_iff, Option.any_eq_false, Option.any_eq_false]
    exact ⟨hfirst, hsecond⟩
  unfold operandPair? at h
  simp only [hfloat, decides, hexclusive] at h
  split at h
  · contradiction
  split at h
  · contradiction
  split at h
  · split at h
    · exact ⟨_, (Option.some.inj h).symm⟩
    · contradiction
  · contradiction

/-- A report about a node of a unit is about a listed node. -/
theorem SourceUnit.mem_listing_of_mem_reports {u : SourceUnit} {o : Options} {l : Ledger} {f : Finding}
    {p : Place} (h : f ∈ Check.logicalPair.reports o u l) (hsubjects : f.subjects = [p]) :
    p.tree ∈ u.listing := by
  obtain ⟨_, q, hq, hfound⟩ := Check.exists_of_mem_reports h
  obtain ⟨t, ht, rfl⟩ := exists_of_mem_scanned hq
  rw [Place.subjects_of_mem_logicalPairs hfound] at hsubjects
  exact List.singleton_inj.mp hsubjects ▸ ht

/-- A report on a conjunction over integer expressions says that it is always false when an operand of its left
side excludes the right side. -/
theorem cwe_of_exclusive_operand {u : SourceUnit} {o : Options} {l : Ledger} {f : Finding} {p : Place}
    {a lhs rhs : Tree} (hreport : f ∈ Check.logicalPair.reports o u l)
    (hrule : (f.diagnostic u).rule = "incorrectLogicOperator") (hsubjects : f.subjects = [p])
    (hnode : p.tree.binary? = some (.logic .and, lhs, rhs)) (hlhs : lhs.Expression isPlainInteger)
    (hrhs : rhs.Expression isPlainInteger) (ha : a ∈ lhs.chain (.logic .and)) (h : exclusive a rhs = true) :
    (f.diagnostic u).cwe = 570 := by
  have hfound := Check.mem_logicalPairs_of_mem_reports hreport hsubjects
  obtain ⟨c, lhs', rhs', hnode', hcases⟩ := Place.cases_of_mem_logicalPairs hfound
  obtain ⟨rfl, rfl, rfl⟩ : .and = c ∧ lhs = lhs' ∧ rhs = rhs' := by simpa [hnode] using hnode'
  rcases hcases with habsorbed | hpair
  · have hredundant : f.rule = "redundantCondition" := Place.rule_of_absorption? habsorbed
    simp [Finding.diagnostic, hredundant] at hrule
  · obtain ⟨inconclusive, rfl⟩ := Place.constantLogic_of_exclusive hpair (exclusive_of_mem_chain ha h)
      (fun _ => (hlhs.lastOperand .and).isFloat_eq_false) (fun _ => hrhs.isFloat_eq_false)
    rfl

/-- An operand of a conjunction that excludes the right side of a reported one is changed before the right side
exactly when a later operand changes it. When none does, and the right side does not either where it is a
conjunction, the report is right: over integer variables no run makes the reported conjunction true. -/
theorem exclusive_reports_right_unless_changed {u : SourceUnit} (hu : u.IsUnshared) {o : Options} {l : Ledger}
    {f : Finding} {p : Place} {lhs rhs : Tree} (hreport : f ∈ Check.logicalPair.reports o u l)
    (hrule : (f.diagnostic u).rule = "incorrectLogicOperator") (hsubjects : f.subjects = [p])
    (hnode : p.tree.binary? = some (.logic .and, lhs, rhs)) {before behind : List Tree} {a : Tree}
    (hchain : lhs.chain (.logic .and) = before ++ a :: behind) (hexclusive : exclusive a rhs = true) :
    (u.changesBetween a a rhs = true ↔ ∃ r ∈ behind, u.changesWithin a r = true) ∧
      (p.tree.Expression isPlainInteger → u.changesBetween a a rhs = false →
        (rhs.isBinary (.logic .and) = true → u.changesWithin a rhs = false) →
        (f.diagnostic u).cwe = 570 ∧ ∀ (V : Valuation ℤ) (m : Machine), (V.evaluate p.tree m).1 = 0) := by
  have hlisted := SourceUnit.mem_listing_of_mem_reports hreport hsubjects
  obtain ⟨label, htree, hkind⟩ := eq_node_of_binary? hnode
  rw [htree] at hlisted
  have hiff := hu.changesBetween_iff (e := a) hlisted (conjoined_of_chain hchain)
  refine ⟨hiff, fun hexpression hunchanged hright => ?_⟩
  rw [htree] at hexpression ⊢
  constructor
  · exact cwe_of_exclusive_operand hreport hrule hsubjects hnode (hexpression.operand (by simp [operands]))
      (hexpression.operand (by simp [operands])) (by simp [hchain]) hexclusive
  · intro V
    apply V.evaluate_and_eq_zero hkind hexpression (hu.isWhole hlisted) hchain hexclusive
    · intro r hr
      apply SourceUnit.spares_of_changesWithin (u := u)
      by_contra hchanges
      rw [hiff.mpr ⟨r, hr, by simpa using hchanges⟩] at hunchanged
      contradiction
    · intro hand
      exact SourceUnit.spares_of_changesWithin (hright hand)

/-- `v = 1` -/
def assignOne (v : Variable) : Tree := plain 5 (.binary .assign) .int none [ofVariable 6 v, ofInt 7 1]

/-- `x > 5 && (v = 1) && x < 3` -/
def assignedBetween (v : Variable) : Tree :=
  ofOperator 0 (.logic .and) (ofOperator 1 (.logic .and) (compareX 2 .gt 5) (assignOne v)) (compareX 8 .lt 3)

/-- With `x = 1` in between, the only operand that excludes `x < 3` is changed, and the conjunction is reported as
always false although it is true at 6. With `y = 1` nothing is changed, and the same report is right. -/
theorem exclusive_reports_right_unless_changed_assignedBetween :
    let changing := assignedBetween (.onStack 0 "x" .int)
    let harmless := assignedBetween (.onStack 1 "y" .int)
    let u := SourceUnit.ofTree changing
    (∃ f lhs rhs a r, f ∈ Check.logicalPair.reports {} u {} ∧ (f.diagnostic u).cwe = 570 ∧
        changing.binary? = some (.logic .and, lhs, rhs) ∧ lhs.chain (.logic .and) = [a, r] ∧
        exclusive a rhs = true ∧ exclusive r rhs = false ∧ u.changesBetween a a rhs = true ∧
        u.changesWithin a r = true ∧ ((Valuation.constant 0).evaluate changing ⟨fun _ => 6, []⟩).1 = 1) ∧
      ∃ f ∈ Check.logicalPair.reports {} (SourceUnit.ofTree harmless) {}, f.subjects = [⟨harmless, []⟩] ∧
        ∀ (V : Valuation ℤ) (m : Machine), (V.evaluate harmless m).1 = 0 := by
  intro changing harmless u
  have hu : u.IsUnshared := SourceUnit.isUnshared_ofTree (by decide) (by decide)
  have hu' : (SourceUnit.ofTree harmless).IsUnshared := SourceUnit.isUnshared_ofTree (by decide) (by decide)
  have hreports : Check.logicalPair.reports {} u {} = [.constantLogic ⟨changing, []⟩ none false false] := rfl
  have hreports' : Check.logicalPair.reports {} (SourceUnit.ofTree harmless) {} =
      [.constantLogic ⟨harmless, []⟩ none false false] := rfl
  have hf := hreports ▸ List.mem_singleton_self (Finding.constantLogic ⟨changing, []⟩ none false false)
  have hf' := hreports' ▸ List.mem_singleton_self (Finding.constantLogic ⟨harmless, []⟩ none false false)
  have hchain (v : Variable) : (ofOperator 1 (.logic .and) (compareX 2 .gt 5) (assignOne v)).chain (.logic .and) =
      [] ++ compareX 2 .gt 5 :: [assignOne v] := rfl
  refine ⟨⟨_, _, _, _, assignOne _, hf, rfl, rfl, hchain _, rfl, rfl, rfl, ?_, by decide⟩, _, hf', rfl, ?_⟩
  · have hiff := (exclusive_reports_right_unless_changed hu hf rfl rfl rfl (hchain _) rfl).1
    simpa using hiff.mp rfl
  · exact ((exclusive_reports_right_unless_changed hu' hf' rfl rfl rfl (hchain _) rfl).2 (by decide) rfl nofun).2

end ConditionLint
