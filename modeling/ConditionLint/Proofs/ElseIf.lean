import ConditionLint.Proofs.FloatingPair
import ConditionLint.Proofs.InnerCondition
import ConditionLint.Proofs.TwosComplement

/-!
# Conditions of an else-if chain

A condition of a chain is tested only where the earlier ones are false. A later condition that an earlier one
covers is then false, and one that is the opposite of an earlier one is true. That a test for bits covers another
one is a fact about single bits: a test for some of the same bits, or for a number with one of these bits, holds
only where one of the bits is set. It does not matter how far the two conditions are apart.
-/

namespace ConditionLint

open ConditionLint.Tree

namespace Tree

/-! ## The chain -/

/-- The `if` that an else branch consists of, bare or in braces. -/
inductive ConsistsOf : Tree → Tree → Prop
  | bare {s : Tree} (isIf : s.isIf = true) : ConsistsOf s s
  | braced {l : Label} {s : Tree} (block : l.kind = .block) (isIf : s.isIf = true) : ConsistsOf (node l [s]) s

/-- The second `if` is the `else if` of the first. -/
def ElseIf (t s : Tree) : Prop := ∃ branch, t.elseBranch? = some branch ∧ branch.ConsistsOf s

/-- An `if` consists of itself only. -/
theorem ConsistsOf.eq_of_isIf {t s : Tree} (h : t.ConsistsOf s) (ht : t.isIf = true) : s = t := by
  cases h with
  | bare => rfl
  | braced block => simp [isIf, kind, label, block] at ht

/-- A condition of the chain that begins at an else branch belongs to an `if` that is reached from there. -/
theorem exists_of_mem_chainConditions {branch c : Tree} (h : c ∈ chainConditions branch) :
    ∃ r s, branch.ConsistsOf r ∧ Relation.ReflTransGen ElseIf r s ∧ s.condition? = some c := by
  have hhere {t : Tree} (ht : t.isIf = true) (hc : c ∈ t.condition?.toList) :
      ∃ r s, t.ConsistsOf r ∧ Relation.ReflTransGen ElseIf r s ∧ s.condition? = some c :=
    ⟨t, t, .bare ht, .refl, Option.mem_toList.mp hc⟩
  fun_induction chainConditions branch with
  | case1 l only hblock hif ih =>
    obtain ⟨r, s, hr, hsteps, hs⟩ := ih h
    obtain rfl := hr.eq_of_isIf hif
    exact ⟨r, s, .braced hblock hif, hsteps, hs⟩
  | case2 l only hblock hif => contradiction
  | case3 l constexpr condition body hkind => exact hhere (by simp [isIf, kind, label, hkind]) h
  | case4 l constexpr condition body els rest hkind ih =>
    have hif : (node l (condition :: body :: els :: rest)).isIf = true := by simp [isIf, kind, label, hkind]
    rcases List.mem_append.mp h with h | h
    · exact hhere hif h
    · obtain ⟨r, s, hr, hsteps, hs⟩ := ih h
      have hnext : ElseIf (node l (condition :: body :: els :: rest)) r :=
        ⟨els, by simp [elseBranch?, hif, operand?, operands], hr⟩
      exact ⟨_, s, .bare hif, hsteps.head hnext, hs⟩
  | case5 => contradiction

/-- A condition of the chain behind an `if` belongs to an `if` further down in the chain. -/
theorem exists_of_mem_elseIfConditions {t c : Tree} (h : c ∈ t.elseIfConditions) :
    ∃ s, Relation.TransGen ElseIf t s ∧ s.condition? = some c := by
  unfold elseIfConditions at h
  cases hbranch : t.elseBranch? with
  | none => simp [hbranch] at h
  | some branch =>
    rw [hbranch] at h
    obtain ⟨r, s, hr, hsteps, hs⟩ := exists_of_mem_chainConditions h
    exact ⟨s, .head' ⟨branch, hbranch, hr⟩ hsteps, hs⟩

/-! ## Tests for bits -/

/-- A nonnegative literal is split off on one of the sides. -/
theorem of_splitMask? {a b e : Tree} {v : ℤ} (h : splitMask? a b = some (e, v)) :
    e = a ∧ b.spelledValue? = some v ∨ e = b ∧ a.spelledValue? = some v := by
  have hspelled {t : Tree} {w : ℤ} (ht : t.mask? = some w) : t.spelledValue? = some w :=
    spelledValue?_of_spelledInteger? (Option.filter_eq_some_iff.mp ht).1
  unfold splitMask? at h
  split at h
  · next hb =>
    obtain ⟨rfl, rfl⟩ := Prod.mk.inj (Option.some.inj h)
    exact Or.inl ⟨rfl, hspelled hb⟩
  · next ha _ =>
    obtain ⟨rfl, rfl⟩ := Prod.mk.inj (Option.some.inj h)
    exact Or.inr ⟨rfl, hspelled ha⟩
  · contradiction

/-- The expression that a mask or a number is split from is pure. -/
theorem Pure.of_splitMask? {p : Tree → Bool} {l : Label} {a b e : Tree} {v : ℤ} (h : (node l [a, b]).Pure p)
    (hsplit : splitMask? a b = some (e, v)) : e.Pure p := by
  obtain ⟨ha, hb⟩ := h.of_binary
  rcases Tree.of_splitMask? hsplit with ⟨rfl, -⟩ | ⟨rfl, -⟩
  · exact ha
  · exact hb

/-- How one condition covers another that is not the same: both are about one expression, the first tests it for
bits, and the second tests it for some of them or for a number that has one of them. -/
structure CoversBits (first second : Tree) (e e' : Tree) (bits value : ℤ) : Prop where
  first : ∃ l a b, first = node l [a, b] ∧ l.kind = .binary (.arith .bitAnd) ∧
    splitMask? a b = some (e, bits)
  second : ∃ l a b, second = node l [a, b] ∧ splitMask? a b = some (e', value) ∧
    (l.kind = .binary (.arith .bitAnd) ∧ TwosComplement.and bits value = value ∨
      l.kind = .binary (.compare .eq) ∧ 0 < TwosComplement.and bits value)
  shared : same e e' = true

/-- A condition covers another that is the same, or one that its bits cover. -/
theorem coversCondition_cases {first second : Tree} (h : coversCondition first second = true) :
    same first second = true ∨ ∃ e e' bits value, CoversBits first second e e' bits value := by
  rcases Bool.or_eq_true_iff.mp h with hsame | hbits
  · exact Or.inl hsame
  right
  split at hbits
  · next a b op c d hfirst hsecond =>
    obtain ⟨l, rfl, hl⟩ := eq_node_of_binary? hfirst
    obtain ⟨m, rfl, hm⟩ := eq_node_of_binary? hsecond
    split at hbits
    · next e bits e' value hsplit hsplit' =>
      obtain ⟨hsame, hbits⟩ := Bool.and_eq_true_iff.mp hbits
      refine ⟨e, e', bits, value, ⟨l, a, b, rfl, hl, hsplit⟩, ⟨m, c, d, rfl, hsplit', ?_⟩, hsame⟩
      split at hbits
      · exact Or.inl ⟨hm, of_decide_eq_true hbits⟩
      · exact Or.inr ⟨hm, of_decide_eq_true hbits⟩
      · contradiction
    · contradiction
  · contradiction

end Tree

namespace Valuation

section Split

variable (V : Valuation ℤ) {l : Label} {a b e : Tree} {v : ℤ}
  (hsplit : splitMask? a b = some (e, v))
include hsplit

/-- A mask is applied to the expression that it is split from. -/
theorem eval_of_splitMask? (hV : ∀ x y, V.arith .bitAnd x y = TwosComplement.and x y)
    (hkind : l.kind = .binary (.arith .bitAnd)) :
    V.eval (node l [a, b]) = TwosComplement.and v (V.eval e) := by
  rw [V.eval_arith hkind, hV]
  rcases of_splitMask? hsplit with ⟨rfl, hb⟩ | ⟨rfl, ha⟩
  · rw [V.eval_of_spelledValue? hb, TwosComplement.and_comm, Int.cast_id]
  · rw [V.eval_of_spelledValue? ha, Int.cast_id]

/-- A number is compared with the expression that it is split from. -/
theorem eval_eq_of_splitMask? (hkind : l.kind = .binary (.compare .eq))
    (h : V.isTrue (node l [a, b]) = true) : V.eval e = v := by
  rw [V.isTrue_compare hkind] at h
  have heq : V.eval a = V.eval b := by simpa [Order.holds] using h
  rcases of_splitMask? hsplit with ⟨rfl, hb⟩ | ⟨rfl, ha⟩
  · rw [heq, V.eval_of_spelledValue? hb, Int.cast_id]
  · rw [← heq, V.eval_of_spelledValue? ha, Int.cast_id]

end Split

/-- A condition is false where one that covers it is. -/
theorem isTrue_of_coversCondition (V : Valuation ℤ)
    (hV : ∀ x y, V.arith .bitAnd x y = TwosComplement.and x y) {p : Tree → Bool}
    (hp : ∀ s, p s = true → s.isDoubleNegation = false) {first second : Tree} (hfirst : first.Pure p)
    (hsecond : second.Pure p) (h : coversCondition first second = true) (hfalse : V.isTrue first = false) :
    V.isTrue second = false := by
  rcases coversCondition_cases h with hsame | ⟨e, e', bits, value, hcovers⟩
  · rwa [isTrue, ← V.eval_eq_of_same hp hfirst hsecond hsame]
  obtain ⟨l, a, b, rfl, hl, hsplit⟩ := hcovers.first
  obtain ⟨m, c, d, rfl, hsplit', hcases⟩ := hcovers.second
  have heq : V.eval e = V.eval e' :=
    V.eval_eq_of_same hp (hfirst.of_splitMask? hsplit) (hsecond.of_splitMask? hsplit') hcovers.shared
  have hnone : TwosComplement.and bits (V.eval e) = 0 := by
    rw [← V.eval_of_splitMask? hsplit hV hl]
    simpa [isTrue] using hfalse
  rcases hcases with ⟨hm, hsubset⟩ | ⟨hm, hcommon⟩
  · have hzero := TwosComplement.and_eq_zero_of_disjoint hsubset hnone
    simp [isTrue, V.eval_of_splitMask? hsplit' hV hm, ← heq, hzero]
  · by_contra htrue
    rw [Bool.not_eq_false] at htrue
    rw [heq, V.eval_eq_of_splitMask? hsplit' hm htrue] at hnone
    omega

end Valuation

namespace Place

variable {u : SourceUnit} {l : Ledger} {p : Place} {f : Finding}

/-- What is found at an `if` is about its condition and one further down in the chain. -/
theorem of_mem_elseIfs (h : f ∈ p.elseIfs u l) :
    ∃ first second, p.tree.condition? = some first ∧ second ∈ p.tree.elseIfConditions ∧
      (coversCondition first second = true ∧ f = .coveredElseIf (u.placeOf first) (u.placeOf second) ∨
        opposite first second = true ∧ f = .oppositeElseIf (u.placeOf first) (u.placeOf second)) := by
  unfold elseIfs at h
  split at h
  · next first hfirst =>
    have hcondition : p.tree.condition? = some first := by
      split at hfirst
      · exact hfirst
      · contradiction
    split at h
    · contradiction
    · obtain ⟨second, hsecond, hfinding⟩ := List.mem_filterMap.mp h
      refine ⟨first, second, hcondition, (List.takeWhile_prefix _).subset hsecond, ?_⟩
      unfold elseIfFinding? at hfinding
      split at hfinding
      · next hcovers => exact Or.inl ⟨hcovers, (Option.some.inj hfinding).symm⟩
      · split at hfinding
        · next hopposite => exact Or.inr ⟨hopposite, (Option.some.inj hfinding).symm⟩
        · contradiction
  · contradiction

end Place

/-- The second condition has one truth value wherever the first is false, if both are made of constants,
variables and operators without effect and negate no negation. What the operators stand for is left open, except
that `&` is the operation on bits. -/
def Tree.FailureSettles (first second : Tree) (truth : Bool) : Prop :=
  first.Pure isSingle → second.Pure isSingle → ∀ V : Valuation ℤ,
    (∀ x y, V.arith .bitAnd x y = TwosComplement.and x y) → V.isTrue first = false → V.isTrue second = truth

/-- A report on an else-if chain names two conditions of the chain. The later one is always false or always true,
as the message says, where the earlier one is false. -/
theorem elseIf_reports_right {o : Options} {u : SourceUnit} {l : Ledger} {f : Finding}
    (hf : f ∈ Check.elseIf.reports o u l) :
    ∃ t s first second, t ∈ u.listing ∧ Relation.TransGen ElseIf t s ∧ t.condition? = some first ∧
      s.condition? = some second ∧
      ((f = .coveredElseIf (u.placeOf first) (u.placeOf second) ∧ first.FailureSettles second false ∧
          (f.diagnostic u).message = "Expression is always false because 'else if' condition matches " ++
            "previous condition at line " ++ toString first.label.location.line ++ ".") ∨
        (f = .oppositeElseIf (u.placeOf first) (u.placeOf second) ∧ first.FailureSettles second true ∧
          (f.diagnostic u).message = "Expression is always true because 'else if' condition is opposite to " ++
            "previous condition at line " ++ toString first.label.location.line ++ ".")) := by
  have hp : ∀ s : Tree, s.isSingle = true → s.isDoubleNegation = false := fun s hs => by
    simpa [isSingle] using hs
  obtain ⟨_, q, hq, hfound⟩ := Check.exists_of_mem_reports hf
  obtain ⟨t, ht, rfl⟩ := SourceUnit.exists_of_mem_scanned hq
  obtain ⟨first, second, hfirst, hsecond, hcases⟩ := Place.of_mem_elseIfs hfound
  obtain ⟨s, hsteps, hs⟩ := exists_of_mem_elseIfConditions hsecond
  refine ⟨t, s, first, second, ht, hsteps, hfirst, hs, ?_⟩
  rcases hcases with ⟨hcovers, rfl⟩ | ⟨hopposite, rfl⟩
  · refine Or.inl ⟨rfl, fun hpure hpure' V hV hfalse => ?_, rfl⟩
    exact V.isTrue_of_coversCondition hV hp hpure hpure' hcovers hfalse
  · refine Or.inr ⟨rfl, fun hpure hpure' V _ hfalse => ?_, rfl⟩
    have htruth := V.isTrue_of_opposite hp hpure hpure' hopposite
    simpa [hfalse] using htruth

/-- `x & 3` -/
def Tree.lowBits (id : NodeId) : Tree :=
  plain id (.binary (.arith .bitAnd)) .int none [ofVariable (id + 1) (.onStack 0 "x" .int), ofInt (id + 2) 3]

/-- `!(x & 3)` -/
def Tree.lacksLowBits (id : NodeId) : Tree := plain id (.unary .not) .bool none [lowBits (id + 1)]

/-- `if (x & 3) {} else { if (x == 1) {} else if (!(x & 3)) {} }` -/
def maskedChain : Tree :=
  ofStatement 0 (.keyword (.ifStmt false))
    [lowBits 1, ofStatement 4 .block [],
      ofStatement 5 .block
        [ofStatement 6 (.keyword (.ifStmt false))
          [compareX 7 .eq 1, ofStatement 10 .block [], ofIf 11 (lacksLowBits 12) (ofStatement 16 .block [])]]]

/-- In the chain `x == 1` is reported as always false and `!(x & 3)` as always true, and they are where `x & 3` is
false. -/
theorem elseIf_reports_right_maskedChain :
    (∃ f ∈ Check.elseIf.reports {} (.ofTree maskedChain) {}, f.subjects.map Place.tree = [compareX 7 .eq 1]) ∧
      (∃ f ∈ Check.elseIf.reports {} (.ofTree maskedChain) {},
        f.subjects.map Place.tree = [lowBits 1, lacksLowBits 12]) ∧
      ∀ V : Valuation ℤ, (∀ x y, V.arith .bitAnd x y = TwosComplement.and x y) →
        V.isTrue (lowBits 1) = false →
          V.isTrue (compareX 7 .eq 1) = false ∧ V.isTrue (lacksLowBits 12) = true := by
  obtain ⟨p, q, r, hreports, hp, hq, hr⟩ : ∃ p q r : Place,
      Check.elseIf.reports {} (.ofTree maskedChain) {} = [.coveredElseIf p q, .oppositeElseIf p r] ∧
        p.tree = lowBits 1 ∧ q.tree = compareX 7 .eq 1 ∧ r.tree = lacksLowBits 12 := ⟨_, _, _, rfl, rfl, rfl, rfl⟩
  have hcovered : .coveredElseIf p q ∈ Check.elseIf.reports {} (.ofTree maskedChain) {} := by simp [hreports]
  have hopposite : .oppositeElseIf p r ∈ Check.elseIf.reports {} (.ofTree maskedChain) {} := by simp [hreports]
  refine ⟨⟨_, hcovered, by simp [Finding.subjects, hq]⟩, ⟨_, hopposite, by simp [Finding.subjects, hp, hr]⟩, ?_⟩
  intro V hV hfalse
  constructor
  · obtain ⟨t, s, first, second, -, -, -, -, ⟨heq, hsettles, -⟩ | ⟨heq, -⟩⟩ := elseIf_reports_right hcovered
    · obtain ⟨rfl, rfl⟩ := Finding.coveredElseIf.inj heq
      obtain rfl : first = lowBits 1 := hp
      obtain rfl : second = compareX 7 .eq 1 := hq
      exact hsettles (by decide) (by decide) V hV hfalse
    · exact Finding.noConfusion heq
  · obtain ⟨t, s, first, second, -, -, -, -, ⟨heq, -⟩ | ⟨heq, hsettles, -⟩⟩ := elseIf_reports_right hopposite
    · exact Finding.noConfusion heq
    · obtain ⟨rfl, rfl⟩ := Finding.oppositeElseIf.inj heq
      obtain rfl : first = lowBits 1 := hp
      obtain rfl : second = lacksLowBits 12 := hr
      exact hsettles (by decide) (by decide) V hV hfalse

end ConditionLint
