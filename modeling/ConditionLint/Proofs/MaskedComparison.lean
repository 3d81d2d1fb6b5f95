import ConditionLint.Proofs.FloatingPair
import ConditionLint.Proofs.MaskedAssignment
import ConditionLint.Proofs.Resolution

/-!
# Comparisons of masked values

The constants of a masked comparison may settle its result for all values that are masked. What `&` leaves lies
between zero and the mask, and what `|` gives has all bits of the mask. A verdict therefore holds for every
integer, with one exception: that `|` gives at least the mask is true of values that are not negative only. Apart
from some comparisons with zero, a verdict is given whenever the result is fixed.

A chain of masks is masked with each of its constants. What remains of a chain of `|` is negative as soon as one of
its operands is, and then no lower bound holds. Whether that can happen depends on all operands of the chain, while
the verdict rests on the type of one of them.
-/

namespace ConditionLint

open ConditionLint.Tree

namespace MaskOp

/-- The result of the operation on integers in two's complement. -/
def apply : MaskOp → ℤ → ℤ → ℤ
  | and => TwosComplement.and
  | or => TwosComplement.or

/-- A mask may stand on either side. -/
theorem apply_comm (op : MaskOp) (x y : ℤ) : op.apply x y = op.apply y x := by
  cases op with
  | and => exact TwosComplement.and_comm x y
  | or => exact TwosComplement.or_comm x y

/-- Two masks may be applied in either order. -/
theorem apply_right_comm (op : MaskOp) (x y z : ℤ) :
    op.apply (op.apply x y) z = op.apply (op.apply x z) y := by
  cases op with
  | and => exact TwosComplement.and_right_comm x y z
  | or => exact TwosComplement.or_right_comm x y z

end MaskOp

/-! ## Verdicts from the constants -/

namespace MaskTest

/-- Whether the comparison is true of a value. -/
def holdsAt (t : MaskTest) (x : ℤ) : Bool := t.order.holds (t.op.apply x t.mask) t.bound

/-- Whether the result is fixed but no verdict is given: that `&` gives no negative number, and that nothing is left
by a mask without bits, is not looked at. -/
def isIdle (t : MaskTest) : Bool :=
  t.op = .and && t.bound = 0 &&
    match t.order with
    | .eq => t.mask = 0
    | .ne => t.mask = 0
    | .lt => true
    | .ge => true
    | _ => false

variable {t : MaskTest} {unsigned truth : Bool} {x : ℤ}

/-- When a verdict is given. It is stated by the comparison that is then always true. -/
theorem truth?_eq_some_iff : t.truth? unsigned = some truth ↔ 0 ≤ t.mask ∧ 0 ≤ t.bound ∧
    match t.op, t.order.affirm truth with
    | .and, .ne => TwosComplement.and t.mask t.bound ≠ t.bound
    | .and, .lt => t.mask < t.bound
    | .and, .le => t.mask ≤ t.bound
    | .or, .ne => TwosComplement.or t.mask t.bound ≠ t.bound
    | .or, .ge => unsigned = true ∧ t.bound ≤ t.mask
    | .or, .gt => unsigned = true ∧ t.bound < t.mask
    | _, _ => False := by
  obtain ⟨op, mask, order, bound⟩ := t
  cases op <;> cases order <;> cases truth <;> simp [truth?, Order.affirm, Order.negate, and_assoc]

/-- Whether a test is idle does not depend on the truth that is asked for. -/
theorem isIdle_affirm (t : MaskTest) (truth : Bool) :
    ({ t with order := t.order.affirm truth } : MaskTest).isIdle = t.isIdle := by
  obtain ⟨op, mask, order, bound⟩ := t
  cases truth with
  | false => cases order <;> rfl
  | true => rfl

/-- A verdict is right for every value that is masked by `&` or compared for equality, and otherwise for every value
that is not negative. -/
theorem holdsAt_of_truth? (h : t.truth? unsigned = some truth)
    (hx : t.op = .or → t.order.isEquality = false → 0 ≤ x) : t.holdsAt x = truth := by
  obtain ⟨hmask, hbound, h⟩ := truth?_eq_some_iff.mp h
  obtain ⟨-, hhigh⟩ := TwosComplement.and_bounds x hmask
  rw [← Order.isEquality_affirm _ truth] at hx
  rw [holdsAt, ← Order.holds_affirm]
  split at h
  · next hop horder =>
    rw [hop, horder]
    refine bne_iff_ne.mpr fun heq => h ?_
    rw [← heq, MaskOp.apply, TwosComplement.and_comm x, TwosComplement.and_and_self]
  · next hop horder =>
    rw [hop, horder]
    exact decide_eq_true (hhigh.trans_lt h)
  · next hop horder =>
    rw [hop, horder]
    exact decide_eq_true (hhigh.trans h)
  · next hop horder =>
    rw [hop, horder]
    refine bne_iff_ne.mpr fun heq => h ?_
    rw [← heq, MaskOp.apply, TwosComplement.or_comm x, TwosComplement.or_or_self]
  · next hop horder =>
    have hlow := TwosComplement.le_or (hx hop (by rw [horder]; rfl)) hmask
    rw [hop, horder]
    exact decide_eq_true (h.2.trans hlow)
  · next hop horder =>
    have hlow := TwosComplement.le_or (hx hop (by rw [horder]; rfl)) hmask
    rw [hop, horder]
    exact decide_eq_true (h.2.trans_le hlow)
  · contradiction

/-- A lower bound for what `|` gives is stated only where the masked value counts as unsigned. -/
theorem unsigned_of_truth? (h : t.truth? unsigned = some truth) (hop : t.op = .or)
    (horder : t.order.isEquality = false) : unsigned = true := by
  obtain ⟨-, -, h⟩ := truth?_eq_some_iff.mp h
  rw [← Order.isEquality_affirm _ truth] at horder
  rw [hop] at h
  split at h <;> simp_all [Order.isEquality]

/-- Such a bound is wrong for every negative result. -/
theorem holds_neg_of_truth? (h : t.truth? unsigned = some truth) (hop : t.op = .or)
    (horder : t.order.isEquality = false) {y : ℤ} (hy : y < 0) : t.order.holds y t.bound ≠ truth := by
  obtain ⟨-, hbound, h⟩ := truth?_eq_some_iff.mp h
  rw [← Order.isEquality_affirm _ truth] at horder
  rw [ne_eq, ← Order.holds_affirm]
  rw [hop] at h
  generalize t.order.affirm truth = order at h horder ⊢
  cases order <;> simp_all [Order.holds, Order.isEquality] <;> omega

/-- No verdict is given about an idle test. -/
theorem isIdle_of_truth? (h : t.truth? unsigned = some truth) : t.isIdle = false := by
  obtain ⟨hmask, hbound, h⟩ := truth?_eq_some_iff.mp h
  have hbounds := TwosComplement.and_bounds t.mask hbound
  rw [← t.isIdle_affirm truth]
  generalize t.order.affirm truth = order at h ⊢
  cases hop : t.op with
  | or => simp [isIdle]
  | and =>
    rw [hop] at h
    cases order <;> simp [isIdle] at h ⊢ <;> omega

/-- A comparison of what `&` leaves gets its verdict if the result is the same for three values: those that leave no
bit, all bits of the mask, and its bits in the bound. -/
theorem truth?_of_and (hop : t.op = .and) (hmask : 0 ≤ t.mask) (hbound : 0 ≤ t.bound) (hidle : t.isIdle = false)
    (h : ∀ x, 0 ≤ x → t.holdsAt x = truth) : t.truth? unsigned = some truth := by
  have hat {x : ℤ} (hx : 0 ≤ x) :
      (t.order.affirm truth).holds (TwosComplement.and t.mask x) t.bound = true := by
    have := h x hx
    rwa [holdsAt, ← Order.holds_affirm, hop, MaskOp.apply, TwosComplement.and_comm] at this
  have hnone := hat le_rfl
  have hsome := hat hbound
  have hall := hat hmask
  have hzero := TwosComplement.and_bounds t.mask le_rfl
  rw [TwosComplement.and_self] at hall
  rw [← t.isIdle_affirm truth] at hidle
  refine truth?_eq_some_iff.mpr ⟨hmask, hbound, ?_⟩
  generalize t.order.affirm truth = order at hnone hsome hall hidle
  cases order <;> simp [hop, Order.holds, isIdle] at hnone hsome hall hidle ⊢ <;> omega

/-- A comparison of what `|` gives gets its verdict if the result is the same for three values: the bound, the number
above it, and the least value with respect to the sign. -/
theorem truth?_of_or (hop : t.op = .or) (hmask : 0 ≤ t.mask) (hbound : 0 ≤ t.bound)
    (h : ∀ x, (unsigned = true → 0 ≤ x) → t.holdsAt x = truth) : t.truth? unsigned = some truth := by
  have hat {x : ℤ} (hx : unsigned = true → 0 ≤ x) :
      (t.order.affirm truth).holds (TwosComplement.or t.mask x) t.bound = true := by
    have := h x hx
    rwa [holdsAt, ← Order.holds_affirm, hop, MaskOp.apply, TwosComplement.or_comm] at this
  have hsome := hat fun _ => hbound
  have hmore := hat (x := t.bound + 1) fun _ => by omega
  have hlow := TwosComplement.le_or hmask hbound
  have hhigh := TwosComplement.le_or (y := t.bound + 1) hmask (by omega)
  refine truth?_eq_some_iff.mpr ⟨hmask, hbound, ?_⟩
  rw [hop]
  cases unsigned with
  | true =>
    have hnone := hat fun _ => le_rfl
    rw [TwosComplement.or_comm, TwosComplement.zero_or hmask] at hnone
    generalize t.order.affirm truth = order at hnone hsome hmore
    cases order <;> simp [Order.holds] at hnone hsome hmore ⊢ <;> omega
  | false =>
    have hsign := hat (x := -1) (by simp)
    have hneg := (TwosComplement.or_neg_iff t.mask (-1)).mpr (Or.inr (by decide))
    generalize t.order.affirm truth = order at hsign hsome hmore
    cases order <;> simp [Order.holds] at hsign hsome hmore ⊢ <;> omega

/-- A verdict is given exactly when the constants are not negative, the comparison is not one of those that are not
looked at, and it has the same truth value for all values, or for all that are not negative if the value is
unsigned. For `&` and for equality it does not matter whether the value is unsigned. -/
theorem settled_iff (t : MaskTest) (unsigned truth : Bool) :
    (t.truth? unsigned = some truth ↔
      0 ≤ t.mask ∧ 0 ≤ t.bound ∧ t.isIdle = false ∧
        ∀ x, (unsigned = true → 0 ≤ x) → t.holdsAt x = truth) ∧
      (t.op = .and ∨ t.order.isEquality = true → t.truth? unsigned = some truth →
        ∀ x, t.holdsAt x = truth) := by
  refine ⟨⟨fun h => ?_, fun ⟨hmask, hbound, hidle, h⟩ => ?_⟩, fun hcases h x => ?_⟩
  · obtain ⟨hmask, hbound, -⟩ := truth?_eq_some_iff.mp h
    refine ⟨hmask, hbound, isIdle_of_truth? h, fun x hx => holdsAt_of_truth? h fun hop horder => ?_⟩
    exact hx (unsigned_of_truth? h hop horder)
  · cases hop : t.op with
    | and => exact truth?_of_and hop hmask hbound hidle fun x hx => h x fun _ => hx
    | or => exact truth?_of_or hop hmask hbound h
  · refine holdsAt_of_truth? h fun hop horder => ?_
    rcases hcases with hand | hequality
    · simp [hop] at hand
    · simp [horder] at hequality

/-- `(X & 6) == 1` is false for every integer, also for a negative one and for an unsigned value. -/
theorem settled_iff_disjointBits :
    (⟨.and, 6, .eq, 1⟩ : MaskTest).truth? true = some false ∧
      ∀ x, (⟨.and, 6, .eq, 1⟩ : MaskTest).holdsAt x = false :=
  ⟨by decide, (settled_iff _ true false).2 (Or.inl rfl) (by decide)⟩

end MaskTest

/-! ## Chains of masks -/

namespace Tree

/-- The variable that the node is the name of. -/
def namedVariable? (t : Tree) : Option Variable :=
  match t.kind with
  | .identifier _ none => t.referent
  | _ => none

/-- Whether the node is an integer literal or the name of a variable. -/
def isTerm (t : Tree) : Bool := t.spelledInteger?.isSome || t.namedVariable?.isSome

/-- Whether the node is an integer literal that is not negative, or the name of an unsigned variable. -/
def isNonnegativeTerm (t : Tree) : Bool :=
  (t.spelledInteger?.any fun v => 0 ≤ v) || t.namedVariable?.any fun x => x.ctype.isUnsigned

/-- A name refers to a variable as it is declared. -/
theorem RefersTo.getElem?_eq {vars : List Variable} {t : Tree} (h : t.RefersTo vars) {x : Variable}
    (hx : t.namedVariable? = some x) : vars[x.id]? = some x := by
  unfold namedVariable? at hx
  split at hx
  · exact (Everywhere.label h x hx).1
  · contradiction

/-- The operands that are reached through one operator have a property that all nodes have. -/
theorem Everywhere.of_mem_chain {P : Label → Prop} {s t : Tree} (h : t.Everywhere P) {op : BinaryOp}
    (hs : s ∈ t.chain op) : s.Everywhere P := by
  fun_induction chain op t with
  | case1 l lhs rhs _ ihl ihr =>
    rcases List.mem_append.mp hs with hs | hs
    · exact ihl (h.operand (by simp [operands])) hs
    · exact ihr (h.operand (by simp [operands])) hs
  | case2 => exact List.mem_singleton.mp hs ▸ h
  | case3 => exact List.mem_singleton.mp hs ▸ h

/-- A constant of a chain is one of its two operands, or a constant of one of them. -/
theorem of_mem_maskConstants {op : MaskOp} {l : Label} {ts : List Tree} {mask : ℤ}
    (h : mask ∈ (node l ts).maskConstants op) :
    ∃ lhs rhs, ts = [lhs, rhs] ∧ l.kind = .binary (.arith op.toArith) ∧
      ((lhs.spelledInteger? = some mask ∨ mask ∈ lhs.maskConstants op) ∨
        rhs.spelledInteger? = some mask ∨ mask ∈ rhs.maskConstants op) := by
  rw [maskConstants.eq_def] at h
  split at h
  · next lhs rhs heq =>
    obtain ⟨rfl, rfl⟩ := node.inj heq
    split at h
    · next hkind =>
      refine ⟨lhs, rhs, rfl, hkind, (List.mem_append.mp h).imp (fun h => ?_) (fun h => ?_)⟩
      all_goals
        split at h
        · next v hv => exact Or.inl (List.mem_singleton.mp h ▸ hv)
        · exact Or.inr h
    · contradiction
  · contradiction

/-- A comparison is read from the side without the literal. -/
theorem of_againstLiteral? {order order' : Order} {lhs rhs masked : Tree} {bound : ℤ}
    (h : againstLiteral? order lhs rhs = some (masked, order', bound)) :
    (masked = rhs ∧ order' = order.swap ∧ lhs.spelledInteger? = some bound) ∨
      masked = lhs ∧ order' = order ∧ rhs.spelledInteger? = some bound := by
  unfold againstLiteral? at h
  split at h
  · next hlhs _ =>
    simp only [Option.some.injEq, Prod.mk.injEq] at h
    obtain ⟨rfl, rfl, rfl⟩ := h
    exact Or.inl ⟨rfl, rfl, hlhs⟩
  · next hrhs =>
    simp only [Option.some.injEq, Prod.mk.injEq] at h
    obtain ⟨rfl, rfl, rfl⟩ := h
    exact Or.inr ⟨rfl, rfl, hrhs⟩
  · contradiction

/-- The order and constant of a comparison with an integer literal, with the other side on the left. -/
def literalTest? (t : Tree) : Option (Tree × Order × ℤ) :=
  t.comparison?.bind fun (order, lhs, rhs) => againstLiteral? order lhs rhs

/-- What is compared with a literal is an operand of the comparison. -/
theorem mem_operands_of_literalTest? {t masked : Tree} {order : Order} {bound : ℤ}
    (h : t.literalTest? = some (masked, order, bound)) : masked ∈ t.operands := by
  obtain ⟨⟨o, lhs, rhs⟩, hcomparison, hagainst⟩ := Option.bind_eq_some_iff.mp h
  obtain ⟨l, rfl, -⟩ := eq_node_of_comparison? hcomparison
  rcases of_againstLiteral? hagainst with ⟨rfl, -⟩ | ⟨rfl, -⟩ <;> simp [operands]

end Tree

namespace Valuation

/-- The values of unsigned variables are not negative. -/
def RespectsSigns (V : Valuation ℤ) (vars : List Variable) : Prop :=
  ∀ x ∈ vars, x.ctype.isUnsigned = true → 0 ≤ V.var x.id

/-- The valuation with bitwise operators that gives every variable minus one, unless it is unsigned. -/
def negative (vars : List Variable) : Valuation ℤ :=
  Valuation.bitwise.under fun x => if vars[x]?.any fun v => v.ctype.isUnsigned then 0 else -1

variable {V : Valuation ℤ} {t masked s : Tree} {vars : List Variable}

/-- Bitwise operators do what masks do. -/
theorem IsBitwise.arith (hV : V.IsBitwise) (op : MaskOp) : V.arith op.toArith = op.apply := by
  cases op with
  | and => exact hV.bitAnd
  | or => exact hV.bitOr

/-- The valuation with negative values has bitwise operators. -/
theorem isBitwise_negative : (negative vars).IsBitwise := ⟨rfl, rfl⟩

/-- A spelled integer has its value. -/
theorem eval_of_spelledInteger? {v : ℤ} (h : s.spelledInteger? = some v) : V.eval s = v :=
  V.eval_of_spelledValue? (spelledValue?_of_spelledInteger? h)

/-- A comparison with a literal is true when the order holds between the other side and the constant. -/
theorem isTrue_of_literalTest? {order : Order} {bound : ℤ} (h : t.literalTest? = some (masked, order, bound)) :
    V.isTrue t = order.holds (V.eval masked) bound := by
  obtain ⟨⟨o, lhs, rhs⟩, hcomparison, hagainst⟩ := Option.bind_eq_some_iff.mp h
  obtain ⟨l, rfl, hkind⟩ := eq_node_of_comparison? hcomparison
  rw [V.isTrue_compare hkind]
  rcases of_againstLiteral? hagainst with ⟨rfl, rfl, hlhs⟩ | ⟨rfl, rfl, hrhs⟩
  · rw [eval_of_spelledInteger? hlhs, Order.holds_swap]
  · rw [eval_of_spelledInteger? hrhs]

/-- A chain that has a constant among its operands is masked with that constant. -/
theorem IsBitwise.exists_eval_eq (hV : V.IsBitwise) {op : MaskOp} {mask : ℤ} (h : mask ∈ t.maskConstants op) :
    ∃ x, V.eval t = op.apply x mask := by
  induction t using induction_operands with
  | step l ts ih =>
    obtain ⟨lhs, rhs, rfl, hkind, hmask⟩ := of_mem_maskConstants h
    have hoperand {s : Tree} (hs : s ∈ [lhs, rhs])
        (hmask : s.spelledInteger? = some mask ∨ mask ∈ s.maskConstants op) :
        V.eval s = mask ∨ ∃ x, V.eval s = op.apply x mask :=
      hmask.imp eval_of_spelledInteger? (ih s hs)
    rw [V.eval_arith hkind, hV.arith]
    rcases hmask with hlhs | hrhs
    · obtain heq | ⟨x, heq⟩ := hoperand (by simp) hlhs
      · exact ⟨V.eval rhs, by rw [heq, op.apply_comm]⟩
      · exact ⟨op.apply x (V.eval rhs), by rw [heq, op.apply_right_comm]⟩
    · obtain heq | ⟨x, heq⟩ := hoperand (by simp) hrhs
      · exact ⟨V.eval lhs, by rw [heq]⟩
      · exact ⟨op.apply x (V.eval lhs), by rw [heq, op.apply_comm, op.apply_right_comm]⟩

/-- A chain of `|` is negative when one of its operands is. -/
theorem IsBitwise.eval_neg_iff (hV : V.IsBitwise) :
    V.eval t < 0 ↔ ∃ s ∈ t.chain (.arith .bitOr), V.eval s < 0 := by
  fun_induction chain (.arith .bitOr) t with
  | case1 l lhs rhs hkind ihl ihr =>
    rw [V.eval_arith hkind, hV.bitOr, TwosComplement.or_neg_iff, ihl, ihr]
    simp only [List.mem_append, or_and_right, exists_or]
  | case2 => simp
  | case3 => simp

/-- A verdict on a chain is right unless it orders a chain of `|` with a negative operand. -/
theorem IsBitwise.holds_of_truth? (hV : V.IsBitwise) {test : MaskTest} {unsigned truth : Bool}
    (hmask : test.mask ∈ masked.maskConstants test.op) (htruth : test.truth? unsigned = some truth)
    (hnonneg : test.op = .or → test.order.isEquality = false →
      ∀ s ∈ masked.chain (.arith .bitOr), 0 ≤ V.eval s) :
    test.order.holds (V.eval masked) test.bound = truth := by
  obtain ⟨x, hx⟩ := hV.exists_eval_eq hmask
  rw [hx]
  refine MaskTest.holdsAt_of_truth? htruth fun hop horder => ?_
  by_contra hneg
  have hchain : V.eval masked < 0 := by
    rw [hx, hop]
    exact (TwosComplement.or_neg_iff x test.mask).mpr (Or.inl (not_le.mp hneg))
  obtain ⟨s, hs, hlt⟩ := hV.eval_neg_iff.mp hchain
  exact absurd (hnonneg hop horder s hs) (not_le.mpr hlt)

/-- A reference has the value of its variable. -/
theorem eval_of_namedVariable? {x : Variable} (h : s.namedVariable? = some x) : V.eval s = V.var x.id := by
  obtain ⟨l, ts⟩ := s
  unfold namedVariable? at h
  split at h
  · next hkind => exact V.eval_variable hkind h
  · contradiction

/-- Literals that are not negative and unsigned variables have no negative values. -/
theorem eval_nonneg (hV : V.RespectsSigns vars) (hs : s.RefersTo vars) (h : s.isNonnegativeTerm = true) :
    0 ≤ V.eval s := by
  rcases Bool.or_eq_true_iff.mp h with h | h
  · obtain ⟨v, hv, hnonneg⟩ := (Option.any_eq_true _ _).mp h
    rw [eval_of_spelledInteger? hv]
    exact of_decide_eq_true hnonneg
  · obtain ⟨x, hx, hunsigned⟩ := (Option.any_eq_true _ _).mp h
    rw [eval_of_namedVariable? hx]
    exact hV x (List.mem_of_getElem? (hs.getElem?_eq hx)) hunsigned

/-- Every other term may be negative. -/
theorem eval_negative (hs : s.RefersTo vars) (hterm : s.isTerm = true) (h : s.isNonnegativeTerm = false) :
    (negative vars).eval s < 0 := by
  obtain ⟨hliteral, hvariable⟩ := Bool.or_eq_false_iff.mp h
  rcases Bool.or_eq_true_iff.mp hterm with hterm | hterm
  · obtain ⟨v, hv⟩ := Option.isSome_iff_exists.mp hterm
    rw [hv, Option.any_some, decide_eq_false_iff_not, not_le] at hliteral
    rwa [eval_of_spelledInteger? hv]
  · obtain ⟨x, hx⟩ := Option.isSome_iff_exists.mp hterm
    rw [hx, Option.any_some] at hvariable
    rw [eval_of_namedVariable? hx]
    simp [negative, hs.getElem?_eq hx, hvariable]

end Valuation

/-- The valuation is one of those that keep unsigned variables from being negative. -/
theorem Draft.IsResolved.respectsSigns_negative {d : Draft} (h : d.IsResolved) :
    (Valuation.negative d.vars).RespectsSigns d.vars := by
  intro x hx hunsigned
  simp [Valuation.negative, h.getElem?_of_mem hx, hunsigned]

namespace Place

variable {u : SourceUnit} {p : Place} {f : Finding}

/-- A finding about a masked comparison names one of the constants and its verdict. -/
theorem of_mem_constantMaskTests (h : f ∈ p.constantMaskTests u) :
    ∃ masked test truth, p.tree.literalTest? = some (masked, test.order, test.bound) ∧
      test.mask ∈ masked.maskConstants test.op ∧ test.truth? masked.maskedIsUnsigned = some truth ∧
      f = .constantMaskTest (u.placeOf masked) test truth := by
  unfold constantMaskTests at h
  split at h
  · contradiction
  · split at h
    · next masked order bound htest =>
      split at h
      · next op hop =>
        obtain ⟨mask, hmask, hfinding⟩ := List.mem_filterMap.mp h
        obtain ⟨truth, htruth, rfl⟩ := Option.map_eq_some_iff.mp hfinding
        exact ⟨masked, ⟨op, mask, order, bound⟩, truth, htest, hmask, htruth, rfl⟩
      · contradiction
    · contradiction

end Place

/-- A comparison that is found to have always the same result, with its masked side made of variables and literals
by one operator, has that result under all valuations that keep unsigned variables from being negative, unless it
orders a chain of `|`. The result of such a chain is right exactly when all operands are unsigned variables and
literals that are not negative. -/
theorem masked_comparisons_right_iff {file : String} {actions : List Action} {d : Draft}
    (hd : Draft.performAll? { file := file } actions = some d) {t : Tree} (ht : t ∈ d.finish.listing)
    {o : Options} {l : Ledger} {f : Finding}
    (hf : f ∈ Check.maskedComparison.findingsAt o d.finish l (d.finish.placeOf t)) :
    ∃ masked test truth, t.literalTest? = some (masked, test.order, test.bound) ∧
      test.mask ∈ masked.maskConstants test.op ∧
      f = .constantMaskTest (d.finish.placeOf masked) test truth ∧
      (f.diagnostic d.finish).message =
        "Expression " ++ quoted test.text ++ " is always " ++ truthText truth ++ "." ∧
      ((∀ s ∈ masked.chain (.arith test.op.toArith), s.isTerm = true) →
        ((∀ V : Valuation ℤ, V.IsBitwise → V.RespectsSigns d.vars → V.isTrue t = truth) ↔
          (test.op = .or → test.order.isEquality = false →
            ∀ s ∈ masked.chain (.arith .bitOr), s.isNonnegativeTerm = true))) := by
  have hresolved := Draft.isResolved_of_performAll? hd
  obtain ⟨masked, test, truth, htest, hmask, htruth, rfl⟩ := Place.of_mem_constantMaskTests hf
  change t.literalTest? = _ at htest
  have hmasked : masked.RefersTo d.vars :=
    (hresolved.refersTo_of_mem_listing ht).operand (mem_operands_of_literalTest? htest)
  refine ⟨masked, test, truth, htest, hmask, rfl, rfl, fun hterms => ?_⟩
  simp only [Valuation.isTrue_of_literalTest? htest]
  constructor
  · intro hright hop horder s hs
    by_contra hnegative
    rw [Bool.not_eq_true] at hnegative
    rw [hop] at hterms
    have hlt := Valuation.eval_negative (hmasked.of_mem_chain hs) (hterms s hs) hnegative
    refine MaskTest.holds_neg_of_truth? htruth hop horder
      (Valuation.isBitwise_negative.eval_neg_iff.mpr ⟨s, hs, hlt⟩) ?_
    exact hright _ Valuation.isBitwise_negative (hresolved.respectsSigns_negative)
  · intro hnonneg V hV hsigns
    refine hV.holds_of_truth? hmask htruth fun hop horder s hs => ?_
    exact Valuation.eval_nonneg hsigns (hmasked.of_mem_chain hs) (hnonneg hop horder s hs)

/-- `(c | (s | 4)) >= 4`, for an unsigned character `c` and an integer `s`. -/
def signedWithin : List Action :=
  [.declare "c" { CType.char with sign := .unsigned } {}, .declare "s" .int {}, .reference 0, .reference 1,
    .literal (.decimal 4) .int, .binary (.arith .bitOr) 1 2, .binary (.arith .bitOr) 0 3,
    .literal (.decimal 4) .int, .binary (.compare .ge) 4 5]

/-- The comparison is taken to be always true because `c` is unsigned. But it is false where `s` is negative. -/
theorem masked_comparisons_right_iff_signedWithin :
    ∃ d, Draft.performAll? { file := "main.c" } signedWithin = some d ∧ ∃ t ∈ d.finish.listing,
      ∃ f ∈ Check.maskedComparison.findingsAt {} d.finish {} (d.finish.placeOf t),
        (f.diagnostic d.finish).message = "Expression '(X | 0x4) >= 0x4' is always true." ∧
          ¬∀ V : Valuation ℤ, V.IsBitwise → V.RespectsSigns d.vars → V.isTrue t = true := by
  obtain ⟨d, t, masked, hd, ht, hmasked, hfindings, hterms, hsigned⟩ : ∃ d t masked,
      Draft.performAll? { file := "main.c" } signedWithin = some d ∧ t ∈ d.finish.listing ∧
        t.literalTest? = some (masked, .ge, 4) ∧
        Check.maskedComparison.findingsAt {} d.finish {} (d.finish.placeOf t) =
          [.constantMaskTest (d.finish.placeOf masked) ⟨.or, 4, .ge, 4⟩ true] ∧
        (∀ s ∈ masked.chain (.arith .bitOr), s.isTerm = true) ∧
        ¬∀ s ∈ masked.chain (.arith .bitOr), s.isNonnegativeTerm = true :=
    ⟨_, _, _, rfl, List.mem_of_getElem? (i := 0) rfl, rfl, rfl, by decide, by decide⟩
  have hf : .constantMaskTest (d.finish.placeOf masked) ⟨.or, 4, .ge, 4⟩ true ∈
      Check.maskedComparison.findingsAt {} d.finish {} (d.finish.placeOf t) := by simp [hfindings]
  refine ⟨d, hd, t, ht, _, hf, rfl, ?_⟩
  obtain ⟨masked', test, truth, htest, -, heq, -, hright⟩ := masked_comparisons_right_iff hd ht hf
  obtain ⟨hplace, rfl, rfl⟩ := Finding.constantMaskTest.inj heq
  obtain rfl : masked = masked' := congrArg Place.tree hplace
  rw [hright hterms]
  exact fun hnonneg => hsigned (hnonneg rfl rfl)

end ConditionLint
