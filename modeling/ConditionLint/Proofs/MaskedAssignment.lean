import ConditionLint.Proofs.EarlyExit
import ConditionLint.Proofs.Tracking
import ConditionLint.Proofs.TwosComplement

/-!
# Reports on masked assignments

A masked assignment leaves the variable with a value that its mask allows. As long as the variable keeps such a
value, a comparison with a value that is not allowed has a fixed outcome, and masking with other bits gives zero.
Each report is about a node that the trail of the assignment reaches, so that it is right in every run, unless a
block between the two hides a change.

For a `case`, a `default` or a label the trail does not end. A report behind one holds for the control flow that
falls through from the assignment.
-/

namespace ConditionLint

open ConditionLint.Tree

namespace Tree

/-- Whether only a name refers to a variable. -/
def refersByName (t : Tree) : Bool := t.referent.isNone || t.isIdentifier

variable {p : Tree → Bool} {t : Tree}

/-- An integer literal is pure, and its value is the number that it spells. -/
theorem Expression.of_spelledNumber? (h : t.Expression p) {k : ℤ} (hk : t.spelledNumber? = some k) :
    t.Pure p ∧ ∀ V : Valuation ℤ, V.eval t = k := by
  refine ⟨?_, fun V => V.eval_of_spelledNumber? hk⟩
  rcases h.pure_or_operator with h | ⟨op, hkind⟩ | ⟨op, hkind⟩ | hkind
  · exact h
  · simp [spelledNumber?, hkind] at hk
  · simp [spelledNumber?, hkind] at hk
  · simp [spelledNumber?, hkind] at hk

/-- A statement made by a binary operator is an expression. -/
theorem Statement.expression_of_binary (h : t.Statement p) {op : BinaryOp} (hkind : t.kind = .binary op) :
    t.Expression p := by
  cases h with
  | expression h => exact h
  | _ => simp_all [kind, label]

/-- What refers to a variable is pure, and its value is that of the variable. -/
theorem Expression.of_varId? (h : t.Expression refersByName) {x : VarId} (hx : t.varId? = some x) :
    t.Pure refersByName ∧ ∀ (V : Valuation ℤ) σ, (V.under σ).eval t = σ x := by
  obtain ⟨y, hreferent, rfl⟩ := Option.map_eq_some_iff.mp hx
  have hname : t.isIdentifier = true := by simpa [refersByName, hreferent] using h.node_holds
  rcases h.pure_or_operator with h | ⟨op, hkind⟩ | ⟨op, hkind⟩ | hkind
  · refine ⟨h, fun V σ => ?_⟩
    cases h with
    | reference _ hkind hreferent' =>
      rw [Valuation.eval_variable _ hkind hreferent']
      simp_all [referent, label]
    | _ => simp_all [isIdentifier, referent, kind, label]
  · simp [isIdentifier, hkind] at hname
  · simp [isIdentifier, hkind] at hname
  · simp [isIdentifier, hkind] at hname

end Tree

/-- The bitwise operators mean what they do on integers in two's complement. -/
structure Valuation.IsBitwise (V : Valuation ℤ) : Prop where
  bitAnd : V.arith .bitAnd = TwosComplement.and
  bitOr : V.arith .bitOr = TwosComplement.or

namespace MaskedAssignment

variable {a : MaskedAssignment} {V : Valuation ℤ}

/-- The value of the operation is allowed when one of its operands is the mask. -/
theorem allows_arith (hV : V.IsBitwise) {x y : ℤ} (h : x = a.mask ∨ y = a.mask) :
    a.allows (V.arith a.op.toArith x y) = true := by
  have hleft (y : ℤ) : a.allows (V.arith a.op.toArith a.mask y) = true := by
    cases hop : a.op with
    | and => simp [allows, hop, MaskOp.toArith, hV.bitAnd, TwosComplement.and_and_self]
    | or => simp [allows, hop, MaskOp.toArith, hV.bitOr, TwosComplement.and_or_self]
  rcases h with rfl | rfl
  · exact hleft y
  · rw [V.arith_comm _ _ _ (by cases a.op <;> rfl)]
    exact hleft x

section Values

variable {r x y : Tree} {k : ℤ}

/-- A node that masks the variable does so by `&` or by `&=`. -/
theorem of_usedMask? (h : a.usedMask? r = some k) :
    ∃ l x y, a.isTarget x = true ∧ y.spelledNumber? = some k ∧
      (l.kind = .binary (.update .bitAnd) ∧ r = node l [x, y] ∨
        l.kind = .binary (.arith .bitAnd) ∧ (r = node l [x, y] ∨ r = node l [y, x])) := by
  unfold usedMask? at h
  split at h
  · next x y hbinary =>
    obtain ⟨l, rfl, hkind⟩ := eq_node_of_binary? hbinary
    split at h
    · next htarget => exact ⟨l, x, y, htarget, h, Or.inl ⟨hkind, rfl⟩⟩
    · contradiction
  · next x y hbinary =>
    obtain ⟨l, rfl, hkind⟩ := eq_node_of_binary? hbinary
    split at h
    · next htarget => exact ⟨l, x, y, htarget, h, Or.inr ⟨hkind, Or.inl rfl⟩⟩
    · split at h
      · next htarget => exact ⟨l, y, x, htarget, h, Or.inr ⟨hkind, Or.inr rfl⟩⟩
      · contradiction
  · contradiction

/-- A comparison of the variable has a constant on the other side. -/
theorem of_comparedWith? {side : Tree} (h : a.comparedWith? x y = some (side, k)) :
    a.isTarget x = true ∧ y.spelledNumber? = some k ∨ a.isTarget y = true ∧ x.spelledNumber? = some k := by
  unfold comparedWith? at h
  split at h
  · next htarget =>
    obtain ⟨value, hvalue, heq⟩ := Option.map_eq_some_iff.mp h
    simp_all
  · split at h
    · next htarget =>
      obtain ⟨value, hvalue, heq⟩ := Option.map_eq_some_iff.mp h
      simp_all
    · contradiction

/-- The variable and a number are pure, with their values. -/
theorem eval_target_and_number (hx : x.Expression refersByName) (hy : y.Expression refersByName)
    (htarget : a.isTarget x = true) (hnumber : y.spelledNumber? = some k) (V : Valuation ℤ) (σ : VarId → ℤ) :
    (x.Pure refersByName ∧ (V.under σ).eval x = σ a.target.id) ∧
      y.Pure refersByName ∧ (V.under σ).eval y = k := by
  obtain ⟨hxpure, hxvalue⟩ := hx.of_varId? (of_decide_eq_true htarget)
  obtain ⟨hypure, hyvalue⟩ := hy.of_spelledNumber? hnumber
  exact ⟨⟨hxpure, hxvalue V σ⟩, hypure, hyvalue _⟩

/-- A node that masks the variable with bits which the assigned mask has cleared is zero. -/
theorem evaluate_of_usedMask? (hV : V.IsBitwise) (hr : r.Expression refersByName)
    (hused : a.usedMask? r = some k) (hop : a.op = .and) (hdisjoint : TwosComplement.and a.mask k = 0)
    {m : Machine} (hm : a.allows (m.vars a.target.id) = true) : (V.evaluate r m).1 = 0 := by
  have hzero : TwosComplement.and (m.vars a.target.id) k = 0 :=
    TwosComplement.and_eq_zero_of_disjoint (by simpa [allows, hop] using hm) hdisjoint
  obtain ⟨l, x, y, htarget, hnumber, hcases⟩ := of_usedMask? hused
  obtain ⟨hx, hy⟩ : x.Expression refersByName ∧ y.Expression refersByName := by
    rcases hcases with ⟨-, rfl⟩ | ⟨-, rfl | rfl⟩ <;>
      exact ⟨hr.operand (by simp [operands]), hr.operand (by simp [operands])⟩
  obtain ⟨⟨hxpure, hxvalue⟩, hypure, hyvalue⟩ := eval_target_and_number hx hy htarget hnumber V m.vars
  -- `x &= k` has the value that it stores. The other two are pure.
  rcases hcases with ⟨hkind, rfl⟩ | ⟨hkind, rfl | rfl⟩
  · have hvalue := (V.evaluate_pure hypure m).1
    simp [Valuation.evaluate, recorded, hkind, hxvalue, hvalue, hyvalue, hV.bitAnd, hzero]
  · rw [(V.evaluate_pure (.binary hr.node_holds hkind rfl hxpure hypure) m).1, Valuation.eval_arith _ hkind,
      hxvalue, hyvalue, Valuation.arith_under, hV.bitAnd, hzero]
  · rw [(V.evaluate_pure (.binary hr.node_holds hkind rfl hypure hxpure) m).1, Valuation.eval_arith _ hkind,
      hxvalue, hyvalue, Valuation.arith_under, hV.bitAnd, TwosComplement.and_comm, hzero]

/-- A comparison of the variable with a value that the assignment does not allow finds them different. -/
theorem evaluate_of_comparedWith? {l : Label} {order : Order} {side : Tree}
    (hkind : l.kind = .binary (.compare order)) (hr : (node l [x, y]).Expression refersByName)
    (hequality : order.isEquality = true) (hcompared : a.comparedWith? x y = some (side, k))
    (hruled : a.allows k = false) {m : Machine} (hm : a.allows (m.vars a.target.id) = true) :
    ((V.evaluate (node l [x, y]) m).1 != 0) = decide (order = .ne) := by
  have hne : m.vars a.target.id ≠ k := by
    intro heq
    simp [heq, hruled] at hm
  have hx : x.Expression refersByName := hr.operand (by simp [operands])
  have hy : y.Expression refersByName := hr.operand (by simp [operands])
  obtain ⟨hxpure, hypure, hdiffer⟩ : x.Pure refersByName ∧ y.Pure refersByName ∧
      (V.under m.vars).eval x ≠ (V.under m.vars).eval y := by
    rcases of_comparedWith? hcompared with ⟨htarget, hnumber⟩ | ⟨htarget, hnumber⟩
    · obtain ⟨⟨hxpure, hxvalue⟩, hypure, hyvalue⟩ := eval_target_and_number hx hy htarget hnumber V m.vars
      exact ⟨hxpure, hypure, by rwa [hxvalue, hyvalue]⟩
    · obtain ⟨⟨hypure, hyvalue⟩, hxpure, hxvalue⟩ := eval_target_and_number hy hx htarget hnumber V m.vars
      exact ⟨hxpure, hypure, by rw [hxvalue, hyvalue]; exact hne.symm⟩
  rw [(V.evaluate_pure (.binary hr.node_holds hkind rfl hxpure hypure) m).1]
  refine ((V.under m.vars).isTrue_compare hkind).trans ?_
  cases order <;> simp_all [Order.holds, Order.isEquality]

end Values

/-- A mask operator stands for its arithmetic operator. -/
theorem eq_toArith_of_ofBinary? {op : BinaryOp} {mask : MaskOp} (h : MaskOp.ofBinary? op = some mask) :
    op = .arith mask.toArith := by
  unfold MaskOp.ofBinary? at h
  split at h
  · rw [← Option.some.inj h]; rfl
  · rw [← Option.some.inj h]; rfl
  · contradiction

/-- A name stands for the variable that it refers to. -/
theorem designated?_of_isIdentifier {t : Tree} {v : Variable} (hname : t.isIdentifier = true)
    (hreferent : t.referent = some v) : t.designated? = some v.id := by
  obtain ⟨l, ts⟩ := t
  unfold isIdentifier at hname
  split at hname
  · next hkind =>
    rw [designated?.eq_def]
    simp_all [referent, kind, label]
  · contradiction

/-- A masked assignment stores the result of a bitwise operation with the mask. -/
theorem of_maskedAssignment? {q : Place} (h : q.maskedAssignment? = some a) :
    a.place = q ∧ q.isBlockStatement = true ∧ ∃ l l' target x y,
      q.tree = node l [target, node l' [x, y]] ∧ l.kind = .binary .assign ∧
        target.designated? = some a.target.id ∧ l'.kind = .binary (.arith a.op.toArith) ∧
        (x.spelledNumber? = some a.mask ∨ y.spelledNumber? = some a.mask) := by
  unfold Place.maskedAssignment? at h
  split at h
  · next target value hassign =>
    obtain ⟨l, hnode, hkind⟩ := eq_node_of_binary? hassign
    split at h
    · next hstatement =>
      obtain ⟨hname, hblock⟩ := Bool.and_eq_true_iff.mp hstatement
      split at h
      · next v op x y hreferent hvalue =>
        obtain ⟨l', rfl, hkind'⟩ := eq_node_of_binary? hvalue
        split at h
        · next op' mask hop hmask =>
          split at h
          · contradiction
          · obtain rfl := Option.some.inj h
            refine ⟨rfl, hblock, l, l', target, x, y, hnode, hkind, ?_, ?_, ?_⟩
            · exact designated?_of_isIdentifier hname hreferent
            · rw [hkind', eq_toArith_of_ofBinary? hop]
            · rw [Option.orElse_eq_orElse, Option.orElse_eq_or] at hmask
              rcases Option.or_eq_some_iff.mp hmask with hmask | ⟨-, hmask⟩
              · exact Or.inl hmask
              · exact Or.inr hmask
        · contradiction
      · contradiction
    · contradiction
  · contradiction

/-- A masked assignment leaves a value in the variable that it allows. -/
theorem allows_evaluate (hV : V.IsBitwise) {q : Place} (h : q.maskedAssignment? = some a)
    {p : Tree → Bool} (hq : q.tree.Expression p) (m : Machine) :
    a.allows ((V.evaluate q.tree m).2.vars a.target.id) = true := by
  obtain ⟨-, -, l, l', target, x, y, hnode, hkind, htarget, hkind', hmask⟩ := of_maskedAssignment? h
  rw [hnode] at hq ⊢
  have hvalue : a.allows (V.evaluate (node l' [x, y]) m).1 = true := by
    have hoperation := hq.operand (a := node l' [x, y]) (by simp [operands])
    have hx : x.Expression p := hoperation.operand (by simp [operands])
    have hy : y.Expression p := hoperation.operand (by simp [operands])
    rw [Valuation.evaluate.eq_def]
    simp only [recorded, hkind']
    apply allows_arith hV
    rcases hmask with hmask | hmask
    · obtain ⟨hpure, hnumber⟩ := hx.of_spelledNumber? hmask
      exact Or.inl ((V.evaluate_pure hpure m).1.trans (hnumber _))
    · obtain ⟨hpure, hnumber⟩ := hy.of_spelledNumber? hmask
      exact Or.inr ((V.evaluate_pure hpure _).1.trans (hnumber _))
  have hstored : (V.evaluate (node l [target, node l' [x, y]]) m).2.vars a.target.id =
      (V.evaluate (node l' [x, y]) m).1 := by
    rw [Valuation.evaluate.eq_def]
    simp [recorded, hkind, Machine.storeAt, htarget, Machine.store]
  rwa [hstored]

end MaskedAssignment

/-- The statements after a statement of a block are those behind it. -/
theorem SourceUnit.IsUnshared.following_eq {u : SourceUnit} (h : u.IsUnshared) {t block : Tree}
    (hblock : block ∈ u.listing) (hkind : block.isBlock = true) (hparent : (u.placeOf t).parent? = some block)
    {before behind : List Tree} (hoperands : block.operands = before ++ t :: behind) :
    (u.placeOf t).following = behind := by
  obtain ⟨l, ts⟩ := block
  obtain rfl : ts = before ++ t :: behind := hoperands
  have hfront : ∀ s ∈ before, (s.id != (u.placeOf t).id) = true := by
    intro s hs
    have hid := not_mem_ids_beside (h.isUnshared hblock).operands_nodup (id_mem_ids (mem_subtrees_self t))
      (Or.inl hs)
    exact bne_iff_ne.mpr fun (heq : s.id = t.id) => hid (heq ▸ id_mem_ids (mem_subtrees_self s))
  rw [Place.following, hparent]
  simp only [hkind, if_true, operands]
  rw [List.dropWhile_append_of_pos hfront, List.dropWhile_cons_of_neg (by simp [Place.id, placeOf])]
  rfl

namespace MaskedAssignment

/-- The way from a masked assignment `t` through the statements behind it in a block reaches a node `r`. -/
structure Reaches (a : MaskedAssignment) (u : SourceUnit) (t r block : Tree) (before behind : List Tree) :
    Prop where
  assigned : (u.placeOf t).maskedAssignment? = some a
  listed : block ∈ u.listing
  isBlock : block.isBlock = true
  operands_eq : block.operands = before ++ t :: behind
  reached : ∃ inCondition, (u.placeOf r, inCondition) ∈ (Trail.throughAll u a.target behind).nodes

/-- Each report is about a node that the way from a masked assignment reaches. -/
theorem exists_reaches_of_mem_reports {u : SourceUnit} (hu : u.IsUnshared) {o : Options} {l : Ledger} {f : Finding}
    (hf : f ∈ Check.maskedAssignment.reports o u l) :
    ∃ a t r block before behind, Reaches a u t r block before behind ∧
      (a.disjointMask? (u.placeOf r) = some f ∨ a.ruledOut? (u.placeOf r) = some f) := by
  obtain ⟨_, q, hq, hf⟩ := Check.exists_of_mem_reports hf
  obtain ⟨t, ht, rfl⟩ := SourceUnit.exists_of_mem_scanned hq
  simp only [Check.findingsAt, Place.maskContradictions] at hf
  cases hassigned : (u.placeOf t).maskedAssignment? with
  | none => simp [hassigned] at hf
  | some a =>
    rw [hassigned, Option.map_some, Option.getD_some] at hf
    obtain ⟨hplace, hstatement, -⟩ := of_maskedAssignment? hassigned
    obtain ⟨block, hparent, hkind⟩ := (Option.any_eq_true _ _).mp hstatement
    obtain ⟨hblock, hoperand⟩ := hu.of_parent? ht hparent
    obtain ⟨before, behind, hoperands⟩ := List.append_of_mem hoperand
    obtain ⟨⟨q, c⟩, hnode, hfinding⟩ := List.mem_flatMap.mp hf
    rw [trail, hplace, hu.following_eq hblock hkind hparent hoperands] at hnode
    obtain ⟨front, s, back, rfl, -, hs⟩ := Trail.exists_of_mem_throughAll hnode
    have hwhole : s.IsWhole := (hu.isWhole hblock).of_mem
      ((hu.isWhole hblock).mem_of_operand (by simp [hoperands]))
    obtain ⟨-, hq⟩ := Trail.of_mem_through hwhole hs
    refine ⟨a, t, q.tree, block, before, front ++ s :: back, ⟨hassigned, hblock, hkind, hoperands, c, hq ▸ hnode⟩, ?_⟩
    rw [← hq]
    rcases List.mem_append.mp hfinding with hdisjoint | hruled
    · exact Or.inl (Option.mem_toList.mp hdisjoint)
    · split at hruled
      · exact Or.inr (Option.mem_toList.mp hruled)
      · contradiction

namespace Reaches

variable {a : MaskedAssignment} {u : SourceUnit} {t r block : Tree} {before behind : List Tree}
  (h : a.Reaches u t r block before behind) (hu : u.IsUnshared)
include h hu

/-- What stands in a statement of the block is listed. -/
theorem mem_listing {x s : Tree} (hx : x ∈ block.operands) (hs : s ∈ x.subtrees) : s ∈ u.listing :=
  (SourceUnit.isInfix_listing h.listed).subset
    (mem_subtrees_trans hs ((hu.isWhole h.listed).mem_of_operand hx))

/-- The assignment is listed. -/
theorem assignment_listed : t ∈ u.listing :=
  h.mem_listing hu (by simp [h.operands_eq]) (mem_subtrees_self t)

/-- One of the statements behind the assignment holds the node, and the way does not end in those in front of
it. -/
theorem exists_split : ∃ front s back, behind = front ++ s :: back ∧ r ∈ s.subtrees ∧
    ∀ w ∈ front, (Trail.through u a.target w).ended = false := by
  obtain ⟨c, hnode⟩ := h.reached
  obtain ⟨front, s, back, rfl, hfront, hs⟩ := Trail.exists_of_mem_throughAll hnode
  have hwhole : s.IsWhole := hu.isWhole (h.mem_listing hu (by simp [h.operands_eq]) (mem_subtrees_self s))
  exact ⟨front, s, back, rfl, (Trail.of_mem_through hwhole hs).1, hfront⟩

/-- The node is listed. -/
theorem node_listed : r ∈ u.listing := by
  obtain ⟨front, s, back, rfl, hr, -⟩ := h.exists_split hu
  exact h.mem_listing hu (by simp [h.operands_eq]) hr

/-- What stands behind the assignment in the block is listed after it. -/
theorem end_le {x s : Tree} (hx : x ∈ behind) (hs : s ∈ x.subtrees) : u.position t + t.size ≤ u.position s := by
  obtain ⟨front, back, rfl⟩ := List.append_of_mem hx
  have hoperands : block.operands = (before ++ t :: front) ++ x :: back := by simp [h.operands_eq]
  exact hu.end_le_of_later_operand h.listed hoperands (by simp) (mem_subtrees_self t) hs

/-- What stands behind the assignment in the block and is listed before the node lies between the two. -/
theorem mem_between {x s : Tree} (hx : x ∈ behind) (hs : s ∈ x.subtrees) (hlt : u.position s < u.position r) :
    u.placeOf s ∈ u.between t r := by
  rw [hu.between_eq (h.assignment_listed hu) (h.node_listed hu), hu.placeOf_mem_slice_iff]
  exact ⟨h.mem_listing hu (by simp [h.operands_eq, hx]) hs, h.end_le hu hx hs, hlt⟩

/-- The way does not end in a statement of the block that lies between the assignment and the node and does not
hold the node. -/
theorem ended_of_mem_between {w : Tree} (hw : w ∈ block.operands) (hbetween : u.placeOf w ∈ u.between t r)
    (hr : r ∉ w.subtrees) : (Trail.through u a.target w).ended = false := by
  obtain ⟨front, s, back, rfl, hrs, hfront⟩ := h.exists_split hu
  rw [hu.between_eq (h.assignment_listed hu) (h.node_listed hu), hu.placeOf_mem_slice_iff] at hbetween
  obtain ⟨-, hstart, hend⟩ := hbetween
  have hself := mem_subtrees_self w
  have hsize := w.size_pos
  have htsize := t.size_pos
  have hoperands : block.operands = (before ++ t :: front) ++ s :: back := by simp [h.operands_eq]
  rw [hoperands, List.mem_append, List.mem_append, List.mem_cons, List.mem_cons] at hw
  rcases hw with (hw | rfl | hw) | rfl | hw
  · have := hu.end_le_of_later_operand h.listed h.operands_eq hw hself (mem_subtrees_self t)
    omega
  · omega
  · exact hfront w hw
  · exact absurd hrs hr
  · obtain ⟨back, rest, rfl⟩ := List.append_of_mem hw
    have hoperands : block.operands = (before ++ t :: front ++ s :: back) ++ w :: rest := by simp [h.operands_eq]
    have := hu.end_le_of_later_operand h.listed hoperands (by simp) hrs hself
    omega

/-- The block keeps the forecast about the node that the assignment gives, when no block between the assignment
and the node hides a change. -/
theorem kept_exec {V : Valuation ℤ} (hV : V.IsBitwise) {p : Tree → Bool} (hblock : block.Statement p)
    (hr : r.Expression p) (hopen : ∀ s, u.placeOf s ∈ u.between t r → r ∉ s.subtrees →
      u.hidesChange a.target s = false)
    {f : Forecast V} (hsubject : f.subject = r) (hreads : ∀ x, f.reads x → x = a.target.id)
    (hknown : ∀ σ, a.allows (σ a.target.id) = true → f.known σ) {n : Nat} {m : Machine} (hm : f.Kept m) :
    f.Kept (V.exec n block m).2 := by
  obtain ⟨c, hnode⟩ := h.reached
  obtain ⟨front, s, back, hbehind, hrs, -⟩ := h.exists_split hu
  obtain ⟨l, ts⟩ := block
  obtain rfl : ts = before ++ t :: behind := h.operands_eq
  subst hsubject
  have hkind : l.kind = .block := of_decide_eq_true h.isBlock
  have hdistinct := (hu.isUnshared h.listed).operands_nodup
  have hmember {x : Tree} (hx : x ∈ before ++ t :: behind) : x.Statement p ∧ x.IsWhole :=
    ⟨hblock.operand hx, (hu.isWhole h.listed).operand hx⟩
  have hfront {x : Tree} (hx : x ∈ before ++ t :: front) : f.subject.id ∉ x.ids := by
    have hdistinct : ((before ++ t :: front ++ s :: back).flatMap ids).Nodup := by
      simpa [hbehind] using hdistinct
    exact not_mem_ids_beside hdistinct (id_mem_ids hrs) (Or.inl hx)
  have hassignment : t.Expression p := by
    obtain ⟨-, -, l, _, _, _, _, htree, hassign, -⟩ := of_maskedAssignment? h.assigned
    have hkind : t.kind = .binary .assign := (congrArg kind htree).trans hassign
    exact (hmember (by simp)).1.expression_of_binary hkind
  rw [V.exec_block n m hkind, Valuation.execAll_append]
  refine andThen_of (P := f.Kept) (Valuation.execAll_of (fun x hx m hm => ?_) hm) (fun h => h) fun m hm => ?_
  · have hx' : x ∈ before ++ t :: behind := List.mem_append_left _ hx
    exact (Forecast.stable_kept (hmember hx').2 (hfront (List.mem_append_left _ hx))).exec (hmember hx').1 hm
  -- The assignment gives the knowledge, with which the way begins.
  have hvalid : f.Valid (V.exec n t m).2 := by
    rw [V.exec_expression n m hassignment]
    refine ⟨hknown _ (allows_evaluate hV h.assigned hassignment m), ?_⟩
    exact (Forecast.stable_kept (hmember (by simp)).2 (hfront (by simp))).evaluate hm
  refine andThen_of hvalid (fun h => h.2) fun m hm => ?_
  have hrest : (behind.flatMap ids).Nodup := by
    rw [List.flatMap_append, List.flatMap_cons] at hdistinct
    exact hdistinct.of_append_right.of_append_right
  refine Trail.kept_execAll hreads (fun x hx => hmember (by simp [hx])) hrest (fun passed x rest heq hx y hy s hs => ?_)
    (fun x hx hnode m hm => ?_) hnode hm
  · have hoperands : (node l (before ++ t :: behind)).operands = (before ++ t :: passed) ++ x :: rest := by
      simp [operands, heq]
    have hend := hu.end_le_of_later_operand h.listed hoperands (a := y) (by simp [hy]) hs hx
    have hy : y ∈ behind := by simp [heq, hy]
    have hlisted := h.mem_listing hu (x := y) (by simp [operands, hy]) hs
    have hsize := s.size_pos
    exact hopen s (h.mem_between hu hy hs (by omega)) (hu.not_mem_subtrees_of_end_le hlisted hend)
  · have hlisted := h.mem_listing hu (x := x) (by simp [operands, hx]) (mem_subtrees_self x)
    exact Trail.kept_exec hreads hu (hmember (by simp [hx])).1 hlisted hr
      (fun s hs hlt hnot => hopen s (h.mem_between hu hx hs hlt) hnot) hnode hm

end Reaches

section Findings

variable {a : MaskedAssignment} {q : Place} {f : Finding}

/-- A finding on disjoint masks comes from a node that masks the variable. -/
theorem of_disjointMask? (h : a.disjointMask? q = some f) :
    ∃ used, f = .disjointMasks a.place q a.mask used ∧ a.op = .and ∧ a.usedMask? q.tree = some used ∧
      TwosComplement.and a.mask used = 0 := by
  unfold disjointMask? at h
  split at h
  · next used hop hused =>
    split at h
    · next hdisjoint => exact ⟨used, (Option.some.inj h).symm, hop, hused, hdisjoint⟩
    · contradiction
  · contradiction

/-- A finding on a value that is ruled out comes from a comparison of the variable with it. -/
theorem of_ruledOut? (h : a.ruledOut? q = some f) :
    ∃ l x y side order value, f = .ruledOutByMask a.place q side order value ∧ q.tree = node l [x, y] ∧
      l.kind = .binary (.compare order) ∧ order.isEquality = true ∧ a.comparedWith? x y = some (side, value) ∧
      a.allows value = false := by
  unfold ruledOut? at h
  split at h
  · next order x y hcomparison =>
    obtain ⟨l, hnode, hkind⟩ := eq_node_of_comparison? hcomparison
    split at h
    · next hcondition =>
      obtain ⟨⟨side, value⟩, hcompared, h⟩ := Option.bind_eq_some_iff.mp h
      dsimp only at h
      split at h
      · next hruled =>
        simp only [Bool.and_eq_true, Bool.not_eq_true'] at hcondition hruled
        exact ⟨l, x, y, side, order, value, (Option.some.inj h).symm, hnode, hkind, hcondition.1, hcompared,
          hruled.2⟩
      · contradiction
    · contradiction
  · contradiction

end Findings

end MaskedAssignment

/-- In every run of a body under two's complement, all values of a node satisfy a condition. -/
def Tree.AlwaysYields (body : Tree) (i : NodeId) (holds : ℤ → Prop) : Prop :=
  ∀ V : Valuation ℤ, V.IsBitwise → ∀ n σ, ∀ e ∈ (V.exec n body ⟨σ, []⟩).2.log, e.1 = i → holds e.2

/-- The assignment and the node that a finding on an assigned mask is about. -/
def Finding.contradiction? : Finding → Option (Place × Place)
  | ruledOutByMask assignment comparison _ _ _ => some (assignment, comparison)
  | disjointMasks assignment use _ _ => some (assignment, use)
  | _ => none

namespace MaskedAssignment

/-- A finding at a node that a masked assignment reaches is about the two. -/
theorem Reaches.contradiction?_eq {a : MaskedAssignment} {u : SourceUnit} {t r block : Tree}
    {before behind : List Tree} (h : a.Reaches u t r block before behind) {f : Finding}
    (hf : a.disjointMask? (u.placeOf r) = some f ∨ a.ruledOut? (u.placeOf r) = some f) :
    f.contradiction? = some (u.placeOf t, u.placeOf r) := by
  rw [← (of_maskedAssignment? h.assigned).1]
  rcases hf with hdisjoint | hruled
  · obtain ⟨used, rfl, -⟩ := of_disjointMask? hdisjoint
    rfl
  · obtain ⟨l, x, y, side, order, value, rfl, -⟩ := of_ruledOut? hruled
    rfl

/-- In a body, a node that a masked assignment reaches always has the truth value that follows from the
assignment, when no block between the two hides a change. -/
theorem Reaches.alwaysYields {a : MaskedAssignment} {u : SourceUnit} {t r block : Tree} {before behind : List Tree}
    (h : a.Reaches u t r block before behind) (hu : u.IsUnshared) {body : Tree} (hstart : body ∈ u.starts)
    {p : Tree → Bool} (hbody : body.Statement p)
    (hopen : ∀ s, u.placeOf s ∈ u.between t r → r ∉ s.subtrees → u.hidesChange a.target s = false)
    {op : BinaryOp} (hkind : r.kind = .binary op) {truth : Bool}
    (hright : r.Expression p → ∀ V : Valuation ℤ, V.IsBitwise → ∀ m : Machine,
      a.allows (m.vars a.target.id) = true → ((V.evaluate r m).1 != 0) = truth) :
    body.AlwaysYields r.id fun x => (x != 0) = truth := by
  intro V hV n σ
  obtain ⟨front, s, back, rfl, hrs, -⟩ := h.exists_split hu
  have hrblock : r ∈ block.subtrees :=
    mem_subtrees_trans hrs ((hu.isWhole h.listed).mem_of_operand (by simp [h.operands_eq]))
  -- A body without the node says nothing about it. One with the node has the whole block.
  by_cases hid : r.id ∈ body.ids
  · have hblock := hu.mem_of_common hstart h.listed hrblock hid
    have hr := (hbody.of_mem (mem_subtrees_trans hrblock hblock)).expression_of_binary hkind
    let f : Forecast V :=
      { reads := fun x => x = a.target.id
        known := fun σ => a.allows (σ a.target.id) = true
        known_congr := fun σ τ hagree hσ => by rwa [← hagree _ rfl]
        subject := r
        truth := truth
        right := hright hr V hV }
    have hnot : ¬block.Expression p := fun hblock => hblock.kind_spec.2.1 (of_decide_eq_true h.isBlock)
    refine Forecast.kept_exec_of_part (f := f) hbody (hu.isUnshared (SourceUnit.mem_listing_of_mem_starts hstart))
      hblock hnot hrblock (fun m hm => ?_) fun e he => absurd he List.not_mem_nil
    exact h.kept_exec hu hV (hbody.of_mem hblock) hr hopen rfl (fun x hx => hx) (fun σ hσ => hσ) hm
  · exact (Valuation.Stable.logs (hu.whole body hstart) hid truth).exec hbody
      fun e he => absurd he List.not_mem_nil

end MaskedAssignment

/-- Over programs with integer variables whose bitwise operators work in two's complement, the reports on masked
assignments are right in every run: a comparison always has the reported truth value, and a masked variable is
always zero. A report may be wrong only when a block between the assignment and the node hides a change. -/
theorem mask_reports_right {u : SourceUnit} (hu : u.IsUnshared) {body : Tree} (hstart : body ∈ u.starts)
    (hbody : body.Statement refersByName) {o : Options} {l : Ledger} {f : Finding}
    (hf : f ∈ Check.maskedAssignment.reports o u l) :
    ∃ t r a, f.contradiction? = some (u.placeOf t, u.placeOf r) ∧ (u.placeOf t).maskedAssignment? = some a ∧
      ((∀ s, u.placeOf s ∈ u.between t r → r ∉ s.subtrees → u.hidesChange a.target s = false) →
        (f.diagnostic u).rule = "assignIfError" ∧
            (∃ text truth, (f.diagnostic u).message = "Mismatching assignment and comparison, comparison " ++
              quoted text ++ " is always " ++ truthText truth ++ "." ∧
                body.AlwaysYields r.id fun x => (x != 0) = truth) ∨
          (f.diagnostic u).rule = "mismatchingBitAnd" ∧ body.AlwaysYields r.id fun x => x = 0) := by
  obtain ⟨a, t, r, block, before, behind, h, hfinding⟩ := MaskedAssignment.exists_reaches_of_mem_reports hu hf
  refine ⟨t, r, a, h.contradiction?_eq hfinding, h.assigned, fun hopen => ?_⟩
  rcases hfinding with hdisjoint | hruled
  · obtain ⟨used, rfl, hop, hused, hdisjoint⟩ := MaskedAssignment.of_disjointMask? hdisjoint
    refine Or.inr ⟨rfl, ?_⟩
    have hkind : ∃ op, r.kind = .binary op := by
      obtain ⟨l, x, y, -, -, ⟨hkind, heq⟩ | ⟨hkind, heq | heq⟩⟩ := MaskedAssignment.of_usedMask? hused <;>
        exact ⟨_, (congrArg kind heq).trans hkind⟩
    obtain ⟨op, hkind⟩ := hkind
    have hzero : body.AlwaysYields r.id fun x => (x != 0) = false :=
      h.alwaysYields hu hstart hbody hopen hkind fun hr V hV m hm => by
        rw [MaskedAssignment.evaluate_of_usedMask? hV hr hused hop hdisjoint hm]
        rfl
    intro V hV n σ e he hid
    simpa using hzero V hV n σ e he hid
  · obtain ⟨l, x, y, side, order, value, rfl, hnode, hkind, hequality, hcompared, hvalue⟩ :=
      MaskedAssignment.of_ruledOut? hruled
    refine Or.inl ⟨rfl, _, _, rfl, ?_⟩
    obtain rfl : r = node l [x, y] := hnode
    exact h.alwaysYields hu hstart hbody hopen hkind fun hr V hV m hm =>
      MaskedAssignment.evaluate_of_comparedWith? hkind hr hequality hcompared hvalue hm

/-- Integers with the bitwise operators of two's complement, where every other operation gives zero. -/
def Valuation.bitwise : Valuation ℤ where
  var _ := 0
  unary _ _ := 0
  arith op x y :=
    match op with
    | .bitAnd => TwosComplement.and x y
    | .bitOr => TwosComplement.or x y
    | _ => 0
  arith_comm op x y _ := by
    cases op with
    | bitAnd => exact TwosComplement.and_comm x y
    | bitOr => exact TwosComplement.or_comm x y
    | _ => rfl
  other _ := 0

/-- An assignment to `x`. -/
def Tree.assignX (id : NodeId) (value : Tree) : Tree :=
  plain id (.binary .assign) .int none [ofVariable (id + 1) (.onStack 0 "x" .int), value]

/-- The statement `x = a & 4`. -/
def Tree.maskX (id : NodeId) : Tree :=
  assignX id (plain (id + 2) (.binary (.arith .bitAnd)) .int none
    [ofVariable (id + 3) (.onStack 1 "a" .int), ofInt (id + 4) 4])

/-- `{ x = a & 4; if (x == 3) {} if (a) { {} x = 3; } if (x == 3) {} }` -/
def hiddenChange : Tree :=
  ofStatement 0 .block
    [maskX 1,
      ofIf 6 (compareX 7 .eq 3) (ofStatement 10 .block []),
      ofIf 11 (ofVariable 12 (.onStack 1 "a" .int))
        (ofStatement 13 .block [ofStatement 14 .block [], assignX 15 (ofInt 17 3)]),
      ofIf 18 (compareX 19 .eq 3) (ofStatement 22 .block [])]

/-- The first report on the assignment is right: with the value that was assigned, `x` is never 3. The second one
is wrong: in a run with `a = 1` the nested block hides that `x` becomes 3, and the comparison is true. -/
theorem mask_reports_right_hiddenChange :
    let u := SourceUnit.ofTree hiddenChange
    (∃ f ∈ Check.maskedAssignment.reports {} u {},
        f.contradiction? = some (u.placeOf (maskX 1), u.placeOf (compareX 7 .eq 3)) ∧
          ∃ text truth, (f.diagnostic u).message = "Mismatching assignment and comparison, comparison " ++
            quoted text ++ " is always " ++ truthText truth ++ "." ∧
              hiddenChange.AlwaysYields 7 fun x => (x != 0) = truth) ∧
      ∃ f ∈ Check.maskedAssignment.reports {} u {},
        f.contradiction? = some (u.placeOf (maskX 1), u.placeOf (compareX 19 .eq 3)) ∧
          (f.diagnostic u).message =
            "Mismatching assignment and comparison, comparison 'x == 3' is always false." ∧
          (19, 1) ∈ (Valuation.bitwise.exec 1 hiddenChange ⟨fun _ => 1, []⟩).2.log := by
  intro u
  have hu : u.IsUnshared := SourceUnit.isUnshared_ofTree (by decide) (by decide)
  have hstart : hiddenChange ∈ u.starts := List.mem_singleton_self hiddenChange
  have hbody : hiddenChange.Statement refersByName := by decide
  obtain ⟨first, second, hreports, hfirst, hsecond, hrule, hmessage⟩ : ∃ first second : Finding,
      Check.maskedAssignment.reports {} u {} = [first, second] ∧
        first.contradiction? = some (u.placeOf (maskX 1), u.placeOf (compareX 7 .eq 3)) ∧
        second.contradiction? = some (u.placeOf (maskX 1), u.placeOf (compareX 19 .eq 3)) ∧
        (first.diagnostic u).rule = "assignIfError" ∧ (second.diagnostic u).message =
          "Mismatching assignment and comparison, comparison 'x == 3' is always false." :=
    ⟨_, _, rfl, rfl, rfl, rfl, rfl⟩
  have hf : first ∈ Check.maskedAssignment.reports {} u {} := by simp [hreports]
  have hf' : second ∈ Check.maskedAssignment.reports {} u {} := by simp [hreports]
  refine ⟨⟨first, hf, hfirst, ?_⟩, second, hf', hsecond, hmessage, by decide⟩
  obtain ⟨t, r, a, hpair, hassigned, hright⟩ := mask_reports_right hu hstart hbody hf
  rw [hfirst, Option.some.injEq, Prod.mk.injEq] at hpair
  obtain rfl : maskX 1 = t := congrArg Place.tree hpair.1
  obtain rfl : compareX 7 .eq 3 = r := congrArg Place.tree hpair.2
  have htarget : a.target = .onStack 0 "x" .int :=
    (congrArg MaskedAssignment.target (Option.some.inj hassigned)).symm
  have hopen : ∀ q ∈ u.between (maskX 1) (compareX 7 .eq 3),
      u.hidesChange (.onStack 0 "x" .int) q.tree = false := by decide
  rcases hright fun s hs _ => htarget ▸ hopen (u.placeOf s) hs with ⟨-, hyields⟩ | ⟨hother, -⟩
  · exact hyields
  · exact absurd (hrule.symm.trans hother) (by decide)

/-- The finding is about a masked assignment in a block and a node behind it. Among the statements of the block
between them there is no jump and no block, and nothing but an `if` may change the variable. -/
def SourceUnit.FallsThrough (u : SourceUnit) (f : Finding) : Prop :=
  ∃ block t r a, f.contradiction? = some (u.placeOf t, u.placeOf r) ∧ block ∈ u.listing ∧
    block.isBlock = true ∧ t ∈ block.operands ∧ (u.placeOf t).maskedAssignment? = some a ∧
    u.position t + t.size ≤ u.position r ∧
    ∀ w ∈ block.operands, u.placeOf w ∈ u.between t r → r ∉ w.subtrees →
      w.keyword?.any Keyword.isJump = false ∧ w.isBlock = false ∧
        (w.isIf = false → u.changesVariableWithin a.target w = false)

/-- The control flow may fall through from a masked assignment to a node that is reported. Whether it may also come
from elsewhere plays no role. -/
theorem mask_reports_fall_through {u : SourceUnit} (hu : u.IsUnshared) {o : Options} {l : Ledger} {f : Finding}
    (hf : f ∈ Check.maskedAssignment.reports o u l) : u.FallsThrough f := by
  obtain ⟨a, t, r, block, before, behind, h, hfinding⟩ := MaskedAssignment.exists_reaches_of_mem_reports hu hf
  obtain ⟨front, s, back, rfl, hrs, -⟩ := h.exists_split hu
  refine ⟨block, t, r, a, h.contradiction?_eq hfinding, h.listed, h.isBlock, by simp [h.operands_eq], h.assigned,
    h.end_le hu (by simp) hrs, fun w hw hbetween hr => ?_⟩
  exact Trail.of_ended_eq_false (h.ended_of_mem_between hu hw hbetween hr)

/-- `{ case 1: x = a & 4; case 2: if (x == 3) {} }` -/
def maskedCases : Tree :=
  ofStatement 2 .block
    [ofStatement 3 (.keyword .caseLabel) [ofInt 4 1],
      maskX 5,
      ofStatement 10 (.keyword .caseLabel) [ofInt 11 2],
      ofIf 12 (compareX 13 .eq 3) (ofStatement 16 .block [])]

/-- The `switch` over the cases. -/
def maskedSwitch : Tree :=
  ofStatement 0 (.keyword .switchStmt) [ofVariable 1 (.onStack 2 "y" .int), maskedCases]

/-- The comparison is reported although the `switch` may enter at the second `case`, a statement of the same
block. The control flow that comes from the assignment falls through to it. -/
theorem mask_reports_fall_through_maskedSwitch :
    let u := SourceUnit.ofTree maskedSwitch
    (maskX 5 ∈ maskedCases.operands ∧ ∃ w ∈ maskedCases.operands, w.isJumpTarget = true ∧
        u.placeOf w ∈ u.between (maskX 5) (compareX 13 .eq 3)) ∧
      ∃ f ∈ Check.maskedAssignment.reports {} u {}, (f.diagnostic u).rule = "assignIfError" ∧
        f.contradiction? = some (u.placeOf (maskX 5), u.placeOf (compareX 13 .eq 3)) ∧ u.FallsThrough f := by
  intro u
  have hu : u.IsUnshared := SourceUnit.isUnshared_ofTree (by decide) (by decide)
  obtain ⟨f, hreports, hrule, hpair⟩ : ∃ f : Finding, Check.maskedAssignment.reports {} u {} = [f] ∧
      (f.diagnostic u).rule = "assignIfError" ∧
      f.contradiction? = some (u.placeOf (maskX 5), u.placeOf (compareX 13 .eq 3)) := ⟨_, rfl, rfl, rfl⟩
  have hf : f ∈ Check.maskedAssignment.reports {} u {} := by simp [hreports]
  refine ⟨⟨List.mem_of_getElem? (i := 1) rfl, _, List.mem_of_getElem? (i := 2) rfl, rfl, ?_⟩, f, hf, hrule, hpair,
    mask_reports_fall_through hu hf⟩
  exact List.mem_of_getElem? (i := 0) rfl

end ConditionLint
