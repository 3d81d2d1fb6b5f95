import ConditionLint.Proofs.Following
import ConditionLint.Proofs.Scope

/-!
# Jump targets behind an early exit

Behind an `if` that leaves at once, its condition is false for the control flow that came through the `if`.
At a label, at a `case` or at a `default` the control flow may come from elsewhere. A report on a condition
behind the `if` crosses no label and no `case` of the same block. It may cross a `default`, and this is the
only kind of jump target that it may cross.
-/

namespace ConditionLint

open ConditionLint.Tree

namespace Tree

/-- Whether the control flow may come to the statement from elsewhere. -/
def isJumpTarget (t : Tree) : Bool :=
  t.isLabel || t.keyword? = some .caseLabel || t.keyword? = some .defaultLabel

/-- A statement that tests a condition is no jump target. -/
theorem isJumpTarget_of_tested? {s c : Tree} (h : s.tested? = some c) : s.isJumpTarget = false := by
  rcases keyword?_of_tested? h with ⟨_, hkeyword⟩ | hkeyword
  · simp [isJumpTarget, isLabel, hkeyword]
  · simp [isJumpTarget, isLabel, hkeyword]

/-- A statement with a keyword is no block. -/
theorem isBlock_of_keyword? {t : Tree} {word : Keyword} (h : t.keyword? = some word) : t.isBlock = false := by
  simp [isBlock, kind_of_keyword? h]

/-- An `if` is no block. -/
theorem isBlock_of_isIf {t : Tree} (h : t.isIf = true) : t.isBlock = false := by
  unfold isIf at h
  split at h
  · next hkind => simp [isBlock, hkind]
  · contradiction

/-- A jump target has a keyword. -/
theorem keyword?_of_isJumpTarget {t : Tree} (h : t.isJumpTarget = true) : ∃ word, t.keyword? = some word := by
  cases hkeyword : t.keyword? with
  | none => simp [isJumpTarget, isLabel, hkeyword] at h
  | some word => exact ⟨word, rfl⟩

/-- A statement that tests a condition is no block. -/
theorem isBlock_of_tested? {s c : Tree} (h : s.tested? = some c) : s.isBlock = false := by
  rcases keyword?_of_tested? h with ⟨_, hkeyword⟩ | hkeyword
  · exact isBlock_of_keyword? hkeyword
  · exact isBlock_of_keyword? hkeyword

end Tree

/-- A jump target in the scope of the jumps that count ends what is known, unless it is a `default`. -/
theorem Dependence.keyword?_of_endsAt {d : Dependence} {u : SourceUnit} {scope : Nat} {w : Tree}
    (h : d.endsAt u scope w = false) (hscope : u.scopeOf w = scope) (htarget : w.isJumpTarget = true) :
    w.keyword? = some .defaultLabel := by
  simp only [endsAt, endsList, hscope, Bool.or_eq_false_iff, Bool.and_eq_false_iff, decide_eq_false_iff_not]
    at h
  obtain ⟨⟨⟨-, hcase⟩, hlabel⟩, -⟩ := h
  simp only [isJumpTarget, hlabel, Bool.false_or, Bool.or_eq_true, decide_eq_true_eq] at htarget
  exact htarget.resolve_left fun hkeyword => by simp [hkeyword] at hcase

/-- Statements of one block that are no blocks themselves lie in the same scope. -/
theorem SourceUnit.IsUnshared.scopeOf_statement {u : SourceUnit} (h : u.IsUnshared) {block s t : Tree}
    (hlisted : block ∈ u.listing) (hblock : block.isBlock = true) (hs : s ∈ block.operands)
    (ht : t ∈ block.operands) (hsblock : s.isBlock = false) (htblock : t.isBlock = false) :
    u.scopeOf s = u.scopeOf t := by
  have hkind : block.kind = .block := of_decide_eq_true hblock
  have hscope {r : Tree} (hr : r ∈ block.operands) (hrblock : r.isBlock = false) :
      u.scopeOf r = u.scopeOf block := by
    obtain ⟨i, hi⟩ := List.mem_iff_getElem?.mp hr
    exact h.scopeOf_operand hlisted hi (by simp [opens?, hkind, hrblock])
  rw [hscope hs hsblock, hscope ht htblock]

/-- The finding is about the condition of an `if` in a block and a condition behind it, and a jump target of the block
that lies between them is a `default`. -/
def SourceUnit.CrossesOnlyDefault (u : SourceUnit) (f : Finding) : Prop :=
  ∃ t c block leaf, f.subjects = [u.placeOf c, u.placeOf leaf] ∧ t ∈ u.listing ∧ t.isIf = true ∧
    t.condition? = some c ∧ block ∈ u.listing ∧ block.isBlock = true ∧ t ∈ block.operands ∧
    ∀ w ∈ block.operands, u.placeOf w ∈ u.between t leaf → w.isJumpTarget = true →
      w.keyword? = some .defaultLabel

/-- A report on a condition behind an early exit crosses no jump target of the block other than a `default`. -/
theorem exit_reports_cross_only_default {u : SourceUnit} (hu : u.IsUnshared) {o : Options} {l : Ledger}
    {f : Finding} (hf : f ∈ Check.innerCondition.reports o u l)
    (hrule : (f.diagnostic u).rule = "identicalConditionAfterEarlyExit") : u.CrossesOnlyDefault f := by
  obtain ⟨t, c, b, d, hg, hinside | hbehind⟩ := SourceUnit.exists_guards_of_mem_reports hf
  · obtain ⟨_, _, _, _, _, _, _, ⟨rfl, -⟩ | rfl⟩ := hg.exists_meets_inside hu hinside <;>
      simp [Finding.diagnostic, Finding.rule] at hrule
  obtain ⟨block, m, s, second, leaf, -, hblock, ht, hkind, hif, hm, hleaf, rfl⟩ :=
    hg.exists_meets_behind hu hbehind
  refine ⟨t, c, block, leaf, rfl, hg.listed, hif, hg.condition, hblock, hkind, ht, ?_⟩
  intro w hw hbetween htarget
  have hlisted {r s : Tree} (hs : s ∈ u.listing) (hr : r ∈ s.subtrees) : r ∈ u.listing :=
    (SourceUnit.isInfix_listing hs).subset hr
  have hleafs : leaf ∈ s.subtrees := mem_subtrees_trans hleaf (hm.mem_subtrees hu)
  have hwlisted : w ∈ u.listing := hlisted hblock ((hu.isWhole hblock).mem_of_operand hw)
  rw [hu.between_eq hg.listed (hlisted hm.listed hleafs), hu.placeOf_mem_slice_iff] at hbetween
  obtain ⟨-, hstart, hend⟩ := hbetween
  have hbody := hu.range_of_mem_subtrees hg.listed (hg.body_mem_subtrees hu)
  have htrange := hu.range_of_mem_subtrees hblock ((hu.isWhole hblock).mem_of_operand ht)
  have hs := hm.position_eq hu
  -- The target is listed behind the body of the `if` and in front of the statement, so the scan came by it.
  have hfront : u.position w < u.position s := by
    have hsblock : s ∈ block.subtrees :=
      (hu.mem_subtrees_iff hblock hm.listed).mpr ⟨by omega, hs ▸ hm.getElem?_listing.2⟩
    have hne : s ≠ block := by
      rintro rfl
      simp [isBlock_of_tested? hm.tests] at hkind
    refine lt_of_le_of_ne (hu.position_operand_le hblock hw hsblock hne hleafs hend) fun heq => ?_
    obtain rfl := hu.eq_of_position_eq hwlisted hm.listed heq
    simp [isJumpTarget_of_tested? hm.tests] at htarget
  have hends := hm.endsAt_eq_false hu hwlisted (by omega) hfront
  obtain ⟨word, hword⟩ := keyword?_of_isJumpTarget htarget
  exact d.keyword?_of_endsAt hends
    (hu.scopeOf_statement hblock hkind hw ht (isBlock_of_keyword? hword) (isBlock_of_isIf hif)) htarget

/-- An `if` on `x > 3` with the given statement under it. -/
def Tree.aboveThree (id : NodeId) (statement : Kind) : Tree :=
  ofIf id (compareX (id + 1) .gt 3) (ofStatement (id + 4) statement [])

/-- `switch (y) { case 1: if (x > 3) break; default: if (x > 3) {} }` -/
def fallThrough : Tree :=
  ofStatement 0 (.keyword .switchStmt)
    [ofVariable 1 (.onStack 1 "y" .int),
      ofStatement 2 .block
        [ofStatement 3 (.keyword .caseLabel) [ofInt 4 1],
          aboveThree 5 (.keyword .breakStmt),
          ofStatement 10 (.keyword .defaultLabel) [],
          aboveThree 11 .block]]

/-- Behind the `default` the second `x > 3` is reported as repeating the first one, although the `switch` may
enter there. Only the `default` is crossed. -/
theorem exit_reports_cross_only_default_fallThrough :
    let u := SourceUnit.ofTree fallThrough
    (∃ w ∈ fallThrough.subtrees, w.keyword? = some .defaultLabel ∧
        u.placeOf w ∈ u.between (aboveThree 5 (.keyword .breakStmt)) (aboveThree 11 .block)) ∧
      ∃ f ∈ Check.innerCondition.reports {} u {},
        (f.diagnostic u).rule = "identicalConditionAfterEarlyExit" ∧ f.subjects.map Place.id = [6, 12] ∧
        u.CrossesOnlyDefault f := by
  intro u
  have hu : u.IsUnshared := SourceUnit.isUnshared_ofTree (by decide) (by decide)
  obtain ⟨first, second, hreports, hids⟩ : ∃ first second : Place,
      Check.innerCondition.reports {} u {} = [.repeatedAfterExit first second] ∧
        [first, second].map Place.id = [6, 12] := ⟨_, _, rfl, rfl⟩
  have hf : .repeatedAfterExit first second ∈ Check.innerCondition.reports {} u {} := by simp [hreports]
  refine ⟨⟨ofStatement 10 (.keyword .defaultLabel) [], ?_, rfl, ?_⟩, _, hf, rfl, hids,
    exit_reports_cross_only_default hu hf rfl⟩
  · exact List.mem_of_getElem? (i := 10) rfl
  · exact List.mem_of_getElem? (i := 0) rfl

end ConditionLint
