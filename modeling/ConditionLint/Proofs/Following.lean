import ConditionLint.Proofs.InnerCondition
import ConditionLint.Proofs.Position

/-!
# How far a condition is followed

The check on inner conditions follows the condition of a statement through its body, and behind an `if` that
leaves at once through the rest of the block. In a unit without shared nodes both are ranges of positions, and
a condition is met only when no node of the range up to it changes the condition that is followed, and no node
in front of it ends what is known. Every report of the check is about a condition that is met in this way.
-/

namespace ConditionLint

open ConditionLint.Tree

namespace Tree

/-- Only an `if` and a `return` test a condition. -/
theorem keyword?_of_tested? {s c : Tree} (h : s.tested? = some c) :
    (∃ constexpr, s.keyword? = some (.ifStmt constexpr)) ∨ s.keyword? = some .returnStmt := by
  unfold tested? at h
  split at h
  · next hkeyword => exact Or.inl ⟨_, hkeyword⟩
  · next hkeyword => exact Or.inr hkeyword
  · contradiction

/-- The condition that a statement tests is its first operand. -/
theorem getElem?_of_tested? {s c : Tree} (h : s.tested? = some c) : s.operands[0]? = some c := by
  unfold tested? at h
  split at h
  · next hkeyword => exact (of_condition? (kind_of_keyword? hkeyword) rfl h).1
  · exact h
  · contradiction

/-- The step of a `for`, which runs behind the body and is listed in front of it. -/
def step? (t : Tree) : Option Tree := if t.keyword? = some .forStmt then t.operand? 2 else none

/-- The step of a `for` is one of its operands. -/
theorem mem_operands_of_step? {t step : Tree} (h : t.step? = some step) : step ∈ t.operands := by
  unfold step? at h
  split at h
  · exact List.mem_of_getElem? h
  · contradiction

end Tree

/-- Entering a block changes nothing. -/
theorem Place.changes_of_isBlock {q : Place} (h : q.tree.isBlock = true) (e : Tree) : q.changes e = false := by
  have hkind : q.tree.kind = .block := of_decide_eq_true h
  simp [changes, changesVariable, storesMemory, Place.kind, hkind]

namespace SourceUnit

variable {u : SourceUnit} (h : u.IsUnshared)

namespace Meets

variable {c : Tree} {d : Dependence} {scope start stop m : Nat} {s inner w : Tree}
  (hm : u.Meets c d scope (u.slice start stop) m s inner)
include hm

/-- A statement that is met in a slice is listed in it. -/
theorem getElem?_listing : u.listing[start + m]? = some s ∧ start + m < stop := by
  have hhere := hm.here
  rw [u.getElem?_slice] at hhere
  split at hhere
  · next hlt =>
    refine ⟨?_, hlt⟩
    simpa [Function.comp_def, placeOf] using hhere
  · contradiction

/-- A statement that is met is listed. -/
theorem listed : s ∈ u.listing := List.mem_of_getElem? hm.getElem?_listing.1

include h

/-- A statement is met within the slice. -/
theorem position_eq : u.position s = start + m := h.position_of_getElem? hm.getElem?_listing.1

/-- The tested condition is listed right behind the statement. -/
theorem position_inner : u.position inner = u.position s + 1 :=
  h.position_first_operand hm.listed (getElem?_of_tested? hm.tests)

/-- The tested condition is below the statement. -/
theorem mem_subtrees : inner ∈ s.subtrees :=
  (h.isWhole hm.listed).mem_of_operand (mem_operands_of_tested? hm.tests)

/-- From the start of the slice up to the statement, nothing changes the condition that is followed. -/
theorem changes_eq_false (hw : w ∈ u.listing) (hstart : start ≤ u.position w)
    (hend : u.position w ≤ u.position s) : (u.placeOf w).changes c = false := by
  have hs := hm.position_eq h
  refine hm.unchanged (u.position w - start) (by omega) _ ?_
  rw [u.getElem?_slice, Nat.add_sub_cancel' hstart, if_pos (by have := hm.getElem?_listing.2; omega),
    h.getElem?_position hw, Option.map_some]

/-- Neither does anything up to the end of the tested condition. -/
theorem changes_eq_false_of_lt (hw : w ∈ u.listing) (hstart : start ≤ u.position w)
    (hend : u.position w < u.position inner + inner.size) : (u.placeOf w).changes c = false := by
  have hinner := hm.position_inner h
  by_cases hfront : u.position w ≤ u.position s
  · exact hm.changes_eq_false h hw hstart hfront
  · have hlisted := (isInfix_listing hm.listed).subset (hm.mem_subtrees h)
    have hbelow : w ∈ inner.subtrees := (h.mem_subtrees_iff hlisted hw).mpr (by omega)
    simpa using List.any_eq_false.mp hm.harmless (u.placeOf w) (List.mem_map_of_mem hbelow)

/-- From the start of the slice, nothing in front of the statement ends what is known. -/
theorem endsAt_eq_false (hw : w ∈ u.listing) (hstart : start ≤ u.position w)
    (hend : u.position w < u.position s) : d.endsAt u scope w = false := by
  have hs := hm.position_eq h
  refine hm.lasting (u.position w - start) (by omega) (u.placeOf w) ?_
  rw [u.getElem?_slice, Nat.add_sub_cancel' hstart, if_pos (by have := hm.getElem?_listing.2; omega),
    h.getElem?_position hw, Option.map_some]

end Meets

/-- The statement `t` enters its body `b` only when its condition `c` is true, and `d` is what the condition
depends on. -/
structure Guards (u : SourceUnit) (t c b : Tree) (d : Dependence) : Prop where
  listed : t ∈ u.listing
  guards : (u.placeOf t).guardsBody = true
  condition : t.condition? = some c
  body : t.body? = some b
  dependence : c.dependence? = some d

/-- The position from which a condition is followed through a body; a block itself does not count. -/
def bodyStart (u : SourceUnit) (b : Tree) : Nat := u.position b + if b.isBlock then 1 else 0

/-- The nodes inside of a body are a slice. -/
theorem IsUnshared.interior_eq_slice (h : u.IsUnshared) {b : Tree} (hb : b ∈ u.listing) :
    u.interior b = u.slice (u.bodyStart b) (u.position b + b.size) := by
  rw [interior, h.span_eq_slice hb, bodyStart]
  split
  · rw [slice, ← List.map_drop, List.drop_drop]
    rfl
  · rfl

/-- The findings of the check are about statements that guard their bodies. -/
theorem exists_guards_of_mem_reports {o : Options} {l : Ledger} {f : Finding}
    (hf : f ∈ Check.innerCondition.reports o u l) : ∃ t c b d, u.Guards t c b d ∧
      (f ∈ u.findingsInside c b d ∨ (u.placeOf t).findingBehind? u c b d = some f) := by
  obtain ⟨_, q, hq, hf⟩ := Check.exists_of_mem_reports hf
  obtain ⟨t, ht, rfl⟩ := exists_of_mem_scanned hq
  obtain ⟨c, b, d, hguards, hc, hb, hd, hcases⟩ := Place.of_mem_innerConditions hf
  exact ⟨t, c, b, d, ⟨ht, hguards, hc, hb, hd⟩, hcases⟩

/-- No condition is reported as opposite to one that depends on an aliased variable. -/
theorem isAliased_of_oppositeInner {c b : Tree} {d : Dependence} {outer inner : Place}
    (hf : .oppositeInner outer inner ∈ u.findingsInside c b d) : u.isAliased c d = false := by
  obtain ⟨⟨s, second⟩, -, hf⟩ := List.mem_flatMap.mp hf
  obtain ⟨conjunct, -, hfinding⟩ := List.mem_filterMap.mp hf
  unfold innerFinding? at hfinding
  split at hfinding
  · contradiction
  split at hfinding
  · split at hfinding
    · contradiction
    · next haliased => simpa using haliased
  split at hfinding
  · cases hfinding
  · contradiction

namespace Guards

variable {t c b : Tree} {d : Dependence} (hg : u.Guards t c b d)
include h hg

/-- The condition of the statement is below it. -/
theorem condition_mem_subtrees : c ∈ t.subtrees :=
  (h.isWhole hg.listed).mem_of_operand (mem_operands_of_condition? hg.condition)

/-- The body of the statement is below it. -/
theorem body_mem_subtrees : b ∈ t.subtrees :=
  (h.isWhole hg.listed).mem_of_operand (mem_operands_of_body? hg.body)

/-- The condition of the statement is listed. -/
theorem condition_listed : c ∈ u.listing := (isInfix_listing hg.listed).subset (hg.condition_mem_subtrees h)

/-- The body of the statement is listed. -/
theorem body_listed : b ∈ u.listing := (isInfix_listing hg.listed).subset (hg.body_mem_subtrees h)

/-- The body begins right behind the condition. In a `for` the step stands between them. -/
theorem position_body : u.position b = u.position c + c.size ∨ ∃ step, t.step? = some step ∧
    u.position step = u.position c + c.size ∧ u.position b = u.position step + step.size := by
  have hadjacent {word : Keyword} {i : Nat} (hkeyword : t.keyword? = some word)
      (hi : word.conditionIndex? = some i) (hj : word.bodyIndex? = some (i + 1)) :
      u.position b = u.position c + c.size := by
    have hkind := kind_of_keyword? hkeyword
    exact h.position_next_operand hg.listed (of_condition? hkind hi hg.condition).1 (of_body? hkind hj hg.body)
  have hguards := hg.guards
  unfold Place.guardsBody at hguards
  split at hguards
  · next hkeyword => exact Or.inl (hadjacent hkeyword rfl rfl)
  · next hkeyword => exact Or.inl (hadjacent hkeyword rfl rfl)
  · next hkeyword =>
    have hkeyword : t.keyword? = some .forStmt := hkeyword
    have hkind := kind_of_keyword? hkeyword
    have hbody := of_body? hkind rfl hg.body
    obtain ⟨step, hstep⟩ : ∃ step, t.operands[2]? = some step :=
      ⟨_, List.getElem?_eq_getElem (by have := (List.getElem?_eq_some_iff.mp hbody).1; omega)⟩
    refine Or.inr ⟨step, ?_, ?_, h.position_next_operand hg.listed hstep hbody⟩
    · rw [step?, if_pos hkeyword]
      exact hstep
    · exact h.position_next_operand hg.listed (of_condition? hkind rfl hg.condition).1 hstep
  · contradiction

/-- An operand of the condition is below it. -/
theorem mem_subtrees_of_mem_chain {first : Tree} (hfirst : first ∈ c.chain (.logic .and)) :
    first ∈ c.subtrees :=
  mem_subtrees_of_mem_leaves (h.isWhole (hg.condition_listed h)) (leaves_and c ▸ hfirst)

/-- From a part of the condition to a part of the body there are only nodes of the condition, of the step of a
`for` and of the body. -/
theorem of_mem_between {a inner : Tree} {q : Place} (ha : a ∈ c.subtrees) (hinner : inner ∈ b.subtrees)
    (hq : q ∈ u.between a inner) :
    ∃ w, u.placeOf w = q ∧ u.position a + a.size ≤ u.position w ∧ u.position w < u.position inner ∧
      (w ∈ c.subtrees ∨ (∃ step, t.step? = some step ∧ w ∈ step.subtrees) ∨ w ∈ b.subtrees) := by
  have hc := hg.condition_listed h
  have hb := hg.body_listed h
  have harange := h.range_of_mem_subtrees hc ha
  have hinnerrange := h.range_of_mem_subtrees hb hinner
  rw [h.between_eq ((isInfix_listing hc).subset ha) ((isInfix_listing hb).subset hinner),
    h.mem_slice_iff] at hq
  obtain ⟨w, hw, hstart, hend, rfl⟩ := hq
  refine ⟨w, rfl, hstart, hend, ?_⟩
  by_cases hcondition : u.position w < u.position c + c.size
  · exact Or.inl ((h.mem_subtrees_iff hc hw).mpr (by omega))
  by_cases hbody : u.position b ≤ u.position w
  · exact Or.inr (Or.inr ((h.mem_subtrees_iff hb hw).mpr (by omega)))
  rcases hg.position_body h with hadjacent | ⟨step, hstep, hbehind, hnext⟩
  · omega
  · have hlisted : step ∈ u.listing := (isInfix_listing hg.listed).subset
      ((h.isWhole hg.listed).mem_of_operand (mem_operands_of_step? hstep))
    exact Or.inr (Or.inl ⟨step, hstep, (h.mem_subtrees_iff hlisted hw).mpr (by omega)⟩)

/-- A finding in the body of the statement compares an operand of the condition with a condition that is met
in the body. -/
theorem exists_meets_inside {f : Finding} (hf : f ∈ u.findingsInside c b d) :
    ∃ m s inner first, u.Meets c d (u.scopeOf b) (u.slice (u.bodyStart b) (u.position b + b.size)) m s inner ∧
      first ∈ c.chain (.logic .and) ∧ f.subjects = [u.placeOf first, u.placeOf inner] ∧
      (f = .oppositeInner (u.placeOf first) (u.placeOf inner) ∧ u.isAliased c d = false ∨
        f = .identicalInner (u.placeOf first) (u.placeOf inner)) := by
  obtain ⟨s, inner, first, htested, hfirst, hfinding⟩ := of_mem_findingsInside hf
  rw [h.interior_eq_slice (hg.body_listed h)] at htested
  obtain ⟨m, hm⟩ := exists_meets_of_mem_testedWhile htested
  refine ⟨m, s, inner, first, hm, hfirst, ?_⟩
  rcases hfinding with ⟨rfl, -⟩ | ⟨rfl, -⟩
  · exact ⟨rfl, Or.inl ⟨rfl, isAliased_of_oppositeInner hf⟩⟩
  · exact ⟨rfl, Or.inr rfl⟩

/-- A finding behind the statement compares its condition with an operand of a condition that is met in the
rest of the block. -/
theorem exists_meets_behind {f : Finding} (hf : (u.placeOf t).findingBehind? u c b d = some f) :
    ∃ block m s second leaf, (u.placeOf t).guardedBlock? b = some block ∧ block ∈ u.listing ∧
      t ∈ block.operands ∧ block.isBlock = true ∧ t.isIf = true ∧
      u.Meets c d (u.scopeOf t) (u.slice (u.position b + b.size) (u.position block + block.size)) m s second ∧
      leaf ∈ second.subtrees ∧ f = .repeatedAfterExit (u.placeOf c) (u.placeOf leaf) := by
  obtain ⟨block, s, second, leaf, hif, hleaves, hparent, hblock, htested, hleaf, -, rfl⟩ := of_findingBehind? hf
  obtain ⟨hlisted, hoperand⟩ := h.of_parent? hg.listed hparent
  rw [h.restOf_eq_slice (hg.body_listed h) hlisted] at htested
  obtain ⟨m, hm⟩ := exists_meets_of_mem_testedWhile htested
  have hsecond := (isInfix_listing hm.listed).subset (hm.mem_subtrees h)
  refine ⟨block, m, s, second, leaf, ?_, hlisted, hoperand, hblock, hif, hm,
    mem_subtrees_of_mem_leaves (h.isWhole hsecond) hleaf, rfl⟩
  have hleaving : ((u.placeOf t).tree.isIf && b.leavesAtOnce) = true := by simp [hif, hleaves]
  rw [Place.guardedBlock?, if_pos hleaving, hparent, Option.filter_some, if_pos hblock]

/-- What is met in the body is in the body. -/
theorem mem_body_of_meets {scope m : Nat} {s inner : Tree}
    (hm : u.Meets c d scope (u.slice (u.bodyStart b) (u.position b + b.size)) m s inner) :
    inner ∈ b.subtrees := by
  have hs := hm.position_eq h
  have hend := hm.getElem?_listing.2
  have hbelow : s ∈ b.subtrees := by
    rw [bodyStart] at hs hend
    exact (h.mem_subtrees_iff (hg.body_listed h) hm.listed).mpr (by omega)
  exact mem_subtrees_trans (hm.mem_subtrees h) hbelow

/-- Nothing in the body in front of a condition that is met there changes the condition of the statement. -/
theorem changes_in_body {scope stop m : Nat} {s inner w : Tree}
    (hm : u.Meets c d scope (u.slice (u.bodyStart b) stop) m s inner) (hw : w ∈ b.subtrees)
    (hfront : u.position w < u.position inner) : (u.placeOf w).changes c = false := by
  have hlisted := (isInfix_listing (hg.body_listed h)).subset hw
  have hrange := (h.mem_subtrees_iff (hg.body_listed h) hlisted).mp hw
  have hinner := hm.position_inner h
  by_cases hstart : u.bodyStart b ≤ u.position w
  · exact hm.changes_eq_false h hlisted hstart (by omega)
  · rw [bodyStart] at hstart
    split at hstart
    · next hblock =>
      obtain rfl : w = b := h.eq_of_position_eq hlisted (hg.body_listed h) (by omega)
      exact Place.changes_of_isBlock hblock c
    · omega

end Guards

/-- A report on a condition under another one compares an operand of the condition of a statement with a
condition that is met in its body. -/
theorem IsUnshared.exists_meets_of_mem_reports (h : u.IsUnshared) {o : Options} {l : Ledger} {f : Finding}
    (hf : f ∈ Check.innerCondition.reports o u l)
    (hrule : (f.diagnostic u).rule = "oppositeInnerCondition" ∨
      (f.diagnostic u).rule = "identicalInnerCondition") :
    ∃ t c b d m s first inner, u.Guards t c b d ∧
      u.Meets c d (u.scopeOf b) (u.slice (u.bodyStart b) (u.position b + b.size)) m s inner ∧
      first ∈ c.chain (.logic .and) ∧ f.subjects = [u.placeOf first, u.placeOf inner] ∧
      (f = .oppositeInner (u.placeOf first) (u.placeOf inner) ∧ u.isAliased c d = false ∨
        f = .identicalInner (u.placeOf first) (u.placeOf inner)) := by
  obtain ⟨t, c, b, d, hg, hinside | hbehind⟩ := exists_guards_of_mem_reports hf
  · obtain ⟨m, s, inner, first, hm, hfirst, hfinding⟩ := hg.exists_meets_inside h hinside
    exact ⟨t, c, b, d, m, s, first, inner, hg, hm, hfirst, hfinding⟩
  · obtain ⟨_, _, _, _, _, -, -, -, -, -, -, -, rfl⟩ := hg.exists_meets_behind h hbehind
    simp [Finding.diagnostic, Finding.rule] at hrule

end SourceUnit

end ConditionLint
