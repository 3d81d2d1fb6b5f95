import ConditionLint.Proofs.Cascade
import ConditionLint.Proofs.Equivalence
import ConditionLint.Proofs.LogicalPair

/-!
# The order of two comparisons under a connective

Exchanging two comparisons of one variable with integer constants changes the wording of a report, but not
whether there is one, nor its rule, severity, weakness and certainty. What decides about a report is
symmetric: the relations exclude or complement each other in either order, the sample points are the same
points, and the type of the compared base is that of the variable on both sides.
-/

namespace ConditionLint

open ConditionLint.Tree

/-- In the other order the tests are as constant as before, and imply each other the other way round. -/
theorem Outcome.ofTests_swap (c : Connective) (unsigned : Bool) (o₁ o₂ : Order) (a b : ℤ) (n₁ n₂ : Bool) :
    let outcome := Outcome.ofTests c unsigned (Test.ofInt o₁ a n₁) (Test.ofInt o₂ b n₂)
    Outcome.ofTests c unsigned (Test.ofInt o₂ b n₂) (Test.ofInt o₁ a n₁) =
      ⟨outcome.alwaysTrue, outcome.alwaysFalse, outcome.secondImplies, outcome.firstImplies⟩ := by
  intro outcome
  have hcomm (p q : Bool) : c.eval q p = c.eval p q := c.eval_comm q p
  simp only [outcome, ofTests_eq_showsAtPoints, showsAtPoints_swap o₂ o₁ b a n₂ n₁ _ unsigned, hcomm]

/-- What a report says besides its text: the rule, the severity, the weakness and the certainty. -/
def Finding.signature (f : Finding) : String × Severity × Nat × Bool :=
  (f.rule, f.severity, f.weakness, f.isInconclusive)

namespace Place

/-- One of two comparisons that implies the other is reported with the same signature, whichever it is. -/
theorem signature_implicationFinding (p : Place) (c : Connective) (a b : Comparison)
    (firstImplies inconclusive : Bool) :
    (p.implicationFinding c a b firstImplies inconclusive).signature =
      ("redundantCondition", .style, 398, inconclusive) := by
  unfold implicationFinding
  dsimp only
  split_ifs <;> rfl

/-- The outcome of two tests determines the signature of a report about them. -/
theorem map_signature_comparedPair? (o : Options) (p : Place) (c : Connective) (a b : Comparison)
    (inconclusive : Bool) :
    let outcome := Outcome.ofTests c (a.base.hasType CType.isUnsigned) a.test b.test
    (p.comparedPair? o c a b inconclusive).map Finding.signature =
      if outcome.alwaysTrue || outcome.alwaysFalse then
        if o.warning then
          some ("incorrectLogicOperator", .warning, if outcome.alwaysTrue then 571 else 570, inconclusive)
        else none
      else if o.style && outcome.firstImplies != outcome.secondImplies then
        some ("redundantCondition", .style, 398, inconclusive)
      else none := by
  intro outcome
  unfold comparedPair?
  dsimp only
  split
  · split <;> rfl
  · split
    · rw [Option.map_some, signature_implicationFinding]
    · rfl

end Place

/-- A comparison with an integer constant, as it is written. -/
structure WrittenTest where
  order : Order
  value : ℤ
  /-- How the constant is spelled. -/
  text : String
  /-- The type of the constant. -/
  ctype : CType

namespace WrittenTest

/-- The test that is written. -/
def test (w : WrittenTest) : Test := .ofInt w.order w.value false

/-- The constant is an integer. -/
@[simp] theorem isFloat_test (w : WrittenTest) : w.test.relation.value.isFloat = false := rfl

/-- The tree refers to a variable. -/
inductive Names (x : Variable) : Tree → Prop
  | node {l : Label} (name : l.kind = .identifier x.name none) (referent : l.referent = some x)
      (ctype : l.ctype = some x.ctype) : Names x (node l [])

/-- The tree compares a variable with the constant. -/
inductive Writes (w : WrittenTest) (x : Variable) : Tree → Prop
  | node {l lv : Label} {base : Tree} (comparison : l.kind = .binary (.compare w.order))
      (names : Names x base) (constant : lv.kind = .literal (.int w.value w.text))
      (plain : lv.fromMacro = false) : Writes w x (node l [base, node lv []])

/-- A reference has the type of its variable. -/
theorem Names.hasType {x : Variable} {t : Tree} (h : Names x t) (p : CType → Bool) :
    t.hasType p = p x.ctype := by
  cases h with
  | node name referent ctype => simp [Tree.hasType, Tree.ctype, label, ctype]

/-- Two references to one variable are the same. -/
theorem Names.same {x : Variable} {s t : Tree} (hs : Names x s) (ht : Names x t) :
    Tree.same s t = true := by
  cases hs with
  | node name referent _ =>
    cases ht with
    | node name' referent' _ =>
      rw [same_leaves (by simp [name, Kind.isLeaf])]
      simp [leavesAgree, spelledValue?, kind, label, name, name', varId?, Tree.referent, referent, referent']

namespace Writes

variable {w w' : WrittenTest} {x : Variable} {t u : Tree}

/-- A comparison that is written is read as its test of the variable. -/
theorem comparisonOf? (h : w.Writes x t) :
    ∃ base, Names x base ∧ t.comparisonOf? = some ⟨base, w.test, w.text, true, false⟩ := by
  cases h with
  | @node l lv base comparison names constant plain =>
    refine ⟨base, names, ?_⟩
    cases names with
    | node name _ _ =>
      simp [Tree.comparisonOf?, readNegated, readBare, comparison?, Tree.binary?, constant?, spelledConstant?,
        kind, label, comparison, name, constant, plain, compareWith, test, Test.ofInt]

/-- A written comparison is a binary operator. -/
theorem binary? (h : w.Writes x t) : ∃ a b, t.binary? = some (.compare w.order, a, b) := by
  cases h with
  | node comparison => simp [Tree.binary?, comparison]

/-- It has no conjuncts. -/
theorem conjuncts (h : w.Writes x t) : t.conjuncts = [] := by
  cases h with
  | node comparison => simp [Tree.conjuncts, isBinary, kind, label, comparison]

/-- It is no negation. -/
theorem negated? (h : w.Writes x t) : t.negated? = none := by
  cases h with
  | node comparison => rfl

/-- It is its own last operand. -/
theorem lastOperand (h : w.Writes x t) (c : Connective) : t.lastOperand c = t := by
  obtain ⟨a, b, hbinary⟩ := h.binary?
  simp [Tree.lastOperand, hbinary]

/-- Two comparisons of one variable are the same when they have the same order and the same constant. -/
theorem same (ht : w.Writes x t) (hu : w'.Writes x u) :
    Tree.same t u = (decide (w.order = w'.order) && decide (w.value = w'.value)) := by
  cases ht with
  | @node l lv base comparison names constant plain =>
    cases hu with
    | @node l' lv' base' comparison' names' constant' plain' =>
      have hconstants : Tree.same (.node lv []) (.node lv' []) = decide (w.value = w'.value) := by
        rw [same_leaves (by simp [constant, Kind.isLeaf])]
        simp [leavesAgree, spelledValue?, kind, label, constant, constant', Literal.int?]
      have hacross : Tree.same base (.node lv' []) = false := by
        cases names with
        | node name referent _ =>
          rw [same_leaves (by simp [name, Kind.isLeaf])]
          simp [leavesAgree, spelledValue?, kind, label, name, constant', Literal.int?]
      rw [Bool.eq_iff_iff, same_iff_alike, core_pair, core_pair, alike_pair_iff comparison]
      simp [Tree.binary?, comparison', names.same names', hconstants, hacross, BinaryOp.isAssignment]

/-- The relations that two comparisons put on the variable. -/
theorem sharedRelations? (ht : w.Writes x t) (hu : w'.Writes x u) :
    Tree.sharedRelations? t u = some (w.test.relation, w'.test.relation) := by
  obtain ⟨base, hbase, hread⟩ := ht.comparisonOf?
  obtain ⟨base', hbase', hread'⟩ := hu.comparisonOf?
  simp [Tree.sharedRelations?, baseRelations?, hread, hread', hbase.same hbase', Comparison.meaning,
    Test.meaning, test, Test.ofInt]

/-- Comparisons of one variable are opposite when their relations complement each other. -/
theorem opposite (ht : w.Writes x t) (hu : w'.Writes x u) :
    Tree.opposite t u = w.test.relation.complements w'.test.relation := by
  simp [Tree.opposite, isNegationOf, ht.negated?, hu.negated?, ht.sharedRelations? hu]

/-- They are exclusive when their relations complement or exclude each other. -/
theorem exclusive (ht : w.Writes x t) (hu : w'.Writes x u) : Tree.exclusive t u =
    (w.test.relation.complements w'.test.relation || w.test.relation.excludes w'.test.relation) := by
  simp [Tree.exclusive, clash, ht.opposite hu, ht.sharedRelations? hu, ht.conjuncts, hu.conjuncts]

variable {t' u' : Tree} (ht : w.Writes x t) (hu : w'.Writes x u) (ht' : w.Writes x t') (hu' : w'.Writes x u')
include ht hu ht' hu'

/-- Operands decide a connective in either order. -/
theorem decides_swap (c : Connective) : decides c t u = decides c u' t' := by
  have hcomplements : w.test.relation.complements w'.test.relation =
      w'.test.relation.complements w.test.relation := Relation.complements_comm _ _ _ _
  have hexcludes : w.test.relation.excludes w'.test.relation =
      w'.test.relation.excludes w.test.relation := Relation.excludes_comm _ _ _ _
  cases c with
  | and => rw [decides, decides, ht.exclusive hu, hu'.exclusive ht', hcomplements, hexcludes]
  | or => rw [decides, decides, ht.opposite hu, hu'.opposite ht', hcomplements]

/-- What is reported about two comparisons of one variable has the same signature in either order. -/
theorem map_signature_operandPair?_swap (o : Options) (p p' : Place) (c : Connective) :
    (p.operandPair? o c t u).map Finding.signature = (p'.operandPair? o c u' t').map Finding.signature := by
  obtain ⟨a, ha, hreada⟩ := ht.comparisonOf?
  obtain ⟨b, hb, hreadb⟩ := hu.comparisonOf?
  obtain ⟨a', ha', hreada'⟩ := ht'.comparisonOf?
  obtain ⟨b', hb', hreadb'⟩ := hu'.comparisonOf?
  have hcompared : (p.comparedPair? o c ⟨a, w.test, w.text, true, false⟩ ⟨b, w'.test, w'.text, true, false⟩
        false).map Finding.signature =
      (p'.comparedPair? o c ⟨b', w'.test, w'.text, true, false⟩ ⟨a', w.test, w.text, true, false⟩
        false).map Finding.signature := by
    have hswap := Outcome.ofTests_swap c x.ctype.isUnsigned w.order w'.order w.value w'.value false false
    rw [Place.map_signature_comparedPair?, Place.map_signature_comparedPair?, ha.hasType, hb'.hasType]
    simp only [test, hswap, bne_comm]
    rfl
  simp only [Place.operandPair?, ht.lastOperand, hu'.lastOperand, hreada, hreadb, hreada', hreadb',
    ht.decides_swap hu ht' hu', ht.same hu, hu'.same ht', ha.same hb, hb'.same ha', Option.any_some,
    Comparison.isUntyped, Comparison.isFloat, Comparison.isEquality, ha.hasType, hb.hasType, ha'.hasType,
    hb'.hasType, isFloat_test, Bool.or_self, Bool.false_or, eq_comm (a := w'.order), eq_comm (a := w'.value),
    Bool.or_comm w'.test.relation.order.isEquality, apply_ite (Option.map Finding.signature), hcompared]
  rfl

end Writes

end WrittenTest

/-- Only logical nodes are looked at closely. -/
theorem Place.logicalPairs_eq_nil (o : Options) {p : Place} (h : ∀ c, p.tree.label.kind ≠ .binary (.logic c)) :
    p.logicalPairs o = [] := by
  unfold logicalPairs
  split
  · next c lhs rhs hbinary =>
    obtain ⟨l, htree, hkind⟩ := eq_node_of_binary? hbinary
    rw [htree] at h
    exact absurd hkind (h c)
  · rfl

/-- Nothing keeps a first finding from being filed. -/
theorem Ledger.findings_fileAll_logicalPairs (o : Options) (p : Place) :
    (Ledger.fileAll {} (p.logicalPairs o)).findings = p.logicalPairs o := by
  have hsingle : ∃ found : Option Finding, p.logicalPairs o = found.toList := by
    unfold Place.logicalPairs
    split
    · split
      · exact ⟨none, rfl⟩
      · exact ⟨_, rfl⟩
    · exact ⟨none, rfl⟩
  obtain ⟨found, hfound⟩ := hsingle
  cases found with
  | none => rw [hfound]; rfl
  | some f =>
    have hsubjects : f.subjects = [p] := Place.subjects_of_mem_logicalPairs (o := o) (by simp [hfound])
    rw [hfound, Option.toList_some, fileAll, List.foldl_cons, List.foldl_nil,
      file_of_not_covers hsubjects (by simp [covers])]
    rfl

/-- In a unit of one expression, with no other logical node than the topmost one, the reports are the findings
at that node. -/
theorem Check.reports_logicalPair {u : SourceUnit} (hl : u.IsLinked) (hu : u.IsUnshared) {t : Tree}
    (hstarts : u.starts = [t])
    (hlogical : ∀ a ∈ t.operands, a.Everywhere fun l => ∀ c, l.kind ≠ .binary (.logic c)) (o : Options) :
    Check.logicalPair.reports o u {} = if o.stopped then [] else Place.logicalPairs o ⟨t, []⟩ := by
  have hplace : u.placeOf t = ⟨t, []⟩ :=
    congrArg (Place.mk t) (hl.start t (by rw [hstarts]; exact List.mem_cons_self))
  have hscanned : u.scanned = ⟨t, []⟩ :: (subtreesOf t.operands).map u.placeOf := by
    rw [hl.scanned_eq_order hu, SourceUnit.order, SourceUnit.listing, hstarts, List.flatMap_singleton,
      subtrees_eq_cons, List.map_cons, hplace]
  have hfirst := Ledger.findings_fileAll_logicalPairs o ⟨t, []⟩
  unfold reports run
  cases hstopped : o.stopped with
  | true => simp [isEnabled, hstopped]
  | false =>
    rw [if_pos (by simp [isEnabled, hstopped]), hscanned, List.foldl_cons, scan_of_settles]
    · simpa [findingsAt] using hfirst
    · intro p hp f hf
      obtain ⟨s, hs, rfl⟩ := List.mem_map.mp hp
      rw [subtreesOf_eq] at hs
      obtain ⟨a, ha, hs⟩ := List.mem_flatMap.mp hs
      have hplain := ((hlogical a (List.mem_filter.mp ha).1).of_mem hs).label
      rw [findingsAt, Place.logicalPairs_eq_nil o hplain] at hf
      contradiction

/-- The steps that make two comparisons of one variable, joined by a connective. -/
def Draft.joinedTests (name : String) (ctype : CType) (storage : Storage) (c : Connective)
    (first second : WrittenTest) : List Action :=
  [.declare name ctype storage,
    .reference 0, .literal (.int first.value first.text) first.ctype, .binary (.compare first.order) 0 1,
    .reference 0, .literal (.int second.value second.text) second.ctype, .binary (.compare second.order) 3 4,
    .binary (.logic c) 2 5]

/-- The steps lead to one expression, the two comparisons of one variable under the connective. -/
theorem Draft.exists_joinedTests (file name : String) (ctype : CType) (storage : Storage) (c : Connective) :
    ∃ x, ∀ first second : WrittenTest, ∃ d l t u,
      Draft.performAll? { file := file } (joinedTests name ctype storage c first second) = some d ∧
        d.IsUnshared ∧ d.finish.starts = [.node l [t, u]] ∧ l.kind = .binary (.logic c) ∧
          first.Writes x t ∧ second.Writes x u := by
  refine ⟨⟨0, name, ctype, { storage with
    isPointer := storage.isPointer || ctype.isPointer, isConst := storage.isConst || ctype.isConst }⟩, ?_⟩
  intro first second
  refine ⟨_, _, _, _, rfl, of_decide_eq_true rfl, rfl, rfl, ?_, ?_⟩
  · exact .node rfl (.node rfl rfl rfl) rfl rfl
  · exact .node rfl (.node rfl rfl rfl) rfl rfl

/-- There is no logical node in a comparison of a variable with a constant. -/
theorem WrittenTest.Writes.everywhere {w : WrittenTest} {x : Variable} {t : Tree} (h : w.Writes x t) :
    t.Everywhere fun l => ∀ c, l.kind ≠ .binary (.logic c) := by
  cases h with
  | node comparison names constant _ =>
    cases names with
    | node name _ _ =>
      apply Everywhere.node
      · simp [comparison]
      · intro a ha
        simp only [List.mem_cons, List.not_mem_nil, or_false] at ha
        rcases ha with rfl | rfl
        · exact .node (by simp [name]) (by simp)
        · exact .node (by simp [constant]) (by simp)

/-- The reports about the joined comparisons are the finding about the pair, unless the check is stopped. -/
theorem Draft.reports_joinedTests {file : String} {actions : List Action} {d : Draft}
    (h : Draft.performAll? { file := file } actions = some d) (hu : d.IsUnshared) {l : Label} {c : Connective}
    {x : Variable} {first second : WrittenTest} {t u : Tree} (hstarts : d.finish.starts = [.node l [t, u]])
    (hkind : l.kind = .binary (.logic c)) (ht : first.Writes x t) (hu' : second.Writes x u) (o : Options) :
    Check.logicalPair.reports o d.finish {} =
      if o.stopped then [] else (Place.operandPair? o ⟨.node l [t, u], []⟩ c t u).toList := by
  rw [Check.reports_logicalPair (isLinked_finish h hu) (isUnshared_finish h hu) hstarts]
  · have habsorption : Place.absorption? ⟨.node l [t, u], []⟩ c t u = none := by
      obtain ⟨a, b, hbinary⟩ := hu'.binary?
      simp [Place.absorption?, hbinary]
    simp [Place.logicalPairs, Tree.binary?, hkind, Place.underConstexpr, habsorption]
  · intro a ha
    simp only [operands, List.mem_cons, List.not_mem_nil, or_false] at ha
    rcases ha with rfl | rfl
    · exact ht.everywhere
    · exact hu'.everywhere

/-- The check of logical pairs treats two comparisons of a variable with integer constants alike in either
order: it reports nothing about both expressions, or one diagnostic about each, and these have the same
rule, severity, weakness number and certainty. -/
theorem reports_operand_order (file name : String) (ctype : CType) (storage : Storage) (c : Connective)
    (first second : WrittenTest) (o : Options) :
    ∃ d d', Draft.performAll? { file := file } (Draft.joinedTests name ctype storage c first second) = some d ∧
      Draft.performAll? { file := file } (Draft.joinedTests name ctype storage c second first) = some d' ∧
      (Check.logicalPair.reports o d.finish {} = [] ∧ Check.logicalPair.reports o d'.finish {} = [] ∨
        ∃ f f', Check.logicalPair.reports o d.finish {} = [f] ∧ Check.logicalPair.reports o d'.finish {} = [f'] ∧
          (f.diagnostic d.finish).rule = (f'.diagnostic d'.finish).rule ∧
          (f.diagnostic d.finish).severity = (f'.diagnostic d'.finish).severity ∧
          (f.diagnostic d.finish).cwe = (f'.diagnostic d'.finish).cwe ∧
          (f.diagnostic d.finish).inconclusive = (f'.diagnostic d'.finish).inconclusive) := by
  obtain ⟨x, hmade⟩ := Draft.exists_joinedTests file name ctype storage c
  obtain ⟨d, l, t, u, hd, hunshared, hstarts, hkind, ht, hu⟩ := hmade first second
  obtain ⟨d', l', u', t', hd', hunshared', hstarts', hkind', hu', ht'⟩ := hmade second first
  refine ⟨d, d', hd, hd', ?_⟩
  rw [Draft.reports_joinedTests hd hunshared hstarts hkind ht hu,
    Draft.reports_joinedTests hd' hunshared' hstarts' hkind' hu' ht']
  have hswap := ht.map_signature_operandPair?_swap hu ht' hu' o ⟨.node l [t, u], []⟩ ⟨.node l' [u', t'], []⟩ c
  cases o.stopped with
  | true => exact Or.inl ⟨rfl, rfl⟩
  | false =>
    generalize Place.operandPair? o ⟨.node l [t, u], []⟩ c t u = found at hswap ⊢
    generalize Place.operandPair? o ⟨.node l' [u', t'], []⟩ c u' t' = found' at hswap ⊢
    cases found with
    | none =>
      obtain rfl : found' = none := by simpa using hswap.symm
      exact Or.inl ⟨rfl, rfl⟩
    | some f =>
      obtain ⟨f', rfl, hsignature⟩ := Option.map_eq_some_iff.mp hswap.symm
      simp only [Finding.signature, Prod.mk.injEq] at hsignature
      obtain ⟨hrule, hseverity, hweakness, hcertainty⟩ := hsignature
      exact Or.inr ⟨f, f', rfl, rfl, hrule.symm, hseverity.symm, hweakness.symm, hcertainty.symm⟩

end ConditionLint
