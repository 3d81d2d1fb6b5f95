import ConditionLint.Proofs.Ancestry
import ConditionLint.Proofs.Following
import ConditionLint.Proofs.Resolution

/-!
# Changes between a condition and the one under it

A report on a condition under another one says that nothing changed in between. Three statements say how far
this goes. Nothing in the body up to the inner condition changes the outer one, but an operand of the outer
condition itself may, and the step of a `for` does, which runs behind the body. A loop around the inner
condition changes no variable of the outer one, but it may change memory that the outer one reads. A store
through a pointer in between may hit a variable whose address was taken elsewhere.
-/

namespace ConditionLint

open ConditionLint.Tree

namespace Tree

/-- What a subtree reads from memory, the tree reads. -/
theorem readsMemory_of_mem {s t : Tree} (hs : s ∈ t.subtrees) (h : s.readsMemory = true) :
    t.readsMemory = true := by
  obtain ⟨r, hr, hreads⟩ := List.any_eq_true.mp h
  exact List.any_eq_true.mpr ⟨r, mem_subtrees_trans hr hs, hreads⟩

/-- A condition whose dependence is known calls no function that may modify state. -/
theorem isModifyingCall_of_dependence? {s t : Tree} {d : Dependence} (h : t.dependence? = some d)
    (hs : s ∈ t.subtrees) : s.isModifyingCall = false := by
  unfold dependence? at h
  split at h
  · contradiction
  · next hnone => simpa using List.any_eq_false.mp (by simpa using hnone) s hs

/-- A statement that tests a condition is no loop. -/
theorem isLoop_of_tested? {s c : Tree} (h : s.tested? = some c) : s.isLoop = false := by
  rcases keyword?_of_tested? h with ⟨_, hkeyword⟩ | hkeyword
  · simp [isLoop, hkeyword, Keyword.isLoop]
  · simp [isLoop, hkeyword, Keyword.isLoop]

/-- Whether the node assigns through a pointer. -/
def storesThroughPointer (t : Tree) : Bool := t.isAssignment && t.operands.head?.any isIndirect

end Tree

namespace Place

/-- An assignment changes the variable that it stores into, and through a pointer all that are not on the
stack. -/
theorem changesVariable_of_isAssignment {q : Place} {op : BinaryOp} (hkind : q.kind = .binary op)
    (hop : op.isAssignment = true) (v : Variable) :
    q.changesVariable v = q.tree.operands.head?.any fun target =>
      target.designates v || (!v.isLocalStorage && target.isIndirect) := by
  cases op <;> simp_all [changesVariable, BinaryOp.isAssignment]

variable {q : Place} {e : Tree} {v : Variable} (h : q.changes e = false) (hv : v ∈ e.vars)
include h hv

/-- An assignment through a pointer that does not change an expression finds its variables on the stack, and
nothing read from memory. -/
theorem isLocalStorage_of_changes (hstores : q.tree.storesThroughPointer = true) :
    v.isLocalStorage = true ∧ e.readsMemory = false := by
  obtain ⟨hassignment, hindirect⟩ := Bool.and_eq_true_iff.mp hstores
  obtain ⟨op, hop, hassigns⟩ := (Option.any_eq_true _ _).mp hassignment
  have hkind : q.kind = .binary op := kind_of_binaryOp? hop
  rw [changes, Bool.or_eq_false_iff, List.any_eq_false] at h
  constructor
  · by_contra hshared
    rw [Bool.not_eq_true] at hshared
    obtain ⟨target, htarget, hindirect⟩ := (Option.any_eq_true _ _).mp hindirect
    refine h.1 v hv ?_
    rw [changesVariable_of_isAssignment hkind hassigns]
    simp [htarget, hindirect, hshared]
  · have hstores : q.tree.storesMemory = true := by
      rw [Place.kind] at hkind
      simp [storesMemory, hkind, hassigns, hindirect]
    simpa [hstores] using h.2

/-- An address of a variable is taken without changing an expression only for a call. -/
theorem inCall_of_changes (htakes : q.tree.takesAddressOf v = true) : q.inCall = true := by
  have hkind : q.kind = .unary .addressOf := of_decide_eq_true (Bool.and_eq_true_iff.mp htakes).1
  rw [changes, Bool.or_eq_false_iff, List.any_eq_false] at h
  simpa [changesVariable, hkind, htakes] using h.1 v hv

end Place

namespace SourceUnit

variable {u : SourceUnit}

/-- The variables of a subtree are variables of the tree. -/
theorem IsResolved.mem_vars (h : u.IsResolved) {s t : Tree} (ht : t ∈ u.listing) (hs : s ∈ t.subtrees)
    {v : Variable} (hv : v ∈ s.vars) : v ∈ t.vars := by
  have hlisted {r : Tree} (hr : r ∈ t.subtrees) : r ∈ u.listing := (isInfix_listing ht).subset hr
  obtain ⟨r, hr, href⟩ := exists_referent_of_mem_vars hv
  have hr := mem_subtrees_trans hr hs
  obtain ⟨w, hw, hid⟩ := exists_mem_vars (x := v.id) ⟨r, hr, by simp [varId?, href]⟩
  obtain ⟨r', hr', href'⟩ := exists_referent_of_mem_vars hw
  have hsame := h r (hlisted hr) r' (hlisted hr') (by simp [varId?, href, href', hid])
  rw [href, href', Option.some.injEq] at hsame
  exact hsame ▸ hw

/-- What changes a subtree changes the tree. -/
theorem IsResolved.changes_of_mem (h : u.IsResolved) {s t : Tree} (ht : t ∈ u.listing) (hs : s ∈ t.subtrees)
    {q : Place} (hchanges : q.changes s = true) : q.changes t = true := by
  rw [Place.changes, Bool.or_eq_true, List.any_eq_true, Bool.and_eq_true] at hchanges ⊢
  rcases hchanges with ⟨v, hv, hchanges⟩ | ⟨hreads, hstores⟩
  · exact Or.inl ⟨v, h.mem_vars ht hs hv, hchanges⟩
  · exact Or.inr ⟨readsMemory_of_mem hs hreads, hstores⟩

/-- The nodes that are searched for conditions to compare with that of the statement `t`. -/
def followed (u : SourceUnit) (t b : Tree) : List Place :=
  u.interior b ++ ((u.placeOf t).guardedBlock? b).toList.flatMap fun block => u.restOf b block

/-- The nodes that are searched are in the body or behind it. -/
theorem Guards.of_mem_followed (h : u.IsUnshared) {t c b w : Tree} {d : Dependence} (hg : u.Guards t c b d)
    (hw : u.placeOf w ∈ u.followed t b) :
    w ∈ u.listing ∧ (u.bodyStart b ≤ u.position w ∧ u.position w < u.position b + b.size ∨
      u.position b + b.size ≤ u.position w) := by
  rcases List.mem_append.mp hw with hinside | hbehind
  · rw [h.interior_eq_slice (hg.body_listed h), h.placeOf_mem_slice_iff] at hinside
    exact hinside.imp_right Or.inl
  · obtain ⟨block, hblock, hrest⟩ := List.mem_flatMap.mp hbehind
    have hguarded : (u.placeOf t).guardedBlock? b = some block := by simpa using hblock
    unfold Place.guardedBlock? at hguarded
    split at hguarded
    · have hlisted := (h.of_parent? hg.listed (Option.filter_eq_some_iff.mp hguarded).1).1
      rw [h.restOf_eq_slice (hg.body_listed h) hlisted, h.placeOf_mem_slice_iff] at hrest
      exact hrest.imp_right fun hrange => Or.inr hrange.1
    · contradiction

/-- A loop around a condition that is met changes the condition that is followed only through memory, and only
behind the condition that is met. -/
theorem Meets.changesWithin_iff (h : u.IsUnshared) {c s inner leaf loop : Tree} {d : Dependence}
    {scope start stop m : Nat} (hm : u.Meets c d scope (u.slice start stop) m s inner) (hd : d.vars = c.vars)
    (hloop : loop ∈ u.listing) (hstart : start ≤ u.position loop) (hkind : loop.isLoop = true)
    (hleaf : leaf ∈ inner.subtrees) (haround : leaf ∈ loop.subtrees) :
    u.changesWithin c loop = true ↔ c.readsMemory = true ∧
      ∃ w ∈ loop.subtrees, u.position leaf + leaf.size ≤ u.position w ∧ w.storesMemory = true := by
  have hinner : inner ∈ u.listing := (isInfix_listing hm.listed).subset (hm.mem_subtrees h)
  have hleafrange := h.range_of_mem_subtrees hinner hleaf
  have hlooprange := h.range_of_mem_subtrees hloop haround
  have hleafsize := leaf.size_pos
  constructor
  · intro hchanges
    obtain ⟨q, hq, hchanges⟩ := List.any_eq_true.mp hchanges
    obtain ⟨w, hw, rfl⟩ := List.mem_map.mp hq
    have hwlisted := (isInfix_listing hloop).subset hw
    have hwrange := h.range_of_mem_subtrees hloop hw
    have hbehind : u.position inner + inner.size ≤ u.position w := by
      by_contra hfront
      rw [hm.changes_eq_false_of_lt h hwlisted (by omega) (by omega)] at hchanges
      contradiction
    -- The loop begins in front of the statement: it is not the statement, and the condition does not contain
    -- it, because it reaches beyond the condition.
    have hentered : u.position loop < u.position s := by
      have hposition := hm.position_inner h
      have hother : u.position loop ≠ u.position s := by
        intro heq
        obtain rfl := h.eq_of_position_eq hloop hm.listed heq
        rw [isLoop_of_tested? hm.tests] at hkind
        contradiction
      by_contra hlater
      have hbelow : loop ∈ inner.subtrees := (h.mem_subtrees_iff hinner hloop).mpr (by omega)
      have hrange := h.range_of_mem_subtrees hinner hbelow
      have hsize := w.size_pos
      omega
    have hends := hm.endsAt_eq_false h hloop hstart hentered
    rw [Place.changes, Bool.or_eq_true, Bool.and_eq_true] at hchanges
    rcases hchanges with hvariable | ⟨hreads, hstores⟩
    · obtain ⟨v, hv, hvariable⟩ := List.any_eq_true.mp hvariable
      simp only [Dependence.endsAt, hkind, hd, Bool.true_and, Bool.or_eq_false_iff, List.any_eq_false] at hends
      exact absurd (List.any_eq_true.mpr ⟨_, hq, hvariable⟩) (hends.2 v hv)
    · exact ⟨hreads, w, hw, by omega, hstores⟩
  · rintro ⟨hreads, w, hw, -, hstores⟩
    refine List.any_eq_true.mpr ⟨u.placeOf w, List.mem_map_of_mem hw, ?_⟩
    have hstores : (u.placeOf w).tree.storesMemory = true := hstores
    simp [Place.changes, hreads, hstores]

/-- The finding compares `first`, an operand of the condition `c` of the statement `t`, with `inner` in the body
`b` of the statement. -/
structure Compares (u : SourceUnit) (f : Finding) (t c b first inner : Tree) : Prop where
  subjects : f.subjects = [u.placeOf first, u.placeOf inner]
  listed : t ∈ u.listing
  condition : t.condition? = some c
  body : t.body? = some b
  operand : first ∈ c.chain (.logic .and)
  inside : inner ∈ b.subtrees

/-- Between the two conditions that the finding compares, the outer one is changed at most by an operand of the
condition that it belongs to, without a call that may modify state, or by the step of a `for`. -/
def IsChangedOutsideBody (u : SourceUnit) (f : Finding) : Prop :=
  ∃ t c b first inner, u.Compares f t c b first inner ∧
    ∀ q ∈ u.between first inner, q.changes first = true →
      (q.tree ∈ c.subtrees ∧ q.tree.isModifyingCall = false) ∨
        ∃ step, t.step? = some step ∧ q.tree ∈ step.subtrees

end SourceUnit

/-- Between an operand of a condition and a condition that is reported under it, the operand is changed at most
by the condition itself, without a call that may modify state, or by the step of a `for`. The body changes
nothing of it. Units of drafts without shared nodes are unshared and resolved. -/
theorem inner_reports_changed_outside_body {u : SourceUnit} (hu : u.IsUnshared) (hresolved : u.IsResolved)
    {o : Options} {l : Ledger} {f : Finding} (hf : f ∈ Check.innerCondition.reports o u l)
    (hrule : (f.diagnostic u).rule = "oppositeInnerCondition" ∨
      (f.diagnostic u).rule = "identicalInnerCondition") : u.IsChangedOutsideBody f := by
  obtain ⟨t, c, b, d, m, s, first, inner, hg, hm, hfirst, hsubjects, -⟩ :=
    hu.exists_meets_of_mem_reports hf hrule
  have hinner := hg.mem_body_of_meets hu hm
  have hoperand := hg.mem_subtrees_of_mem_chain hu hfirst
  refine ⟨t, c, b, first, inner, ⟨hsubjects, hg.listed, hg.condition, hg.body, hfirst, hinner⟩, ?_⟩
  intro q hq hchanges
  obtain ⟨w, rfl, -, hfront, hcases⟩ := hg.of_mem_between hu hoperand hinner hq
  rcases hcases with hcondition | hstep | hbody
  · exact Or.inl ⟨hcondition, isModifyingCall_of_dependence? hg.dependence hcondition⟩
  · exact Or.inr hstep
  · have hunchanged := hg.changes_in_body hu hm hbody hfront
    rw [hresolved.changes_of_mem (hg.condition_listed hu) hoperand hchanges] at hunchanged
    contradiction

/-- Whether the node with the given number changes the outer one of the conditions that a finding compares, and lies
between them. -/
def SourceUnit.isCrossedBy (u : SourceUnit) (f : Finding) (id : NodeId) : Bool :=
  match f.subjects with
  | [first, inner] => (u.between first.tree inner.tree).any fun q => q.id = id && q.changes first.tree
  | _ => false

/-- The actions make a unit without shared nodes, in which an inner condition is reported as identical to the outer
one, although the node with the given number lies in between and changes the outer one. -/
def Draft.ReportsAcross (actions : List Action) (id : NodeId) : Prop :=
  ∃ d : Draft, Draft.performAll? { file := "a.c" } actions = some d ∧ d.IsUnshared ∧
    ∃ f ∈ Check.innerCondition.reports {} d.finish {}, (f.diagnostic d.finish).rule = "identicalInnerCondition" ∧
      d.finish.isCrossedBy f id = true ∧ d.finish.IsChangedOutsideBody f

/-- `if (x == 1 && (x = 2)) { if (x == 1) {} }`, where `x = 2` has the number 5 -/
def Draft.assignedBeside : List Action :=
  [.declare "x" .int { isLocal := true },
    .reference 0, .literal (.decimal 1) .int, .binary (.compare .eq) 0 1,
    .reference 0, .literal (.decimal 2) .int, .binary .assign 3 4, .binary (.logic .and) 2 5,
    .reference 0, .literal (.decimal 1) .int, .binary (.compare .eq) 7 8, .block [], .statement (.ifStmt false) [9, 10],
    .block [11], .statement (.ifStmt false) [6, 12]]

/-- `for (; x < 10; ++x) { if (x < 10) {} }`, where `++x` has the number 4 -/
def Draft.countingUp : List Action :=
  [.declare "x" .int { isLocal := true },
    .reference 0, .literal (.decimal 10) .int, .binary (.compare .lt) 0 1, .reference 0, .unary .preInc 3,
    .reference 0, .literal (.decimal 10) .int, .binary (.compare .lt) 5 6, .block [], .statement (.ifStmt false) [7, 8],
    .block [9], .forLoop none (some 2) (some 4) 10]

/-- The inner `x == 1` is reported although the other operand of the outer condition assigns to `x`, and the inner
`x < 10` although `++x` is listed between it and the outer one. -/
theorem inner_reports_changed_outside_body_assignedBeside :
    Draft.ReportsAcross Draft.assignedBeside 5 ∧ Draft.ReportsAcross Draft.countingUp 4 := by
  have hacross {actions : List Action} {id : NodeId} (h : ∃ d : Draft,
      Draft.performAll? { file := "a.c" } actions = some d ∧ d.IsUnshared ∧
      ∃ f ∈ Check.innerCondition.reports {} d.finish {}, (f.diagnostic d.finish).rule = "identicalInnerCondition" ∧
        d.finish.isCrossedBy f id = true) : Draft.ReportsAcross actions id := by
    obtain ⟨d, hd, hu, f, hf, hrule, hcrossed⟩ := h
    exact ⟨d, hd, hu, f, hf, hrule, hcrossed, inner_reports_changed_outside_body (Draft.isUnshared_finish hd hu)
      (Draft.isResolved_finish hd) hf (Or.inr hrule)⟩
  constructor
  · apply hacross
    have hd : Draft.performAll? { file := "a.c" } Draft.assignedBeside = some _ := rfl
    refine ⟨_, hd, by decide, ?_⟩
    rw [Draft.finish_eq hd (by decide)]
    decide +kernel
  · apply hacross
    have hd : Draft.performAll? { file := "a.c" } Draft.countingUp = some _ := rfl
    refine ⟨_, hd, by decide, ?_⟩
    rw [Draft.finish_eq hd (by decide)]
    decide +kernel

/-- A loop around a condition that a finding is about changes the outer condition only through memory, and only
behind the inner one. -/
def SourceUnit.LoopsThroughMemory (u : SourceUnit) (f : Finding) : Prop :=
  ∃ t c b outer inner, f.subjects = [u.placeOf outer, u.placeOf inner] ∧ t ∈ u.listing ∧
    t.condition? = some c ∧ t.body? = some b ∧ outer ∈ c.subtrees ∧
    ∀ loop, u.placeOf loop ∈ u.followed t b → loop.isLoop = true → inner ∈ loop.subtrees →
      (u.changesWithin c loop = true ↔ c.readsMemory = true ∧
        ∃ w ∈ loop.subtrees, u.position inner + inner.size ≤ u.position w ∧ w.storesMemory = true)

/-- A loop around a reported condition changes the outer condition only through memory, and only behind the
reported one. -/
theorem loops_around_reports_change_memory {u : SourceUnit} (hu : u.IsUnshared) {o : Options} {l : Ledger}
    {f : Finding} (hf : f ∈ Check.innerCondition.reports o u l) : u.LoopsThroughMemory f := by
  obtain ⟨t, c, b, d, hg, hcases⟩ := SourceUnit.exists_guards_of_mem_reports hf
  have hd := SourceUnit.vars_of_dependence? hg.dependence
  rcases hcases with hinside | hbehind
  · obtain ⟨m, s, inner, first, hm, hfirst, hsubjects, -⟩ := hg.exists_meets_inside hu hinside
    refine ⟨t, c, b, first, inner, hsubjects, hg.listed, hg.condition, hg.body,
      hg.mem_subtrees_of_mem_chain hu hfirst, ?_⟩
    intro loop hfollowed hkind haround
    obtain ⟨hloop, hposition⟩ := hg.of_mem_followed hu hfollowed
    have hinner := hu.range_of_mem_subtrees (hg.body_listed hu) (hg.mem_body_of_meets hu hm)
    have hrange := hu.range_of_mem_subtrees hloop haround
    have hsize := inner.size_pos
    exact hm.changesWithin_iff hu hd hloop (by omega) hkind (mem_subtrees_self inner) haround
  · obtain ⟨block, m, s, second, leaf, -, -, -, -, -, hm, hleaf, rfl⟩ := hg.exists_meets_behind hu hbehind
    refine ⟨t, c, b, c, leaf, rfl, hg.listed, hg.condition, hg.body, mem_subtrees_self c, ?_⟩
    intro loop hfollowed hkind haround
    obtain ⟨hloop, hposition⟩ := hg.of_mem_followed hu hfollowed
    have hsecond := (SourceUnit.isInfix_listing hm.listed).subset (hm.mem_subtrees hu)
    have hleafrange := hu.range_of_mem_subtrees hsecond hleaf
    have hrange := hu.range_of_mem_subtrees hloop haround
    -- A loop in the body ends with the body, so it does not reach the condition behind it.
    have hstart : u.position b + b.size ≤ u.position loop := by
      by_contra hinside
      have hbodystart : u.position b ≤ u.bodyStart b := Nat.le_add_right _ _
      have hloopbody : loop ∈ b.subtrees :=
        (hu.mem_subtrees_iff (hg.body_listed hu) hloop).mpr (by omega)
      have hbody := hu.range_of_mem_subtrees (hg.body_listed hu) hloopbody
      have hs := hm.position_eq hu
      have hposition := hm.position_inner hu
      have hsize := leaf.size_pos
      omega
    exact hm.changesWithin_iff hu hd hloop hstart hkind hleaf haround

/-- What the pointer `p` points to. -/
def Tree.pointee (id : NodeId) : Tree :=
  plain id (.unary .deref) .int none [ofVariable (id + 1) (.onStack 2 "p" CType.int.pointerTo)]

/-- `while (y) { if (*p > 0) {} *p = 0; }` -/
def pollingLoop : Tree :=
  ofStatement 6 (.keyword .whileStmt)
    [ofVariable 7 (.onStack 1 "y" .int),
      ofStatement 8 .block
        [ofIf 9 (ofOperator 10 (.compare .gt) (pointee 11) (ofInt 13 0)) (ofStatement 14 .block []),
          plain 15 (.binary .assign) .int none [pointee 16, ofInt 18 0]]]

/-- `if (*p > 0) { while (y) { if (*p > 0) {} *p = 0; } }` -/
def polling : Tree :=
  ofIf 0 (ofOperator 1 (.compare .gt) (pointee 2) (ofInt 4 0)) (ofStatement 5 .block [pollingLoop])

/-- The inner `*p > 0` is reported as identical to the outer one, although the loop comes back to it behind the
store. -/
theorem loops_around_reports_change_memory_polling :
    let u := SourceUnit.ofTree polling
    (∃ c b, polling.condition? = some c ∧ polling.body? = some b ∧
        u.placeOf pollingLoop ∈ u.followed polling b ∧ u.changesWithin c pollingLoop = true) ∧
      ∃ f ∈ Check.innerCondition.reports {} u {},
        (f.diagnostic u).rule = "identicalInnerCondition" ∧ f.subjects.map Place.id = [1, 10] ∧
        u.LoopsThroughMemory f := by
  intro u
  have hu : u.IsUnshared := SourceUnit.isUnshared_ofTree (by decide) (by decide)
  obtain ⟨outer, inner, hreports, hids⟩ : ∃ outer inner : Place,
      Check.innerCondition.reports {} u {} = [.identicalInner outer inner] ∧
        [outer, inner].map Place.id = [1, 10] := ⟨_, _, rfl, rfl⟩
  have hf : .identicalInner outer inner ∈ Check.innerCondition.reports {} u {} := by simp [hreports]
  exact ⟨⟨_, _, rfl, rfl, List.mem_of_getElem? (i := 0) rfl, rfl⟩, _, hf, rfl, hids,
    loops_around_reports_change_memory hu hf⟩

/-- When an assignment through a pointer lies between the conditions that the finding compares, although the
address of a variable of the outer condition is taken somewhere, then an opposite condition is found only over
addresses of parts, the assignment is in the step of a `for` or the variable is on the stack and the condition reads
no memory, and in the body the address is taken before only for a call. -/
def SourceUnit.CrossesAliasedStores (u : SourceUnit) (f : Finding) : Prop :=
  ∃ t c b first inner, u.Compares f t c b first inner ∧
    ∀ v ∈ c.vars, ∀ n ∈ (u.placeOf c).root.subtrees, n.takesAddressOf v = true →
      ∀ q ∈ u.between c inner, q.tree.storesThroughPointer = true →
        ((f.diagnostic u).rule = "oppositeInnerCondition" →
            ∀ a, n.operand? 0 = some a → a.varId? ≠ some v.id) ∧
          ((q.tree ∈ b.subtrees ∧ v.isLocalStorage = true ∧ c.readsMemory = false) ∨
            ∃ step, t.step? = some step ∧ q.tree ∈ step.subtrees) ∧
          (n ∈ b.subtrees → u.position n < u.position inner → (u.placeOf n).inCall = true)

/-- A report on an inner condition crosses assignments through pointers only as far as the variables of the outer
condition are on the stack and their addresses are not taken in plain sight. -/
theorem inner_reports_across_aliased_store {u : SourceUnit} (hu : u.IsUnshared) {o : Options} {l : Ledger}
    {f : Finding} (hf : f ∈ Check.innerCondition.reports o u l)
    (hrule : (f.diagnostic u).rule = "oppositeInnerCondition" ∨
      (f.diagnostic u).rule = "identicalInnerCondition") : u.CrossesAliasedStores f := by
  obtain ⟨t, c, b, d, m, s, first, inner, hg, hm, hfirst, hsubjects, hfinding⟩ :=
    hu.exists_meets_of_mem_reports hf hrule
  have hinner := hg.mem_body_of_meets hu hm
  refine ⟨t, c, b, first, inner, ⟨hsubjects, hg.listed, hg.condition, hg.body, hfirst, hinner⟩, ?_⟩
  intro v hv n hn htakes q hq hstores
  refine ⟨fun hopposite a ha hvar => ?_, ?_, fun hbody hfront => ?_⟩
  · rcases hfinding with ⟨rfl, haliased⟩ | rfl
    · rw [SourceUnit.isAliased, SourceUnit.vars_of_dependence? hg.dependence, List.any_eq_false] at haliased
      have haddress : n.isUnary .addressOf = true := (Bool.and_eq_true_iff.mp htakes).1
      exact haliased v hv (Bool.or_eq_true_iff.mpr (Or.inr (List.any_eq_true.mpr
        ⟨n, hn, by simp [haddress, ha, hvar]⟩)))
    · simp [Finding.diagnostic, Finding.rule] at hopposite
  · obtain ⟨w, rfl, hstart, hfront, hcases⟩ := hg.of_mem_between hu (mem_subtrees_self c) hinner hq
    rcases hcases with hcondition | hstep | hbody
    · have hrange := hu.range_of_mem_subtrees (hg.condition_listed hu) hcondition
      have hsize := w.size_pos
      omega
    · exact Or.inr hstep
    · exact Or.inl ⟨hbody, Place.isLocalStorage_of_changes (hg.changes_in_body hu hm hbody hfront) hv hstores⟩
  · exact Place.inCall_of_changes (hg.changes_in_body hu hm hbody hfront) hv htakes

/-- `x` -/
def Tree.wholeX (id : NodeId) : Tree := ofVariable id (.onStack 0 "x" .int)

/-- `s.m` -/
def Tree.memberOfS (id : NodeId) : Tree :=
  plain id (.member "m" false) .int none [ofVariable (id + 1) (.onStack 3 "s" ⟨.record, .unknown, 0, false⟩)]

section StoredThrough

variable (place : NodeId → Tree) (outer inner : Order × Int) (value : Int)

/-- A comparison of the place with a constant. -/
def placeTest (id : NodeId) (test : Order × Int) : Tree :=
  ofOperator id (.compare test.1) (place (id + 1)) (ofInt (id + 3) test.2)

/-- `&place` -/
def addressOfPlace : Tree := plain 3 (.unary .addressOf) CType.int.pointerTo none [place 4]

/-- `*p = value` -/
def storeThrough : Tree := plain 12 (.binary .assign) .int none [pointee 13, ofInt 15 value]

/-- `{ p = &place; if (outer) { *p = value; if (inner) {} } }`, where both conditions compare the place. -/
def storedThrough : Tree :=
  ofStatement 0 .block
    [plain 1 (.binary .assign) .int none [ofVariable 2 (.onStack 2 "p" CType.int.pointerTo), addressOfPlace place],
      ofIf 6 (placeTest place 7 outer)
        (ofStatement 11 .block
          [storeThrough value, ofIf 16 (placeTest place 17 inner) (ofStatement 21 .block [])])]

/-- The inner condition is reported, although `p` points to the place that the outer one compares and the store
through `p` lies in between. -/
def ReportsOverStore (rule : String) : Prop :=
  let u := SourceUnit.ofTree (storedThrough place outer inner value)
  (∃ v ∈ (placeTest place 7 outer).vars, addressOfPlace place ∈ u.listing ∧
      (addressOfPlace place).takesAddressOf v = true) ∧
    u.placeOf (storeThrough value) ∈ u.between (placeTest place 7 outer) (placeTest place 17 inner) ∧
    (storeThrough value).storesThroughPointer = true ∧
    ∃ f ∈ Check.innerCondition.reports {} u {}, (f.diagnostic u).rule = rule ∧
      f.subjects = [u.placeOf (placeTest place 7 outer), u.placeOf (placeTest place 17 inner)] ∧
      u.CrossesAliasedStores f

end StoredThrough

/-- Behind `p = &x` the store `*p = 2` does not keep an inner `x == 1` from being reported as identical to the outer
one, and behind `p = &s.m` the store `*p = 10` does not keep `s.m > 5` from being reported as opposite to `s.m < 1`. -/
theorem inner_reports_across_aliased_store_storedThrough :
    ReportsOverStore wholeX (.eq, 1) (.eq, 1) 2 "identicalInnerCondition" ∧
      ReportsOverStore memberOfS (.lt, 1) (.gt, 5) 10 "oppositeInnerCondition" := by
  unfold ReportsOverStore
  constructor
  · intro u
    obtain ⟨f, hreports, hrule, hsubjects⟩ : ∃ f : Finding, Check.innerCondition.reports {} u {} = [f] ∧
        (f.diagnostic u).rule = "identicalInnerCondition" ∧
        f.subjects = [u.placeOf (placeTest wholeX 7 (.eq, 1)), u.placeOf (placeTest wholeX 17 (.eq, 1))] :=
      ⟨_, rfl, rfl, rfl⟩
    have hf : f ∈ Check.innerCondition.reports {} u {} := by simp [hreports]
    refine ⟨⟨.onStack 0 "x" .int, by decide, List.mem_of_getElem? (i := 3) rfl, rfl⟩,
      List.mem_of_getElem? (i := 1) rfl, rfl, f, hf, hrule, hsubjects, ?_⟩
    exact inner_reports_across_aliased_store (SourceUnit.isUnshared_ofTree (by decide) (by decide)) hf (Or.inr hrule)
  · intro u
    obtain ⟨f, hreports, hrule, hsubjects⟩ : ∃ f : Finding, Check.innerCondition.reports {} u {} = [f] ∧
        (f.diagnostic u).rule = "oppositeInnerCondition" ∧
        f.subjects = [u.placeOf (placeTest memberOfS 7 (.lt, 1)), u.placeOf (placeTest memberOfS 17 (.gt, 5))] :=
      ⟨_, rfl, rfl, rfl⟩
    have hf : f ∈ Check.innerCondition.reports {} u {} := by simp [hreports]
    refine ⟨⟨.onStack 3 "s" ⟨.record, .unknown, 0, false⟩, by decide, List.mem_of_getElem? (i := 3) rfl, rfl⟩,
      List.mem_of_getElem? (i := 1) rfl, rfl, f, hf, hrule, hsubjects, ?_⟩
    exact inner_reports_across_aliased_store (SourceUnit.isUnshared_ofTree (by decide) (by decide)) hf (Or.inl hrule)

end ConditionLint
