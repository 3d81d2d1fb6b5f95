import ConditionLint.Proofs.Equivalence

/-!
# Side effects of expressions that are the same

Likeness turns away assignments, increments and calls that may modify state wherever it meets them, and it
meets all nodes of both expressions: what it drops from the top is a doubled negation or a call that gives
back its object, and a leaf has nothing below it. So expressions that are the same have none of these
effects. A read from a stream is an effect of another sort. It is a shift with a stream on its left, and
likeness compares it as a shift, so two reads of one stream into one variable are the same.
-/

namespace ConditionLint

/-- Whether a node of this kind is an expression that by itself modifies nothing. A call that gives back its
object is one. -/
def Kind.isStill : Kind → Bool
  | unary op => !op.isIncrement
  | binary op => !op.isAssignment
  | call callee => callee.isConst || callee.isTransparent
  | keyword _ => false
  | block => false
  | empty => false
  | _ => true

namespace Tree

/-- Every node has as many operands as its kind settles. -/
inductive IsFormed : Tree → Prop
  | node {l : Label} {ts : List Tree} (count : ∀ n ∈ l.kind.arity?, ts.length = n)
      (below : ∀ t ∈ ts, IsFormed t) : IsFormed (node l ts)

/-- A tree is well formed when its topmost node is and all trees below are. -/
theorem isFormed_node_iff {l : Label} {ts : List Tree} :
    (node l ts).IsFormed ↔ (∀ n ∈ l.kind.arity?, ts.length = n) ∧ ∀ t ∈ ts, t.IsFormed :=
  ⟨fun ⟨count, below⟩ => ⟨count, below⟩, fun ⟨count, below⟩ => .node count below⟩

namespace IsFormed

variable {t a : Tree}

/-- The topmost node has as many operands as its kind settles. -/
theorem count (h : t.IsFormed) : ∀ n ∈ t.kind.arity?, t.operands.length = n := by
  obtain ⟨count, -⟩ := h
  exact count

/-- The operands of a well formed tree are well formed. -/
theorem operand (h : t.IsFormed) (ha : a ∈ t.operands) : a.IsFormed := by
  obtain ⟨-, below⟩ := h
  exact below a ha

/-- Laying out trees changes no number of operands. -/
theorem isKept : IsKept IsFormed where
  operand h ha := h.operand ha
  relabel h _ _ := node h.count fun _ ha => h.operand ha
  rebuild {l ts us} h hids hus := by
    have hlength : us.length = ts.length := by simpa using congrArg List.length hids
    exact node (hlength ▸ h.count) hus

/-- Changing labels but not kinds leaves trees well formed. -/
theorem mapLabels (h : t.IsFormed) {f : Label → Label} (hkind : ∀ l, (f l).kind = l.kind) :
    (t.mapLabels f).IsFormed := by
  induction h with
  | @node l ts count _ ih =>
    rw [Tree.mapLabels, mapLabelsOf_eq]
    refine node ?_ fun t ht => ?_
    · rwa [hkind, List.length_map]
    · obtain ⟨s, hs, rfl⟩ := List.mem_map.mp ht
      exact ih s hs

/-- What is left after dropping from the top is well formed. -/
theorem core (h : t.IsFormed) : t.core.IsFormed := of_core (fun _ ht _ => ht.operand) h

/-- A leaf has no operands. -/
theorem operands_leaf (h : t.IsFormed) (hleaf : t.kind.isLeaf = true) : t.operands = [] := by
  refine List.eq_nil_of_length_eq_zero (h.count 0 ?_)
  cases hkind : t.kind <;> simp_all [Kind.isLeaf, Kind.arity?]

/-- A binary operator has two operands. -/
theorem operands_binary (h : t.IsFormed) {op : BinaryOp} (hkind : t.kind = .binary op) :
    ∃ a b, t.operands = [a, b] :=
  List.length_eq_two.mp (h.count 2 (by simp [hkind, Kind.arity?]))

end IsFormed

end Tree

namespace Draft

open ConditionLint.Tree

/-- Every step makes and keeps nodes with as many operands as their kinds settle. -/
theorem isFormed_step {d d' : Draft} (h : ∀ t ∈ d.nodes, t.IsFormed) (hstep : d.Step d') :
    ∀ t ∈ d'.nodes, t.IsFormed := by
  have hrelabel {f : Label → Label} (hkind : ∀ l, (f l).kind = l.kind) :
      ∀ t ∈ mapLabelsOf f d.nodes, t.IsFormed := by
    rw [mapLabelsOf_eq]
    exact List.forall_mem_map.mpr fun t ht => (h t ht).mapLabels hkind
  cases hstep with
  | other nodes _ => exact nodes ▸ h
  | add kind ctype made declared arity =>
    refine List.forall_mem_append.mpr ⟨h, List.forall_mem_singleton.mpr ?_⟩
    exact .node arity fun t ht => h t (made t ht)
  | update id number kind =>
    refine hrelabel fun l => ?_
    split
    · exact kind l
    · rfl
  | declare name ctype storage => exact h
  | restore var change => exact hrelabel fun _ => rfl

/-- The trees of a finished unit are well formed. -/
theorem isFormed_of_mem_listing {file : String} {actions : List Action} {d : Draft}
    (h : performAll? { file := file } actions = some d) {t : Tree} (ht : t ∈ d.finish.listing) :
    t.IsFormed :=
  IsFormed.isKept.of_mem_listing
    (of_performAll? (P := fun d => ∀ t ∈ d.nodes, t.IsFormed) isFormed_step (by simp) h) ht

end Draft

namespace Tree

/-- No node of the expression is an assignment, an increment or a call that may modify state. -/
def IsStill : Tree → Prop := Everywhere fun l => l.kind.isStill = true

/-- What is dropped from the top of an expression modifies nothing. -/
theorem IsStill.of_core {t : Tree} (h : t.core.IsStill) : t.IsStill := by
  fun_induction core t with
  | case1 l l' inner hkind hkind' ih =>
    have hnegated : (node l' [inner]).IsStill :=
      .node (by rw [hkind']; rfl) (List.forall_mem_singleton.mpr (ih h))
    exact .node (by rw [hkind]; rfl) (List.forall_mem_singleton.mpr hnegated)
  | case3 l callee object hkind hcallee ih =>
    exact .node (by simp [hkind, Kind.isStill, hcallee]) (List.forall_mem_singleton.mpr (ih h))
  | _ => exact h

/-- Nodes whose labels agree modify nothing by themselves. -/
theorem isStill_of_labelsAgree {l m : Label} (h : labelsAgree l m = true) : l.kind.isStill = true := by
  unfold labelsAgree at h
  split at h <;> grind [Kind.isStill]

/-- Each entry of a list has one like it in a list of the same expressions. -/
theorem exists_of_sameAll {ts us : List Tree} (h : sameAll ts us = true) {t : Tree} (ht : t ∈ ts) :
    ∃ u ∈ us, same t u = true := by
  induction ts generalizing us with
  | nil => exact absurd ht List.not_mem_nil
  | cons s ts ih =>
    obtain ⟨u, rest, rfl, hu, hrest⟩ := eq_cons_of_sameAll h
    rcases List.mem_cons.mp ht with rfl | ht
    · exact ⟨u, List.mem_cons_self, hu⟩
    · obtain ⟨v, hv, hsame⟩ := ih hrest ht
      exact ⟨v, List.mem_cons_of_mem u hv, hsame⟩

/-- A node that is alike another one modifies nothing by itself. It is a leaf, or each of its operands is the
same as an operand of the other. -/
theorem Alike.spec {t u : Tree} (h : Alike t u) : t.kind.isStill = true ∧
    (t.kind.isLeaf = true ∨ ∀ a ∈ t.operands, ∃ b ∈ u.operands, same a b = true) := by
  cases h with
  | leaf agree =>
    have hleaf := isLeaf_of_leavesAgree agree
    refine ⟨?_, Or.inl hleaf⟩
    cases hkind : t.kind <;> simp_all [Kind.isLeaf, Kind.isStill]
  | inOrder left _ effectless first second =>
    refine ⟨by simp [kind, label, left, Kind.isStill, effectless], Or.inr ?_⟩
    simp [operands, first, second]
  | exchanged left _ swap first second =>
    refine ⟨by simp [kind, label, left, Kind.isStill, isAssignment_of_agreeSwapped swap], Or.inr ?_⟩
    simp [operands, first, second]
  | oneByOne agree all => exact ⟨isStill_of_labelsAgree agree, Or.inr fun a ha => exists_of_sameAll all ha⟩

/-- An expression that is the same as another has no assignment, no increment and no modifying call. -/
theorem isStill_of_same {t u : Tree} (ht : t.IsFormed) (h : same t u = true) : t.IsStill := by
  induction t using induction_core generalizing u with
  | step t ih =>
    obtain ⟨hstill, hoperands⟩ := (same_iff_alike.mp h).spec
    have hcore := ht.core
    apply IsStill.of_core
    have hbelow : ∀ a ∈ t.core.operands, a.IsStill := by
      intro a ha
      rcases hoperands with hleaf | hsame
      · exact absurd ha (hcore.operands_leaf hleaf ▸ List.not_mem_nil)
      · obtain ⟨b, -, hab⟩ := hsame a ha
        exact ih a ha (hcore.operand ha) hab
    cases hleft : t.core with
    | node l ts =>
      rw [hleft] at hstill hbelow
      exact .node hstill hbelow

/-- A value is read only from what is shifted to the right. -/
theorem isBinary_of_readTarget? {t : Tree} (h : t.readTarget?.isSome = true) :
    t.kind = .binary (.arith .shr) := by
  unfold readTarget? at h
  split at h
  · next hread => exact of_decide_eq_true (Bool.and_eq_true_iff.mp hread).1
  · contradiction

/-- Two shifts to the right are the same exactly when their operands are, one by one. -/
theorem same_shifts {t u : Tree} (ht : t.IsFormed) (hu : u.IsFormed)
    (htkind : t.kind = .binary (.arith .shr)) (hukind : u.kind = .binary (.arith .shr)) :
    same t u = sameAll t.operands u.operands := by
  obtain ⟨a, b, hts⟩ := ht.operands_binary htkind
  obtain ⟨c, d, hus⟩ := hu.operands_binary hukind
  obtain ⟨l, ts⟩ := t
  obtain ⟨m, us⟩ := u
  obtain rfl : ts = [a, b] := hts
  obtain rfl : us = [c, d] := hus
  have hl : l.kind = .binary (.arith .shr) := htkind
  have hm : m.kind = .binary (.arith .shr) := hukind
  have hfixed : agreeSwapped (.arith .shr) (.arith .shr) = false := by decide
  rw [Bool.eq_iff_iff, same_iff_alike, core_pair, core_pair, alike_pair_iff hl]
  simp [binary?, hm, hfixed, operands, sameAll, BinaryOp.isAssignment]

end Tree

open ConditionLint.Tree in
/-- Expressions that are the same have no assignment, no increment and no call that may modify state. But they
may read from a stream: two reads are the same as soon as their streams and their targets are. -/
theorem effects_of_same {file : String} {actions : List Action} {d : Draft}
    (h : Draft.performAll? { file := file } actions = some d) :
    ∀ t ∈ d.finish.listing, ∀ u ∈ d.finish.listing,
      (same t u = true → t.IsStill ∧ u.IsStill) ∧
        (t.readTarget?.isSome = true → u.readTarget?.isSome = true →
          same t u = sameAll t.operands u.operands) := by
  intro t ht u hu
  have htformed := Draft.isFormed_of_mem_listing h ht
  have huformed := Draft.isFormed_of_mem_listing h hu
  refine ⟨fun hsame => ?_, fun htread huread => ?_⟩
  · exact ⟨isStill_of_same htformed hsame, isStill_of_same huformed (same_symm hsame)⟩
  · exact same_shifts htformed huformed (isBinary_of_readTarget? htread) (isBinary_of_readTarget? huread)

/-- `cin >> x` twice, for an integer `x`. -/
def readTwice : List Action :=
  [.declare "x" .int {}, .name "cin", .reference 0, .binary (.arith .shr) 0 1,
    .name "cin", .reference 0, .binary (.arith .shr) 3 4]

/-- Both reads store into `x`, and they are the same although the second one gives another number. -/
theorem effects_of_same_readTwice :
    ∃ d, Draft.performAll? { file := "main.cpp" } readTwice = some d ∧
      ∃ t ∈ d.finish.listing, ∃ u ∈ d.finish.listing, t.id ≠ u.id ∧
        t.readTarget?.isSome = true ∧ u.readTarget?.isSome = true ∧ Tree.same t u = true ∧
          t.IsStill ∧ u.IsStill := by
  have hd : Draft.performAll? { file := "main.cpp" } readTwice = some _ := rfl
  refine ⟨_, hd, _, List.mem_of_getElem? (i := 0) rfl, _, List.mem_of_getElem? (i := 3) rfl, by decide,
    rfl, rfl, ?_⟩
  obtain ⟨hstill, hreads⟩ := effects_of_same hd _ (List.mem_of_getElem? (i := 0) rfl) _
    (List.mem_of_getElem? (i := 3) rfl)
  have hsame := (hreads rfl rfl).trans rfl
  exact ⟨hsame, hstill hsame⟩

end ConditionLint
