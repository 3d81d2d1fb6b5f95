import ConditionLint.Proofs.Position
import ConditionLint.Proofs.Sharing
import ConditionLint.Proofs.SideEffects
import Mathlib.Logic.Relation

/-!
# Flattening a chain of one operator

The operands of a chain are found by a walk that keeps a stack of trees to look at. It replaces a tree that applies the
operator by its two operands and puts any other tree to the result. So it is done with a tree when the operands of that
tree are found, and it ends with the operands of the whole chain.

Every operand is reached on one way, which goes left or right at each operator. The operands are found in the order of
their ways, each way once. This is the order of their positions too, unless a node on a way is listed somewhere else: a
node that is shared, or that is the body of a function, has its position where it is met first. A conjunction is true
when all operands of its chain are, and a disjunction when one of them is.
-/

namespace ConditionLint

open ConditionLint.Tree

namespace Tree

variable {op : BinaryOp} {l : Label} {a b s t : Tree}

/-- A tree that applies the operator has the operands of its left side, then those of its right side. -/
theorem chain_node (hkind : l.kind = .binary op) : (node l [a, b]).chain op = a.chain op ++ b.chain op := by
  rw [chain, if_pos hkind]

/-- Any other tree stands for itself. -/
theorem chain_of_isBinary (h : t.isBinary op = false) : t.chain op = [t] := by
  have hkind : t.kind ≠ .binary op := by simpa [isBinary] using h
  unfold chain
  split
  · exact if_neg hkind
  · rfl

/-- A formed tree applies the operator to two operands, or it does not apply the operator. -/
theorem IsFormed.chain_induction {motive : (t : Tree) → t.IsFormed → Prop} (op : BinaryOp)
    (operator : ∀ l a b (ha : a.IsFormed) (hb : b.IsFormed) (h : (Tree.node l [a, b]).IsFormed),
      l.kind = .binary op → motive a ha → motive b hb → motive (Tree.node l [a, b]) h)
    (operand : ∀ t (h : t.IsFormed), t.isBinary op = false → motive t h) {t : Tree} (h : t.IsFormed) : motive t h := by
  induction h with
  | @node l ts count below ih =>
    by_cases hkind : l.kind = .binary op
    · obtain ⟨a, b, rfl⟩ := (IsFormed.node count below).operands_binary hkind
      exact operator l a b _ _ _ hkind (ih a (by simp)) (ih b (by simp))
    · exact operand _ _ (decide_eq_false hkind)

/-! ## The walk -/

/-- What is known while the operands of a chain are looked for. -/
structure Walk where
  /-- The trees still to be looked at, the next one first. -/
  pending : List Tree
  /-- The operands that were found. -/
  found : List Tree

namespace Walk

/-- Look at the next tree. -/
def step? (op : BinaryOp) (w : Walk) : Option Walk :=
  match w.pending with
  | [] => none
  | t :: rest =>
    match t.binary? with
    | some (op', lhs, rhs) => if op' = op then some ⟨lhs :: rhs :: rest, w.found⟩ else some ⟨rest, w.found ++ [t]⟩
    | none => some ⟨rest, w.found ++ [t]⟩

/-- One walk comes from another by looking at the next tree. -/
def Step (op : BinaryOp) (w w' : Walk) : Prop := w.step? op = some w'

variable {rest found : List Tree}

/-- At the operator, the walk goes on with both operands. -/
theorem step_operator (hkind : l.kind = .binary op) :
    Step op ⟨node l [a, b] :: rest, found⟩ ⟨a :: b :: rest, found⟩ := by
  simp [Step, step?, binary?, hkind]

/-- Anything else is an operand that was found. -/
theorem step_operand (h : t.isBinary op = false) : Step op ⟨t :: rest, found⟩ ⟨rest, found ++ [t]⟩ := by
  unfold Step step?
  split
  · contradiction
  · next heq =>
    obtain ⟨rfl, rfl⟩ := List.cons.inj heq
    split
    · next op' lhs rhs hbinary =>
      obtain ⟨l, rfl, hkind⟩ := eq_node_of_binary? hbinary
      rw [if_neg]
      rintro rfl
      simp [isBinary, kind, label, hkind] at h
    · rfl

/-- The walk finds the operands of the next tree and then has the rest to look at. -/
theorem runs (h : t.IsFormed) (rest found : List Tree) :
    Relation.ReflTransGen (Step op) ⟨t :: rest, found⟩ ⟨rest, found ++ t.chain op⟩ := by
  induction h using IsFormed.chain_induction op generalizing rest found with
  | operator l a b _ _ _ hkind iha ihb =>
    rw [chain_node hkind, ← List.append_assoc]
    exact .head (step_operator hkind) ((iha _ _).trans (ihb _ _))
  | operand t _ hother =>
    rw [chain_of_isBinary hother]
    exact .single (step_operand hother)

end Walk

/-! ## Ways to the operands -/

/-- Going down from one tree to another through one operator only: to the left at `false`, to the right at `true`. -/
inductive Leads (op : BinaryOp) : List Bool → Tree → Tree → Prop
  | here (t : Tree) : Leads op [] t t
  | left {l : Label} {a b s : Tree} {way : List Bool} (hkind : l.kind = .binary op) (h : Leads op way a s) :
      Leads op (false :: way) (node l [a, b]) s
  | right {l : Label} {a b s : Tree} {way : List Bool} (hkind : l.kind = .binary op) (h : Leads op way b s) :
      Leads op (true :: way) (node l [a, b]) s

/-- The way to a tree from one step further up. -/
def behind (side : Bool) (w : List Bool × Tree) : List Bool × Tree := (side :: w.1, w.2)

/-- The operands of a chain, each with the way to it. -/
def ways (op : BinaryOp) : Tree → List (List Bool × Tree)
  | node l [lhs, rhs] =>
    if l.kind = .binary op then (ways op lhs).map (behind false) ++ (ways op rhs).map (behind true)
    else [([], node l [lhs, rhs])]
  | t => [([], t)]

variable {way : List Bool}

/-- Through the operator, the ways lead to the left and to the right. -/
theorem ways_node (hkind : l.kind = .binary op) :
    (node l [a, b]).ways op = (a.ways op).map (behind false) ++ (b.ways op).map (behind true) := by
  rw [ways, if_pos hkind]

/-- The only way to an operand of the chain from itself is the empty one. -/
theorem ways_of_isBinary (h : t.isBinary op = false) : t.ways op = [([], t)] := by
  have hkind : t.kind ≠ .binary op := by simpa [isBinary] using h
  unfold ways
  split
  · exact if_neg hkind
  · rfl

/-- A tree that does not apply the operator leads to itself only. -/
theorem leads_of_isBinary (h : t.isBinary op = false) : Leads op way t s ↔ way = [] ∧ s = t := by
  have hkind : t.kind ≠ .binary op := by simpa [isBinary] using h
  constructor
  · intro hleads
    cases hleads with
    | here => exact ⟨rfl, rfl⟩
    | left heq => exact absurd heq hkind
    | right heq => exact absurd heq hkind
  · rintro ⟨rfl, rfl⟩
    exact .here s

/-- The ways lead to the operands of the chain, in their order. -/
theorem map_snd_ways (h : t.IsFormed) : (t.ways op).map Prod.snd = t.chain op := by
  induction h using IsFormed.chain_induction op with
  | operator l a b _ _ _ hkind iha ihb =>
    rw [ways_node hkind, chain_node hkind, ← iha, ← ihb, List.map_append, List.map_map, List.map_map]
    rfl
  | operand t _ hother => rw [ways_of_isBinary hother, chain_of_isBinary hother, List.map_singleton]

/-- The operands are met from left to right, each once. -/
theorem pairwise_ways (h : t.IsFormed) : (t.ways op).Pairwise fun v w => v.1 < w.1 := by
  induction h using IsFormed.chain_induction op with
  | operator l a b _ _ _ hkind iha ihb =>
    rw [ways_node hkind, List.pairwise_append]
    refine ⟨?_, ?_, ?_⟩
    · exact List.pairwise_map.mpr (iha.imp fun hlt => List.cons_lt_cons_iff.mpr (Or.inr ⟨rfl, hlt⟩))
    · exact List.pairwise_map.mpr (ihb.imp fun hlt => List.cons_lt_cons_iff.mpr (Or.inr ⟨rfl, hlt⟩))
    · simp only [List.forall_mem_map]
      exact fun _ _ _ _ => List.cons_lt_cons_iff.mpr (Or.inl (by decide))
  | operand t _ hother =>
    rw [ways_of_isBinary hother]
    exact List.pairwise_singleton _ _

/-- The operands are what the ways lead to that does not apply the operator. -/
theorem mem_ways_iff (h : t.IsFormed) : (way, s) ∈ t.ways op ↔ Leads op way t s ∧ s.isBinary op = false := by
  induction h using IsFormed.chain_induction op generalizing way with
  | operator l a b _ _ _ hkind iha ihb =>
    rw [ways_node hkind, List.mem_append, List.mem_map, List.mem_map]
    constructor
    · rintro (⟨w, hmem, heq⟩ | ⟨w, hmem, heq⟩)
      · obtain ⟨rfl, rfl⟩ := Prod.mk.inj heq
        obtain ⟨hleads, hother⟩ := iha.mp hmem
        exact ⟨.left hkind hleads, hother⟩
      · obtain ⟨rfl, rfl⟩ := Prod.mk.inj heq
        obtain ⟨hleads, hother⟩ := ihb.mp hmem
        exact ⟨.right hkind hleads, hother⟩
    · rintro ⟨hleads, hother⟩
      cases hleads with
      | here => simp [isBinary, kind, label, hkind] at hother
      | left _ hleads => exact Or.inl ⟨_, iha.mpr ⟨hleads, hother⟩, rfl⟩
      | right _ hleads => exact Or.inr ⟨_, ihb.mpr ⟨hleads, hother⟩, rfl⟩
  | operand t _ hother =>
    rw [ways_of_isBinary hother, leads_of_isBinary hother, List.mem_singleton, Prod.mk.injEq]
    refine ⟨?_, And.left⟩
    rintro ⟨rfl, rfl⟩
    exact ⟨⟨rfl, rfl⟩, hother⟩

/-- Where nothing below the tree is listed somewhere else, the operands are listed in the order of the chain. -/
theorem chain_sublist_subtrees (h : t.IsFormed)
    (hhere : ∀ way s, way ≠ [] → Leads op way t s → s.isElsewhere = false) :
    (t.chain op).Sublist t.subtrees := by
  induction h using IsFormed.chain_induction op with
  | operator l a b _ _ _ hkind iha ihb =>
    have hlhs := iha fun way s _ hleads => hhere (false :: way) s (by simp) (.left hkind hleads)
    have hrhs := ihb fun way s _ hleads => hhere (true :: way) s (by simp) (.right hkind hleads)
    have hsubtrees : (node l [a, b]).subtrees = node l [a, b] :: (a.subtrees ++ b.subtrees) := by
      simp [subtrees, subtreesOf, hhere [false] a (by simp) (.left hkind (.here a)),
        hhere [true] b (by simp) (.right hkind (.here b))]
    rw [chain_node hkind, hsubtrees]
    exact (hlhs.append hrhs).cons _
  | operand t _ hother =>
    rw [chain_of_isBinary hother, List.singleton_sublist]
    exact mem_subtrees_self t

end Tree

/-! ## Chains of a unit -/

namespace Connective

/-- The truth value of any number of operands joined by the connective: all of them are true, or some of them is. -/
def evalAll : Connective → List Bool → Bool
  | and, operands => operands.all fun b => b
  | or, operands => operands.any fun b => b

/-- One operand alone has its own truth value. -/
theorem evalAll_singleton (c : Connective) (b : Bool) : c.evalAll [b] = b := by
  cases c <;> simp [evalAll]

/-- Operands may be joined in two groups. -/
theorem evalAll_append (c : Connective) (bs cs : List Bool) :
    c.evalAll (bs ++ cs) = c.eval (c.evalAll bs) (c.evalAll cs) := by
  cases c <;> simp [evalAll, eval]

end Connective

/-- Whether truth values of nodes, by their numbers, agree at a node with what `&&` and `||` mean. -/
def Tree.agrees (truth : NodeId → Bool) (t : Tree) : Bool :=
  match t.kind, t.operandIds with
  | .binary (.logic c), [i, j] => truth t.id == c.eval (truth i) (truth j)
  | _, _ => true

/-- Truth values agree with what `&&` and `||` mean at all nodes of a unit. -/
def SourceUnit.Respects (u : SourceUnit) (truth : NodeId → Bool) : Prop := ∀ s ∈ u.listing, s.agrees truth = true

instance (u : SourceUnit) (truth : NodeId → Bool) : Decidable (u.Respects truth) :=
  inferInstanceAs (Decidable (∀ s ∈ u.listing, s.agrees truth = true))

/-- What a list has to do with a chain of a connective. -/
structure SourceUnit.Flattens (u : SourceUnit) (c : Connective) (t : Tree) (operands : List Tree) : Prop where
  /-- Step by step the walk comes to its end, where nothing is left to look at, and has found the list. -/
  found : Relation.ReflTransGen (Walk.Step (.logic c)) ⟨[t], []⟩ ⟨[], operands⟩
  /-- The list has what the ways lead to that does not apply the connective. -/
  ways : (t.ways (.logic c)).map Prod.snd = operands
  complete : ∀ way s, (way, s) ∈ t.ways (.logic c) ↔ Leads (.logic c) way t s ∧ s.isBinary (.logic c) = false
  /-- The ways go from left to right, each once. -/
  ordered : (t.ways (.logic c)).Pairwise fun v w => v.1 < w.1
  /-- The node is true when all of the list are, or when some of it is. -/
  meaning : ∀ truth, u.Respects truth → truth t.id = c.evalAll ((operands.map Tree.id).map truth)

namespace Draft

variable {file : String} {actions : List Action} {d : Draft}
  (h : Draft.performAll? { file := file } actions = some d) {t : Tree}
include h

/-- The truth of a node that applies a connective comes from that of its operands, also where the node is marked. -/
theorem truth_eq_eval {truth : NodeId → Bool} (htruth : d.finish.Respects truth) {l : Label} {a b : Tree}
    (hcopies : (node l [a, b]).Copies d.nodes) {c : Connective} (hkind : l.kind = .binary (.logic c)) :
    truth l.id = c.eval (truth a.id) (truth b.id) := by
  obtain ⟨r, hr, hid, hkind', hoperands⟩ := exists_listed_of_copies h hcopies
  have hagrees := htruth r hr
  have hids : (node l [a, b]).operandIds = [a.id, b.id] := rfl
  rw [agrees, hkind'.trans hkind, hoperands, hids, hid] at hagrees
  exact beq_iff_eq.mp hagrees

/-- The truth of a node comes from that of the operands of its chain. -/
theorem truth_eq_evalAll {truth : NodeId → Bool} (htruth : d.finish.Respects truth) (c : Connective)
    (hformed : t.IsFormed) (hcopies : t.Copies d.nodes) :
    truth t.id = c.evalAll (((t.chain (.logic c)).map Tree.id).map truth) := by
  induction hformed using IsFormed.chain_induction (.logic c) with
  | operator l a b _ _ _ hkind iha ihb =>
    have hlhs := iha (hcopies.operand (by simp [operands]))
    have hrhs := ihb (hcopies.operand (by simp [operands]))
    rw [chain_node hkind, List.map_append, List.map_append, c.evalAll_append, ← hlhs, ← hrhs]
    exact truth_eq_eval h htruth hcopies hkind
  | operand t _ hother => rw [chain_of_isBinary hother, List.map_singleton, List.map_singleton, c.evalAll_singleton]

/-- What is used once is listed where the ways lead to it. -/
theorem isElsewhere_of_leads (ht : t ∈ d.finish.listing) {op : BinaryOp}
    (hused : ∀ way s, way ≠ [] → Leads op way t s → d.IsUsedOnce s.id) {way : List Bool} {s : Tree}
    (hway : way ≠ []) (hleads : Leads op way t s) : s.isElsewhere = false := by
  have hbelow {r a : Tree} (hr : r ∈ d.finish.listing) (ha : a ∈ r.operands) (hused : d.IsUsedOnce a.id) :
      a.isElsewhere = false ∧ a ∈ d.finish.listing := by
    have hhere := isElsewhere_eq_false h hr ha hused
    have hinfix := (isInfix_subtrees_of_operand ha hhere).trans (SourceUnit.isInfix_listing hr)
    exact ⟨hhere, hinfix.subset (mem_subtrees_self a)⟩
  -- A way from an operand that is listed here ends at the operand or goes on below it.
  have hnext {a s : Tree} {way : List Bool} (hhere : a.isElsewhere = false) (hleads : Leads op way a s)
      (hrest : way ≠ [] → s.isElsewhere = false) : s.isElsewhere = false := by
    cases hleads with
    | here => exact hhere
    | left _ _ => exact hrest (by simp)
    | right _ _ => exact hrest (by simp)
  induction hleads with
  | here => contradiction
  | @left l a b s way hkind hleads ih =>
    obtain ⟨hhere, hlisted⟩ := hbelow ht (by simp [operands]) (hused [false] a (by simp) (.left hkind (.here a)))
    exact hnext hhere hleads
      (ih hlisted fun way s _ hleads => hused (false :: way) s (by simp) (.left hkind hleads))
  | @right l a b s way hkind hleads ih =>
    obtain ⟨hhere, hlisted⟩ := hbelow ht (by simp [operands]) (hused [true] b (by simp) (.right hkind (.here b)))
    exact hnext hhere hleads
      (ih hlisted fun way s _ hleads => hused (true :: way) s (by simp) (.right hkind hleads))

/-- The chain of a node of a unit is found by the walk. It has the operands that are reached through the connective
only, from left to right, each way once, and the node means what they mean together. They stand in the order of their
positions when every node that is reached below is used once. -/
theorem chain_flattens (ht : t ∈ d.finish.listing) (c : Connective) :
    d.finish.Flattens c t (t.chain (.logic c)) ∧
      ((∀ way s, way ≠ [] → Leads (.logic c) way t s → d.IsUsedOnce s.id) →
        (t.chain (.logic c)).Pairwise fun r s => d.finish.position r < d.finish.position s) := by
  have hformed := isFormed_of_mem_listing h ht
  have hcopies := copies_of_mem_listing h ht
  refine ⟨⟨Walk.runs hformed [] [], map_snd_ways hformed, fun _ _ => mem_ways_iff hformed, pairwise_ways hformed,
    fun truth htruth => truth_eq_evalAll h htruth c hformed hcopies⟩, fun hused => ?_⟩
  have hsublist := chain_sublist_subtrees hformed fun way s => isElsewhere_of_leads h ht hused
  exact (SourceUnit.pairwise_position (nodup_finish h)).sublist
    (hsublist.trans (SourceUnit.isInfix_listing ht).sublist)

omit h

/-- `a && (b && (c || e))` -/
def nestedConjunction : List Action :=
  [.name "a", .name "b", .name "c", .name "e", .binary (.logic .or) 2 3, .binary (.logic .and) 1 4,
    .binary (.logic .and) 0 5]

/-- The disjunction is one of the three operands of the nested conjunction. With `b` false and the others true, the
conjunction is false. -/
theorem chain_flattens_nestedConjunction :
    ∃ d, Draft.performAll? { file := "a.c" } nestedConjunction = some d ∧ ∃ t : Tree, d.finish.listing[0]? = some t ∧
      (t.chain (.logic .and)).map Tree.id = [0, 1, 4] ∧
      ((t.chain (.logic .and)).Pairwise fun r s => d.finish.position r < d.finish.position s) ∧
      (d.finish.Respects fun i => i ∉ [1, 5, 6]) ∧
      ∀ truth, d.finish.Respects truth → truth 6 = (truth 0 && (truth 1 && truth 4)) := by
  obtain ⟨d, t, hd, ht, hid, hchain, honce, hrespects⟩ :
      ∃ (d : Draft) (t : Tree), Draft.performAll? { file := "a.c" } nestedConjunction = some d ∧
        d.finish.listing[0]? = some t ∧ t.id = 6 ∧ (t.chain (.logic .and)).map Tree.id = [0, 1, 4] ∧
        ((d.nodes.flatMap operandIds).Nodup ∧ d.functions = []) ∧ d.finish.Respects fun i => i ∉ [1, 5, 6] :=
    ⟨_, _, rfl, rfl, rfl, by decide, by decide, by decide⟩
  obtain ⟨hflattens, hascends⟩ := chain_flattens hd (List.mem_of_getElem? ht) .and
  refine ⟨d, hd, t, ht, hchain, hascends fun _ s _ _ => ⟨?_, by simp [honce.2]⟩, hrespects, fun truth htruth => ?_⟩
  · exact List.nodup_iff_count_le_one.mp honce.1 s.id
  · have hmeaning := hflattens.meaning truth htruth
    rw [hid, hchain] at hmeaning
    simpa [Connective.evalAll] using hmeaning

/-- `a && b`, where `b` is the body of a function as well. -/
def conjunctBody : List Action :=
  [.name "a", .name "b", .binary (.logic .and) 0 1, .function "f" [] .int 1]

/-- The body of a function is listed before the conjunction that has it as its second operand, so the first operand
of the chain has the greater position. -/
theorem chain_not_ascending_conjunctBody :
    ∃ d, Draft.performAll? { file := "a.c" } conjunctBody = some d ∧ ∃ t : Tree, d.finish.listing[1]? = some t ∧
      (t.chain (.logic .and)).map Tree.id = [0, 1] ∧
      ¬(t.chain (.logic .and)).Pairwise fun r s => d.finish.position r < d.finish.position s :=
  ⟨_, rfl, _, rfl, by decide, by decide⟩

end Draft

end ConditionLint
