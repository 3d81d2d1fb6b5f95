import ConditionLint.Proofs.Position
import ConditionLint.Proofs.Sharing
import Mathlib.Logic.Relation

/-!
# The traversal that settles a draft

The source order and the scopes of a unit are found by a traversal that keeps a stack of nodes to visit. It passes over
a node that was visited before. Any other node it puts into the source order and into its scope, which the node may
open, and its operands take its place on the stack. So the traversal is done with a tree when the nodes that are listed
at the tree are in the source order, and it ends with the source order and the scopes of the unit.

Where subtrees end is found on the way back, from the last node to the first one. A subtree ends where the last one of
its operands ends, as far as they are listed behind the node. An operand that is listed before the node is not known
then, and it does not count.
-/

namespace ConditionLint

open ConditionLint.Tree

/-! ## Visiting nodes -/

/-- A node to visit: the scope around it, and what it opens a scope as. -/
structure Stop where
  tree : Tree
  outer : Nat
  opens : Option ScopeKind

/-- What is known while nodes are visited. -/
structure Traversal where
  /-- The nodes to visit, the next one first. -/
  pending : List Stop
  /-- The nodes that were visited. -/
  order : List NodeId
  table : ScopeTable

namespace ScopeTable

/-- Put a node into its scope, which it may open. Gives the scope as well. -/
def addNode (t : ScopeTable) (l : Label) (outer : Nat) (opens : Option ScopeKind) : Nat × ScopeTable :=
  match opens with
  | some kind => (t.scopes.length, (t.openScope kind l outer).enter l t.scopes.length)
  | none => (outer, t.enter l outer)

/-- Take up a tree, unless it is listed elsewhere. -/
def addHere (t : ScopeTable) (outer : Nat) (opens : Option ScopeKind) (s : Tree) : ScopeTable :=
  if s.isElsewhere then t else t.addTree outer opens s

/-- A tree is taken up by putting its node into a scope, and then its operands. -/
theorem addTree_node (t : ScopeTable) (outer : Nat) (opens : Option ScopeKind) (l : Label) (ts : List Tree) :
    t.addTree outer opens (node l ts) =
      (t.addNode l outer opens).2.addOperands (t.addNode l outer opens).1 l.kind 0 ts := by
  cases opens <;> rfl

end ScopeTable

/-- The operands of a node from an index on, to be visited one after the other. -/
def stops (scope : Nat) (parent : Kind) (index : Nat) : List Tree → List Stop
  | [] => []
  | t :: ts => ⟨t, scope, t.opens? parent index⟩ :: stops scope parent (index + 1) ts

/-- A tree at which the source order begins anew, to be visited; only a function body opens a scope there. -/
def Tree.startStop (t : Tree) : Stop := ⟨t, 0, if t.label.owner.isSome then some .function else none⟩

namespace Traversal

/-- Visit the next node. -/
def step? (v : Traversal) : Option Traversal :=
  match v.pending with
  | [] => none
  | s :: rest =>
    if s.tree.id ∈ v.order then some { v with pending := rest }
    else
      let (scope, table) := v.table.addNode s.tree.label s.outer s.opens
      some ⟨stops scope s.tree.kind 0 s.tree.operands ++ rest, v.order ++ [s.tree.id], table⟩

/-- One traversal comes from another by visiting the next node. -/
def Step (v w : Traversal) : Prop := v.step? = some w

/-- One traversal comes from another by visiting nodes. -/
def Reaches : Traversal → Traversal → Prop := Relation.ReflTransGen Step

/-- The traversal of several trees. -/
def start (ts : List Tree) : Traversal := ⟨ts.map startStop, [], .start⟩

variable {l : Label} {s : Stop} {rest : List Stop} {order : List NodeId} {table : ScopeTable}

/-- A node that was visited is passed over. -/
theorem step_again (h : s.tree.id ∈ order) : Step ⟨s :: rest, order, table⟩ ⟨rest, order, table⟩ := by
  simp [Step, step?, h]

/-- The operands of a new node are visited next. -/
theorem step_new {ts : List Tree} {outer : Nat} {opens : Option ScopeKind} (h : l.id ∉ order) :
    Step ⟨⟨node l ts, outer, opens⟩ :: rest, order, table⟩
      ⟨stops (table.addNode l outer opens).1 l.kind 0 ts ++ rest, order ++ [l.id], (table.addNode l outer opens).2⟩ := by
  simp [Step, step?, Tree.id, label, h, kind, operands]

end Traversal

/-- Below a bound, the nodes that were visited are those that are laid out. A node is laid out behind its operands but
visited before them, so the two differ in the nodes around the one that comes next, which have greater numbers. -/
def Agrees (bound : NodeId) (laid : List Tree) (order : List NodeId) : Prop :=
  ∀ i < bound, i ∈ order ↔ i ∈ laid.map Tree.id

namespace Agrees

variable {bound : NodeId} {laid later new : List Tree} {order : List NodeId}

/-- What holds below a bound holds below smaller ones. -/
theorem mono (h : Agrees bound laid order) {smaller : NodeId} (hle : smaller ≤ bound) : Agrees smaller laid order :=
  fun i hi => h i (hi.trans_le hle)

/-- Below the number of a node it does not matter whether the node was visited. -/
theorem visit (h : Agrees bound laid order) : Agrees bound laid (order ++ [bound]) := by
  intro i hi
  rw [List.mem_append, List.mem_singleton, h i hi]
  exact or_iff_left hi.ne

/-- New nodes are visited and laid out. -/
theorem append (h : Agrees bound laid order) (hlater : later.Perm (new ++ laid)) :
    Agrees bound later (order ++ new.map Tree.id) := by
  intro i hi
  rw [List.mem_append, h i hi, (hlater.map Tree.id).mem_iff, List.map_append, List.mem_append, or_comm]

end Agrees

namespace Tree

/-- The traversal visits, from the tree on, what is listed where the tree is laid out, and takes it up into the
scopes. Then it goes on with the rest. -/
def IsTraversed (t : Tree) : Prop :=
  ∀ laid order table outer opens rest, Agrees (t.id + 1) laid order →
    Traversal.Reaches ⟨⟨t, outer, opens⟩ :: rest, order, table⟩
      ⟨rest, order ++ (layOut laid t).1.listedHere.map id, table.addHere outer opens (layOut laid t).1⟩

/-- Where a tree is listed, it has its label. -/
theorem label_layOut {laid : List Tree} {t : Tree} (h : (layOut laid t).1.isElsewhere = false) :
    (layOut laid t).1.label = t.label := by
  obtain ⟨l, ts⟩ := t
  rw [layOut] at h ⊢
  split at h
  · next s _ =>
    obtain ⟨m, us⟩ := s
    simp [markElsewhere, relabel, isElsewhere, label] at h
  · rfl

/-- What an operand opens depends on its label only. -/
theorem opens?_congr {s t : Tree} (h : s.label = t.label) (parent : Kind) (index : Nat) :
    s.opens? parent index = t.opens? parent index := by
  unfold opens? isBlock kind
  rw [h]

section Several

variable {ts : List Tree} (htraversed : ∀ t ∈ ts, t.IsTraversed) (hdescends : ∀ t ∈ ts, t.Descends)
include htraversed hdescends

/-- The operands of a node are visited one after the other. -/
theorem reaches_stops {bound : NodeId} (hsmaller : ∀ t ∈ ts, t.id < bound) (laid : List Tree) (order : List NodeId)
    (table : ScopeTable) (scope : Nat) (parent : Kind) (index : Nat) (rest : List Stop)
    (hagrees : Agrees bound laid order) :
    Traversal.Reaches ⟨stops scope parent index ts ++ rest, order, table⟩
      ⟨rest, order ++ ((layOutAll laid ts).1.flatMap listedHere).map id,
        table.addOperands scope parent index (layOutAll laid ts).1⟩ := by
  induction ts generalizing laid order table index with
  | nil => simpa [stops, layOutAll, ScopeTable.addOperands] using .refl
  | cons t ts ih =>
    obtain ⟨htraversed, htraversed'⟩ := List.forall_mem_cons.mp htraversed
    obtain ⟨hdescends, hdescends'⟩ := List.forall_mem_cons.mp hdescends
    obtain ⟨hsmaller, hsmaller'⟩ := List.forall_mem_cons.mp hsmaller
    have hlisted := (hdescends.laysOut laid).listed
    rw [List.flatMap_singleton] at hlisted
    have hfirst := htraversed laid order table scope (t.opens? parent index)
      (stops scope parent (index + 1) ts ++ rest) (hagrees.mono hsmaller)
    have hrest := ih htraversed' hdescends' hsmaller' (layOut laid t).2 _
      (table.addHere scope (t.opens? parent index) (layOut laid t).1) (index + 1) (hagrees.append hlisted)
    -- An operand that is taken up opens what it opened before it was laid out.
    have hopens : table.addHere scope ((layOut laid t).1.opens? parent index) (layOut laid t).1 =
        table.addHere scope (t.opens? parent index) (layOut laid t).1 := by
      unfold ScopeTable.addHere
      split
      · rfl
      · next hhere => rw [opens?_congr (label_layOut (Bool.eq_false_iff.mpr hhere))]
    rw [List.append_assoc, ← List.map_append, ← List.flatMap_cons] at hrest
    rw [layOutAll, ScopeTable.addOperands]
    refine hfirst.trans ?_
    rw [← hopens] at hrest ⊢
    exact hrest

/-- Trees at which the source order begins anew are visited one after the other. -/
theorem reaches_starts (laid : List Tree) (order : List NodeId) (table : ScopeTable)
    (hagrees : ∀ bound, Agrees bound laid order) :
    Traversal.Reaches ⟨ts.map startStop, order, table⟩
      ⟨[], order ++ ((layOutAll laid ts).1.flatMap listedHere).map id,
        ((layOutAll laid ts).1.filter fun t => !t.isElsewhere).foldl ScopeTable.addStart table⟩ := by
  induction ts generalizing laid order table with
  | nil => simpa [layOutAll] using .refl
  | cons t ts ih =>
    obtain ⟨htraversed, htraversed'⟩ := List.forall_mem_cons.mp htraversed
    obtain ⟨hdescends, hdescends'⟩ := List.forall_mem_cons.mp hdescends
    have hlisted := (hdescends.laysOut laid).listed
    rw [List.flatMap_singleton] at hlisted
    have hfirst := htraversed laid order table 0 t.startStop.opens (ts.map startStop) (hagrees _)
    have hrest := ih htraversed' hdescends' (layOut laid t).2 _
      (table.addHere 0 t.startStop.opens (layOut laid t).1) fun bound => (hagrees bound).append hlisted
    -- A tree that is taken up is the body of the function of which it was before it was laid out.
    have hstart : ((layOutAll laid (t :: ts)).1.filter fun t => !t.isElsewhere).foldl ScopeTable.addStart table =
        ((layOutAll (layOut laid t).2 ts).1.filter fun t => !t.isElsewhere).foldl ScopeTable.addStart
          (table.addHere 0 t.startStop.opens (layOut laid t).1) := by
      rw [layOutAll, List.filter_cons]
      unfold ScopeTable.addHere
      cases hhere : (layOut laid t).1.isElsewhere with
      | true => rfl
      | false =>
        rw [Bool.not_false, if_pos rfl, List.foldl_cons, if_neg Bool.false_ne_true, ScopeTable.addStart,
          label_layOut hhere]
        rfl
    rw [List.append_assoc, ← List.map_append, ← List.flatMap_cons] at hrest
    rw [hstart]
    exact hfirst.trans hrest

end Several

/-- A tree is visited as it is laid out. -/
theorem Descends.isTraversed {t : Tree} (h : t.Descends) : t.IsTraversed := by
  induction h with
  | @node l ts here smaller below ih =>
    intro laid order table outer opens rest hagrees
    have hvisited : l.id ∈ order ↔ l.id ∈ laid.map id := hagrees l.id (Nat.lt_succ_self _)
    rw [layOut]
    split
    · next s hs =>
      obtain ⟨m, us⟩ := s
      have hid : (Tree.node m us).id = l.id := by simpa using List.find?_some hs
      have hlaid : l.id ∈ laid.map id := List.mem_map.mpr ⟨_, List.mem_of_find?_eq_some hs, hid⟩
      have hmarked : (Tree.node m us).markElsewhere.isElsewhere = true := rfl
      rw [listedHere, if_pos hmarked, ScopeTable.addHere, if_pos hmarked, List.map_nil, List.append_nil]
      exact .single (Traversal.step_again (hvisited.mpr hlaid))
    · next hnew =>
      have hlaid : l.id ∉ laid.map id := by
        intro hmem
        obtain ⟨s, hs, hid⟩ := List.mem_map.mp hmem
        simpa [hid] using List.find?_eq_none.mp hnew s hs
      -- Operands have smaller numbers, below which it does not matter that the node was visited before them.
      have hbelow := reaches_stops ih below smaller laid (order ++ [l.id]) (table.addNode l outer opens).2
        (table.addNode l outer opens).1 l.kind 0 rest (hagrees.mono (Nat.le_succ _)).visit
      rw [List.append_assoc, List.singleton_append] at hbelow
      have hhere : (Tree.node l (layOutAll laid ts).1).isElsewhere = false := here
      rw [listedHere_node here, ScopeTable.addHere, if_neg (by simp [hhere]), ScopeTable.addTree_node]
      exact .head (Traversal.step_new (hvisited.not.mpr hlaid)) hbelow

end Tree

/-- The traversal of a draft ends with the source order and the scopes of the unit that the draft settles into. -/
theorem Draft.reaches_finish {file : String} {actions : List Action} {d : Draft}
    (h : Draft.performAll? { file := file } actions = some d) :
    (Traversal.start d.tops).Reaches ⟨[], d.finish.listing.map Tree.id, d.finish.scopes⟩ := by
  have hdescends (t : Tree) (ht : t ∈ d.tops) : t.Descends := (isNumbered_of_performAll? h).descends_of_mem_tops ht
  have hreaches := reaches_starts (fun t ht => (hdescends t ht).isTraversed) hdescends [] [] .start
    fun bound i hi => by simp
  rw [List.nil_append, ← listing_finish] at hreaches
  exact hreaches

/-! ## Where subtrees end -/

/-- Where the subtree of a node with the given position and operands ends, when the ends are known behind it. -/
def endAt (ends : NodeId → Nat) (position : Nat) (operands : List NodeId) : Nat :=
  max ((operands.map ends).max?.getD (position + 1)) (position + 1)

/-- Where subtrees end, found from the last node of the source order back to the one at the given position. -/
def endsFrom (operands : NodeId → List NodeId) (position : Nat) : List NodeId → NodeId → Nat
  | [], _ => 0
  | i :: order, j =>
    let ends := endsFrom operands (position + 1) order
    if j = i then endAt ends position (operands i) else ends j

/-- A subtree ends where none of the operands ends later, right behind the node or where an operand ends. -/
theorem endAt_eq {ends : NodeId → Nat} {position stop : Nat} {operands : List NodeId}
    (hbound : ∀ i ∈ operands, ends i ≤ stop) (hbehind : position + 1 ≤ stop)
    (hreached : stop = position + 1 ∨ ∃ i ∈ operands, ends i = stop) : endAt ends position operands = stop := by
  unfold endAt
  cases hmax : (operands.map ends).max? with
  | none =>
    have hnone : operands = [] := by simpa using hmax
    simp only [hnone, List.not_mem_nil, false_and, exists_false, or_false] at hreached
    rw [Option.getD_none, max_self, hreached]
  | some m =>
    obtain ⟨hmem, hle⟩ := List.max?_eq_some_iff.mp hmax
    obtain ⟨i, hi, rfl⟩ := List.mem_map.mp hmem
    have hupper := hbound i hi
    have hlower : stop = position + 1 ∨ stop ≤ ends i :=
      hreached.imp_right fun ⟨j, hj, hend⟩ => hend ▸ hle _ (List.mem_map_of_mem hj)
    rw [Option.getD_some]
    omega

/-- Nodes that are not listed are not known. -/
theorem endsFrom_of_notMem {operands : NodeId → List NodeId} {order : List NodeId} {j : NodeId} (h : j ∉ order)
    (position : Nat) : endsFrom operands position order j = 0 := by
  induction order generalizing position with
  | nil => rfl
  | cons i order ih =>
    obtain ⟨hne, hrest⟩ := not_or.mp (List.mem_cons.not.mp h)
    rw [endsFrom, if_neg hne, ih hrest]

namespace Tree

/-- Every node is followed by what is listed below it, and an operand that is listed behind it is listed below it. -/
def IsNested (ts : List Tree) : Prop :=
  ∀ s rest, s :: rest <:+ ts → subtreesOf s.operands <+: rest ∧
    ∀ i ∈ s.operandIds, i ∈ rest.map id → i ∈ (subtreesOf s.operands).map id

/-- What is listed below the operand of a node is a piece of what is listed below the node. -/
theorem isInfix_subtreesOf {ts : List Tree} {s : Tree} (hs : s ∈ subtreesOf ts) : s.subtrees <:+: subtreesOf ts := by
  rw [subtreesOf_eq, List.mem_flatMap] at hs
  obtain ⟨a, ha, hs⟩ := hs
  obtain ⟨before, behind, hsplit⟩ := List.append_of_mem ha
  refine (isInfix_subtrees hs).trans ⟨before.flatMap subtrees, behind.flatMap subtrees, ?_⟩
  rw [subtreesOf_eq, hsplit]
  simp

/-- In a list where every node is followed by what is below it, a node at the head of a piece is at its index. -/
theorem getElem?_length_of_isPrefix {rest below before behind : List Tree} {s : Tree} (hbelow : below <+: rest)
    (hsplit : before ++ s.subtrees ++ behind = below) : rest[before.length]? = some s := by
  obtain ⟨more, rfl⟩ := hbelow
  rw [← hsplit, subtrees_eq_cons]
  simp

variable {operands : NodeId → List NodeId}

/-- Where nodes are followed by what is below them, the pass back finds for each of them the end of what is below it. -/
theorem IsNested.endsFrom_eq {ts : List Tree} (h : IsNested ts) (hdistinct : (ts.map id).Nodup)
    (hoperands : ∀ s ∈ ts, operands s.id = s.operandIds) (position : Nat) {k : Nat} {s : Tree}
    (hs : ts[k]? = some s) : endsFrom operands position (ts.map id) s.id = position + k + s.size := by
  induction ts generalizing position k s with
  | nil => simp at hs
  | cons t rest ih =>
    obtain ⟨hfollowed, hbelow⟩ := h t rest List.suffix_rfl
    obtain ⟨hnew, hdistinct⟩ := List.nodup_cons.mp hdistinct
    have hrest {j : Nat} {r : Tree} (hr : rest[j]? = some r) :
        endsFrom operands (position + 1) (rest.map id) r.id = position + 1 + j + r.size :=
      ih (fun r rest' hsuffix => h r rest' (hsuffix.trans (List.suffix_cons t rest))) hdistinct
        (fun r hr => hoperands r (List.mem_cons_of_mem t hr)) (position + 1) hr
    have hsize : t.size = 1 + (subtreesOf t.operands).length := by
      rw [size, subtrees_eq_cons, List.length_cons, Nat.add_comm]
    rw [List.map_cons, endsFrom]
    cases k with
    | succ k =>
      have hs : rest[k]? = some s := by simpa using hs
      have hother : s.id ≠ t.id := fun hid => hnew (hid ▸ List.mem_map_of_mem (List.mem_of_getElem? hs))
      rw [if_neg hother, hrest hs]
      omega
    | zero =>
      obtain rfl : t = s := by simpa using hs
      rw [if_pos rfl, hoperands t List.mem_cons_self]
      refine endAt_eq (fun i hi => ?_) (by have := t.size_pos; omega) ?_
      · by_cases hlater : i ∈ rest.map id
        · -- An operand that is listed behind the node lies below it.
          obtain ⟨r, hr, rfl⟩ := List.mem_map.mp (hbelow i hi hlater)
          obtain ⟨before, behind, hsplit⟩ := isInfix_subtreesOf hr
          have hlength := congrArg List.length hsplit
          rw [List.length_append, List.length_append, ← size] at hlength
          rw [hrest (getElem?_length_of_isPrefix hfollowed hsplit)]
          omega
        · rw [endsFrom_of_notMem hlater]
          exact Nat.zero_le _
      · -- The last of the operands that are listed below the node ends where the node ends.
        rcases List.eq_nil_or_concat (t.operands.filter fun a => !a.isElsewhere) with hnone | ⟨before, a, hlast⟩
        · left
          rw [hsize, subtreesOf_eq, hnone]
          rfl
        · right
          have ha : a ∈ t.operands.filter fun a => !a.isElsewhere := by simp [hlast]
          have hsplit : before.flatMap subtrees ++ a.subtrees ++ [] = subtreesOf t.operands := by
            rw [subtreesOf_eq, hlast]
            simp
          have hlength := congrArg List.length hsplit
          rw [List.length_append, List.length_append, ← size, List.length_nil] at hlength
          refine ⟨a.id, List.mem_map_of_mem (List.mem_filter.mp ha).1, ?_⟩
          rw [hrest (getElem?_length_of_isPrefix hfollowed hsplit)]
          omega

end Tree

namespace Draft

variable {file : String} {actions : List Action} {d : Draft}
  (h : Draft.performAll? { file := file } actions = some d)
include h

/-- In the unit that a draft settles into, nodes are followed by what is below them. -/
theorem isNested_finish : IsNested d.finish.listing := by
  rintro s rest ⟨front, hlisting⟩
  have hdistinct := nodup_finish h
  rw [← hlisting, List.map_append, List.map_cons, List.nodup_append, List.nodup_cons] at hdistinct
  obtain ⟨-, ⟨hrest, -⟩, hfront⟩ := hdistinct
  have hs : s ∈ d.finish.listing := by simp [← hlisting]
  -- The node is listed once, so that what is listed below it stands right behind it.
  obtain ⟨before, behind, hpiece⟩ := SourceUnit.isInfix_listing hs
  have hsplit : front ++ s :: rest = before ++ s :: (subtreesOf s.operands ++ behind) := by
    rw [hlisting, ← hpiece, subtrees_eq_cons]
    simp
  have hnotfront : s ∉ front := fun hmem => hfront _ (List.mem_map_of_mem hmem) _ List.mem_cons_self rfl
  have hnotrest : s ∉ rest := fun hmem => hrest (List.mem_map_of_mem hmem)
  obtain ⟨rfl, -, rfl⟩ := (List.append_cons_inj_of_notMem hnotfront hnotrest).mp hsplit
  refine ⟨List.prefix_append _ _, fun i hi hlater => ?_⟩
  -- Its operands are listed up to where its subtree ends.
  have hearly := (isNumbered_of_performAll? h).laysOut_tops.early front.length s
  rw [← listing_finish, ← hlisting] at hearly
  have hsize : s.size = (s :: subtreesOf s.operands).length := congrArg List.length s.subtrees_eq_cons
  have htake : (front ++ s :: (subtreesOf s.operands ++ behind)).take (front.length + s.size) =
      front ++ s :: subtreesOf s.operands := by
    rw [List.take_length_add_append, hsize, ← List.cons_append, List.take_left]
  have hmem := (hearly (by simp) i hi).resolve_left List.not_mem_nil
  rw [htake, List.map_append, List.map_cons, List.mem_append, List.mem_cons] at hmem
  rcases hmem with hmem | rfl | hmem
  · exact absurd rfl (hfront i hmem i (List.mem_cons_of_mem _ hlater))
  · exact absurd hlater hrest
  · exact hmem

/-- The operands that a node was made with, by its number. -/
def operandsOf (d : Draft) (i : NodeId) : List NodeId := (d.nodes[i]?.map operandIds).getD []

/-- The traversal of a draft ends with the source order and the scopes of the unit that the draft settles into, and
the pass back over the source order finds where subtrees end. So a node occupies the range from its index in the source
order to the end that is found for it. -/
theorem traversal_finish : ∃ order,
    (Traversal.start d.tops).Reaches ⟨[], order, d.finish.scopes⟩ ∧ order = d.finish.listing.map Tree.id ∧
      ∀ t ∈ d.finish.listing, d.finish.range? t = some (order.idxOf t.id, endsFrom d.operandsOf 0 order t.id) := by
  refine ⟨_, reaches_finish h, rfl, fun t ht => ?_⟩
  have hnumbered := isNumbered_of_performAll? h
  have hoperands (s : Tree) (hs : s ∈ d.finish.listing) : d.operandsOf s.id = s.operandIds := by
    obtain ⟨n, hn, hid, hoperands⟩ := exists_made_of_mem_listing h hs
    rw [operandsOf, ← hid, hnumbered.getElem?_of_mem hn, Option.map_some, Option.getD_some, hoperands]
  obtain ⟨k, hk⟩ := List.mem_iff_getElem?.mp ht
  have hindex : (d.finish.listing.map Tree.id).idxOf t.id = k := by
    obtain ⟨hlt, rfl⟩ := List.getElem?_eq_some_iff.mp hk
    have := (nodup_finish h).idxOf_getElem k (by simpa using hlt)
    simpa using this
  rw [(isNested_finish h).endsFrom_eq (nodup_finish h) hoperands 0 hk, hindex, SourceUnit.range?,
    SourceUnit.position?_of_getElem? (nodup_finish h) hk, Option.map_some, Nat.zero_add]

end Draft

end ConditionLint
