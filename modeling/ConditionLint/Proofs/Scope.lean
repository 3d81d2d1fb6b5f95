import ConditionLint.Proofs.Listing

/-!
# The scopes of nodes

A table of scopes takes up the nodes in source order and enters each of them once, so in a unit without
shared nodes the scope of a node is the one that it was entered with. A node that opens a scope is entered with
that scope, which lies in the scope of the node whose operand it is; any other node is entered with the scope of
the node whose operand it is.
-/

namespace ConditionLint

open ConditionLint.Tree

namespace ScopeTable

/-- One table comes from another by entering the nodes with the given numbers in their order. The scopes that this
opens have bodies, which were entered with them. -/
structure Extends (later table : ScopeTable) (ids : List NodeId) : Prop where
  scopes : table.scopes <+: later.scopes
  entries : ∃ added, later.entries = added ++ table.entries ∧ added.map Prod.fst = ids.reverse
  bodies : ∀ (k : Nat) (s : Scope), table.scopes.length ≤ k → later.scopes[k]? = some s →
    ∃ id, s.body = some id ∧ (id, k) ∈ later.entries

namespace Extends

variable {first second third : ScopeTable} {ids ids' : List NodeId}

/-- Nothing is entered when the table stays as it is. -/
theorem refl (table : ScopeTable) : table.Extends table [] :=
  ⟨List.prefix_rfl, ⟨[], rfl, rfl⟩, fun _ _ hk hs => by simp [List.getElem?_eq_none hk] at hs⟩

/-- What was entered stays. -/
theorem subset (h : second.Extends first ids) : first.entries ⊆ second.entries := by
  obtain ⟨added, hentries, -⟩ := h.entries
  exact hentries ▸ List.subset_append_right added first.entries

/-- A scope that was open stays as it is. -/
theorem getElem?_scopes (h : second.Extends first ids) {k : Nat} (hk : k < first.scopes.length) :
    second.scopes[k]? = first.scopes[k]? := by
  obtain ⟨opened, hopened⟩ := h.scopes
  rw [← hopened, List.getElem?_append_left hk]

/-- What is entered in two steps is entered one after the other. -/
theorem trans (h' : third.Extends second ids') (h : second.Extends first ids) :
    third.Extends first (ids ++ ids') := by
  refine ⟨h.scopes.trans h'.scopes, ?_, fun k s hk hs => ?_⟩
  · obtain ⟨added, hentries, hids⟩ := h.entries
    obtain ⟨added', hentries', hids'⟩ := h'.entries
    refine ⟨added' ++ added, ?_, ?_⟩
    · rw [hentries', hentries, List.append_assoc]
    · rw [List.map_append, hids, hids', List.reverse_append]
  · by_cases hlater : k < second.scopes.length
    · rw [h'.getElem?_scopes hlater] at hs
      obtain ⟨id, hbody, hid⟩ := h.bodies k s hk hs
      exact ⟨id, hbody, h'.subset hid⟩
    · exact h'.bodies k s (Nat.le_of_not_lt hlater) hs

end Extends

/-- How a tree that was taken up in an outer scope was entered: with that scope, or with one that it opened. -/
inductive Enters (table : ScopeTable) (outer : Nat) (t : Tree) : Option ScopeKind → Nat → Prop
  | inside (entered : (t.id, outer) ∈ table.entries) : Enters table outer t none outer
  | opening {kind : ScopeKind} {scope : Nat} (entered : (t.id, scope) ∈ table.entries) (later : outer < scope)
    (opened : table.scopes[scope]? =
      some ⟨kind, some t.id, some outer, t.label.owner <|> table.function? outer⟩) :
    Enters table outer t (some kind) scope

namespace Enters

variable {table later : ScopeTable} {outer scope : Nat} {opens : Option ScopeKind} {t : Tree} {ids : List NodeId}

/-- A tree that was taken up was entered. -/
theorem mem (h : table.Enters outer t opens scope) : (t.id, scope) ∈ table.entries := by
  cases h with
  | inside entered => exact entered
  | opening entered later opened => exact entered

/-- The scope that a tree was entered with is open. -/
theorem lt_length (h : table.Enters outer t opens scope) (houter : outer < table.scopes.length) :
    scope < table.scopes.length := by
  cases h with
  | inside entered => exact houter
  | opening entered later opened => exact (List.getElem?_eq_some_iff.mp opened).1

/-- How a tree was entered stays when more is entered. -/
theorem extend (h : table.Enters outer t opens scope) (hext : later.Extends table ids) :
    later.Enters outer t opens scope := by
  cases h with
  | inside entered => exact .inside (hext.subset entered)
  | opening entered lt opened =>
    have hopen := (List.getElem?_eq_some_iff.mp opened).1
    have hfunction : later.function? outer = table.function? outer := by
      rw [function?, function?, hext.getElem?_scopes (lt.trans hopen)]
    refine .opening (hext.subset entered) lt ?_
    rw [hext.getElem?_scopes hopen, opened, hfunction]

end Enters

/-- A property of tables that stays when more is entered. -/
def IsLasting (P : ScopeTable → Prop) : Prop :=
  ∀ ⦃table later : ScopeTable⦄ ⦃ids : List NodeId⦄, P table → later.Extends table ids → P later

/-- A tree that was taken up stays so. -/
theorem isLasting_enters (outer : Nat) (opens : Option ScopeKind) (t : Tree) :
    IsLasting fun table => ∃ scope, table.Enters outer t opens scope := by
  rintro table later ids ⟨scope, hscope⟩ hext
  exact ⟨scope, hscope.extend hext⟩

/-- A node was entered, and its operands were taken up in its scope. -/
def PassesOn (table : ScopeTable) (t : Tree) : Prop :=
  ∃ scope, (t.id, scope) ∈ table.entries ∧ ∀ (i : Nat) (a : Tree), t.operands[i]? = some a →
    a.isElsewhere = false → ∃ inner, table.Enters scope a (a.opens? t.kind i) inner

/-- What was passed on stays passed on. -/
theorem isLasting_passesOn (t : Tree) : IsLasting fun table => table.PassesOn t := by
  rintro table later ids ⟨scope, ht, hoperands⟩ hext
  refine ⟨scope, hext.subset ht, fun i a ha hhere => ?_⟩
  exact isLasting_enters scope _ a (hoperands i a ha hhere) hext

variable (table : ScopeTable) (outer : Nat) (opens : Option ScopeKind) (parent : Kind)

/-- Entering a node opens no scope. -/
theorem extends_enter (l : Label) : (table.enter l outer).Extends table [l.id] :=
  ⟨List.prefix_rfl, ⟨[(l.id, outer)], rfl, rfl⟩, fun _ _ hk hs => by
    simp [enter, List.getElem?_eq_none hk] at hs⟩

/-- Entering a node with a scope that it opens. -/
theorem extends_openScope (kind : ScopeKind) (l : Label) :
    ((table.openScope kind l outer).enter l table.scopes.length).Extends table [l.id] := by
  refine ⟨List.prefix_append _ _, ⟨[(l.id, table.scopes.length)], rfl, rfl⟩, fun k s hk hs => ?_⟩
  obtain ⟨hlt, -⟩ := List.getElem?_eq_some_iff.mp hs
  have hlast : k = table.scopes.length := by
    simp only [enter, openScope, List.length_append, List.length_singleton] at hlt
    omega
  subst hlast
  rw [enter, openScope, List.getElem?_concat_length, Option.some.injEq] at hs
  exact ⟨l.id, hs ▸ rfl, List.mem_cons_self⟩

/-- A tree is entered with a scope, and then its operands are taken up in that scope. -/
theorem exists_addTree_eq (l : Label) (ts : List Tree) : ∃ (scope : Nat) (entered : ScopeTable),
    entered.Extends table [l.id] ∧
      (outer < table.scopes.length → entered.Enters outer (node l ts) opens scope) ∧
      table.addTree outer opens (node l ts) = entered.addOperands scope l.kind 0 ts := by
  cases opens with
  | none =>
    exact ⟨outer, table.enter l outer, table.extends_enter outer l, fun _ => .inside List.mem_cons_self, rfl⟩
  | some kind =>
    refine ⟨table.scopes.length, _, table.extends_openScope outer kind l, fun houter => ?_, rfl⟩
    refine .opening List.mem_cons_self houter ?_
    rw [enter, openScope, List.getElem?_concat_length, function?, function?, List.getElem?_append_left houter]
    rfl

/-- Taking up operands enters their nodes when taking up each of them does. -/
theorem extends_addOperands_of {ts : List Tree} (h : ∀ t ∈ ts, ∀ (table : ScopeTable) outer opens,
    (table.addTree outer opens t).Extends table t.ids) (index : Nat) :
    (table.addOperands outer parent index ts).Extends table ((subtreesOf ts).map Tree.id) := by
  induction ts generalizing table index with
  | nil => exact .refl table
  | cons t ts ih =>
    have hrest (table : ScopeTable) := ih table (fun t ht => h t (List.mem_cons_of_mem _ ht)) (index + 1)
    cases hhere : t.isElsewhere with
    | true => simpa [addOperands, subtreesOf, hhere] using hrest table
    | false =>
      have hfirst := h t List.mem_cons_self table outer (t.opens? parent index)
      simpa [addOperands, subtreesOf, hhere, ids] using (hrest _).trans hfirst

/-- Taking up a tree enters its nodes in source order. -/
theorem extends_addTree (t : Tree) : (table.addTree outer opens t).Extends table t.ids := by
  induction t using induction_operands generalizing table outer opens with
  | step l ts ih =>
    have hids : (node l ts).ids = [l.id] ++ (subtreesOf ts).map Tree.id := by
      rw [ids, subtrees_eq_cons]
      rfl
    obtain ⟨scope, entered, hentered, -, heq⟩ := table.exists_addTree_eq outer opens l ts
    rw [hids, heq]
    exact (extends_addOperands_of _ _ _ ih 0).trans hentered

/-- Taking up operands enters their nodes in source order. -/
theorem extends_addOperands (index : Nat) (ts : List Tree) :
    (table.addOperands outer parent index ts).Extends table ((subtreesOf ts).map Tree.id) :=
  table.extends_addOperands_of outer parent (fun t _ table outer opens => table.extends_addTree outer opens t)
    index

section Open

variable {table outer} (houter : outer < table.scopes.length)
include houter

/-- A tree that is taken up is entered. -/
theorem enters_addTree (t : Tree) : ∃ scope, (table.addTree outer opens t).Enters outer t opens scope := by
  obtain ⟨l, ts⟩ := t
  obtain ⟨scope, entered, -, henters, heq⟩ := table.exists_addTree_eq outer opens l ts
  rw [heq]
  exact ⟨scope, (henters houter).extend (extends_addOperands _ scope l.kind 0 ts)⟩

/-- What taking up one of several operands gives stays when the others are taken up. -/
theorem of_addOperands {P : ScopeTable → Prop} (hP : IsLasting P) {ts : List Tree} {index i : Nat} {a : Tree}
    (ha : ts[i]? = some a) (hhere : a.isElsewhere = false)
    (h : ∀ table : ScopeTable, outer < table.scopes.length →
      P (table.addTree outer (a.opens? parent (index + i)) a)) :
    P (table.addOperands outer parent index ts) := by
  induction ts generalizing table index i with
  | nil => simp at ha
  | cons t ts ih =>
    rw [addOperands]
    cases i with
    | zero =>
      obtain rfl : t = a := by simpa using ha
      rw [if_neg (by simp [hhere])]
      exact hP (h table houter) (extends_addOperands _ outer parent (index + 1) ts)
    | succ i =>
      have hlonger : outer <
          (if t.isElsewhere then table else table.addTree outer (t.opens? parent index) t).scopes.length := by
        split
        · exact houter
        · exact houter.trans_le (extends_addTree _ _ _ t).scopes.length_le
      exact ih hlonger (by simpa using ha) fun table => by simpa [Nat.add_assoc, Nat.add_comm 1] using h table

/-- After a tree is taken up, all its nodes pass their scopes on to their operands. -/
theorem passesOn_addTree {s t : Tree} (hs : s ∈ t.subtrees) : (table.addTree outer opens t).PassesOn s := by
  induction t using induction_operands generalizing table outer opens with
  | step l ts ih =>
    obtain ⟨scope, entered, hentered, henters, heq⟩ := table.exists_addTree_eq outer opens l ts
    have henters := henters houter
    have hscope := henters.lt_length (houter.trans_le hentered.scopes.length_le)
    rw [heq]
    rw [subtrees_eq_cons, subtreesOf_eq, List.mem_cons, List.mem_flatMap] at hs
    rcases hs with rfl | ⟨a, ha, hs⟩
    · refine ⟨scope, (extends_addOperands _ _ _ _ _).subset henters.mem, fun i a ha hhere => ?_⟩
      refine of_addOperands l.kind hscope (isLasting_enters scope (a.opens? l.kind i) a) ha hhere ?_
      rw [Nat.zero_add]
      exact fun table hscope => enters_addTree _ hscope a
    · obtain ⟨ha, hhere⟩ := List.mem_filter.mp ha
      obtain ⟨i, hi⟩ := List.mem_iff_getElem?.mp ha
      exact of_addOperands l.kind hscope (isLasting_passesOn s) hi (by simpa using hhere)
        fun table hscope => ih a ha _ hscope hs

end Open

/-- Taking up several trees enters their nodes in source order. -/
theorem extends_foldl_addStart (starts : List Tree) :
    (starts.foldl addStart table).Extends table ((starts.flatMap subtrees).map Tree.id) := by
  induction starts generalizing table with
  | nil => exact .refl table
  | cons t ts ih =>
    have hfirst : (table.addStart t).Extends table t.ids := table.extends_addTree 0 _ t
    simpa [ids] using (ih (table.addStart t)).trans hfirst

/-- What taking up one of several trees gives stays when the others are taken up. -/
theorem of_foldl_addStart {P : ScopeTable → Prop} (hP : IsLasting P) {starts : List Tree} {t : Tree}
    (ht : t ∈ starts) (h : ∀ table : ScopeTable, 0 < table.scopes.length → P (table.addStart t))
    (hopen : 0 < table.scopes.length) : P (starts.foldl addStart table) := by
  induction starts generalizing table with
  | nil => contradiction
  | cons s ss ih =>
    rw [List.foldl_cons]
    rcases List.mem_cons.mp ht with rfl | ht
    · exact hP (h table hopen) (extends_foldl_addStart _ ss)
    · exact ih _ ht (hopen.trans_le (extends_addTree table 0 _ s).scopes.length_le)

/-- With every number entered once, the scope of a node is the one it was entered with. -/
theorem scopeOf_eq {table : ScopeTable} (hdistinct : (table.entries.map Prod.fst).Nodup) {id : NodeId}
    {scope : Nat} (h : (id, scope) ∈ table.entries) : table.scopeOf id = scope := by
  have hentry : (table.entries.find? fun e => e.1 == id) = some (id, scope) := find?_key_of_mem hdistinct h
  rw [scopeOf, hentry]
  rfl

end ScopeTable

namespace SourceUnit.IsUnshared

open ScopeTable

variable {u : SourceUnit} (h : u.IsUnshared) {t a : Tree}
include h

/-- Every node is entered once. -/
theorem nodup_entries : (u.scopes.entries.map Prod.fst).Nodup := by
  obtain ⟨added, hentries, hids⟩ := (ScopeTable.start.extends_foldl_addStart u.starts).entries
  have hlisting := List.nodup_reverse.mpr h.distinct
  rw [SourceUnit.listing, ← hids] at hlisting
  rwa [SourceUnit.scopes, ScopeTable.ofTrees, hentries, ScopeTable.start, List.append_nil]

/-- A tree at which the source order begins is taken up in the global scope, and opens a scope when it is the body
of a function. -/
theorem enters_start (ht : t ∈ u.starts) : u.scopes.Enters 0 t
    (if t.label.owner.isSome then some .function else none) (u.scopeOf t) := by
  obtain ⟨scope, hscope⟩ := of_foldl_addStart .start (isLasting_enters 0 _ t) ht
    (fun table hopen => enters_addTree _ hopen t) Nat.zero_lt_one
  obtain rfl : u.scopeOf t = scope := scopeOf_eq h.nodup_entries hscope.mem
  exact hscope

/-- An operand is taken up in the scope of its node. -/
theorem enters_operand (ht : t ∈ u.listing) {i : Nat} (ha : t.operands[i]? = some a) :
    u.scopes.Enters (u.scopeOf t) a (a.opens? t.kind i) (u.scopeOf a) := by
  have hpasses : u.scopes.PassesOn t := by
    obtain ⟨s, hs, ht⟩ := List.mem_flatMap.mp ht
    exact of_foldl_addStart .start (isLasting_passesOn t) hs
      (fun table hopen => passesOn_addTree _ hopen ht) Nat.zero_lt_one
  obtain ⟨scope, hscope, hoperands⟩ := hpasses
  obtain ⟨inner, hinner⟩ := hoperands i a ha (h.isWhole ht t (mem_subtrees_self t) a (List.mem_of_getElem? ha))
  obtain rfl : u.scopeOf t = scope := scopeOf_eq h.nodup_entries hscope
  obtain rfl : u.scopeOf a = inner := scopeOf_eq h.nodup_entries hinner.mem
  exact hinner

/-- An operand that opens no scope lies in the scope of its node. -/
theorem scopeOf_operand (ht : t ∈ u.listing) {i : Nat} (ha : t.operands[i]? = some a)
    (hopens : a.opens? t.kind i = none) : u.scopeOf a = u.scopeOf t := by
  have henters := h.enters_operand ht ha
  rw [hopens] at henters
  generalize u.scopeOf a = inner at henters ⊢
  cases henters
  rfl

end SourceUnit.IsUnshared

end ConditionLint
