import ConditionLint.Proofs.Ancestry

/-!
# The layout of a unit

A draft in which every node is an operand at most once, and no function body is one, settles into a unit that
lists every node once. A node and everything below it occupy a range of positions: first the node, then its
operands from left to right, without gaps. So whether a node lies below another is read off their positions, and
a scan from the roots comes by every node once, in source order.
-/

namespace ConditionLint

open ConditionLint.Tree

/-- Ranges that follow each other without gaps from the first index to the last. -/
def Tiles : Nat → List (Nat × Nat) → Nat → Prop
  | i, [], j => i = j
  | i, r :: rs, j => r.1 = i ∧ Tiles r.2 rs j

namespace SourceUnit

/-- What the layout of a unit with the given nodes promises. -/
structure IsLaidOut (u : SourceUnit) (nodes : List Tree) : Prop where
  /-- The source order has the number of every node, each once. -/
  permutes : (u.order.map Place.id).Perm (List.range nodes.length)
  /-- A listed node has the operands that it was made with. -/
  made : ∀ t ∈ u.listing, ∃ n, nodes[t.id]? = some n ∧ n.operandIds = t.operandIds
  /-- Positions are the inverse of the source order. -/
  inverse : ∀ i t, u.listing[i]? = some t ↔ t ∈ u.listing ∧ u.position? t = some i
  /-- A node stands under the node that has it as an operand. -/
  parent : ∀ s ∈ u.listing, ∀ t ∈ u.listing, (u.placeOf t).parent? = some s ↔ t.id ∈ s.operandIds
  /-- The nodes above a node are found by going from parent to parent. -/
  above : ∀ t ∈ u.listing,
    (u.placeOf t).above = (u.placeOf t).parent?.elim [] fun s => s :: (u.placeOf s).above
  /-- A node occupies the positions of the nodes that are it or have it above them. Those behind its own are
  occupied by its operands, from left to right. -/
  range : ∀ t ∈ u.listing, ∃ i j rs, u.range? t = some (i, j) ∧
    (∀ s ∈ u.listing, ∀ k, u.position? s = some k → (i ≤ k ∧ k < j ↔ s = t ∨ t ∈ (u.placeOf s).above)) ∧
    t.operands.map u.range? = rs.map some ∧ u.position? t = some i ∧ Tiles (i + 1) rs j
  /-- A node contains itself and the nodes that have it above them. -/
  contains : ∀ s ∈ u.listing, ∀ t ∈ u.listing, u.contains s t = true ↔ s = t ∨ s ∈ (u.placeOf t).above
  /-- A scan comes by every node once, in source order. -/
  scanned : u.scanned = u.order

namespace IsUnshared

variable {u : SourceUnit} (h : u.IsUnshared) {s t : Tree}
include h

/-- A node is listed at its position and nowhere else. -/
theorem getElem?_listing_iff {i : Nat} :
    u.listing[i]? = some t ↔ t ∈ u.listing ∧ u.position? t = some i := by
  constructor
  · intro hi
    have ht := List.mem_of_getElem? hi
    exact ⟨ht, by rw [h.position?_of_mem ht, h.position_of_getElem? hi]⟩
  · rintro ⟨ht, hposition⟩
    rw [h.position?_of_mem ht, Option.some.injEq] at hposition
    exact hposition ▸ h.getElem?_position ht

/-- A listed node is told by its number among the operands of another. -/
theorem id_mem_operandIds_iff (hs : s ∈ u.listing) (ht : t ∈ u.listing) :
    t.id ∈ s.operandIds ↔ t ∈ s.operands := by
  refine ⟨fun hid => ?_, fun hmem => List.mem_map_of_mem hmem⟩
  obtain ⟨a, ha, hid⟩ := List.mem_map.mp hid
  exact h.eq_of_id_eq (h.operand_listed hs ha) ht hid ▸ ha

/-- A node contains the nodes that are listed at or below it. -/
theorem contains_iff (hs : s ∈ u.listing) (ht : t ∈ u.listing) : u.contains s t = true ↔ t ∈ s.subtrees := by
  rw [h.mem_subtrees_iff hs ht]
  simp [SourceUnit.contains, range?, h.position?_of_mem hs, h.position?_of_mem ht]

/-- The range of a listed node begins at its position. -/
theorem range?_of_mem (ht : t ∈ u.listing) : u.range? t = some (u.position t, u.position t + t.size) := by
  rw [range?, h.position?_of_mem ht, Option.map_some]

/-- The operands of a node from some operand on fill the rest of its range. -/
theorem tiles_later_operands (ht : t ∈ u.listing) {before behind : List Tree}
    (hoperands : t.operands = before ++ behind) :
    Tiles (u.position t + 1 + (before.flatMap subtrees).length)
      (behind.map fun a => (u.position a, u.position a + a.size)) (u.position t + t.size) := by
  induction behind generalizing before with
  | nil =>
    obtain ⟨l, ts⟩ := t
    obtain rfl : ts = before := by simpa [operands] using hoperands
    rw [size, (h.isWhole ht).subtrees_node, List.length_cons]
    exact Nat.add_right_comm _ _ _
  | cons a behind ih =>
    have hposition := h.position_operand ht hoperands
    have hbehind : t.operands = (before ++ [a]) ++ behind := by simp [hoperands]
    have hrest := ih hbehind
    rw [List.flatMap_append, List.length_append, ← Nat.add_assoc, ← hposition] at hrest
    exact ⟨hposition, by simpa [size] using hrest⟩

end IsUnshared

/-- The nodes at and below a node are the node and those that have it above them. -/
theorem IsLinked.mem_subtrees_iff_above {u : SourceUnit} (hl : u.IsLinked) (h : u.IsUnshared) {s t : Tree}
    (hs : s ∈ u.listing) (ht : t ∈ u.listing) : s ∈ t.subtrees ↔ s = t ∨ t ∈ (u.placeOf s).above := by
  rw [hl.mem_above_iff h ht hs]
  constructor
  · intro hmem
    by_cases heq : s = t
    · exact Or.inl heq
    · exact Or.inr ⟨hmem, Ne.symm heq⟩
  · rintro (rfl | ⟨hmem, -⟩)
    · exact mem_subtrees_self s
    · exact hmem

end SourceUnit

namespace Draft

variable {file : String} {actions : List Action} {d : Draft}

/-- The unit that a draft without shared nodes settles into lists the numbers of all nodes. -/
theorem perm_finish (h : Draft.performAll? { file := file } actions = some d) (hu : d.IsUnshared) :
    (d.finish.listing.map Tree.id).Perm (List.range d.nodes.length) := by
  have hnumbered := isNumbered_of_performAll? h
  refine (List.perm_ext_iff_of_nodup (isUnshared_finish h hu).distinct List.nodup_range).mpr fun x => ?_
  rw [List.mem_range]
  constructor
  · intro hx
    obtain ⟨t, ht, rfl⟩ := List.mem_map.mp hx
    obtain ⟨n, hn, hid, -⟩ := exists_node_of_mem_listing h hu ht
    exact hid ▸ hnumbered.id_lt hn
  · intro hx
    obtain ⟨t, ht, hid, -⟩ := exists_mem_listing h hu (List.getElem_mem hx)
    rw [hnumbered.numbered x _ (List.getElem?_eq_getElem hx)] at hid
    exact List.mem_map.mpr ⟨t, ht, hid⟩

/-- A draft in which no node is an operand twice, and no function body is an operand, settles into a unit that is
laid out. -/
theorem isLaidOut_finish (h : Draft.performAll? { file := file } actions = some d) (hu : d.IsUnshared) :
    d.finish.IsLaidOut d.nodes := by
  have hfinish := isUnshared_finish h hu
  have hlinked := isLinked_finish h hu
  have hnumbered := isNumbered_of_performAll? h
  refine ⟨?_, fun t ht => ?_, fun i t => hfinish.getElem?_listing_iff, fun s hs t ht => ?_,
    fun t ht => hlinked.above_eq hfinish ht, fun t ht => ?_, fun s hs t ht => ?_,
    hlinked.scanned_eq_order hfinish⟩
  · rw [SourceUnit.order, List.map_map]
    exact perm_finish h hu
  · obtain ⟨n, hn, hid, hoperands⟩ := exists_node_of_mem_listing h hu ht
    exact ⟨n, hid ▸ hnumbered.getElem?_of_mem hn, congrArg (List.map Tree.id) hoperands⟩
  · rw [hlinked.parent?_eq_some_iff hfinish hs ht, hfinish.id_mem_operandIds_iff hs ht]
  · refine ⟨_, _, _, hfinish.range?_of_mem ht, fun s hs k hk => ?_, ?_, hfinish.position?_of_mem ht,
      hfinish.tiles_later_operands ht (List.nil_append _).symm⟩
    · obtain rfl : d.finish.position s = k := Option.some.inj ((hfinish.position?_of_mem hs).symm.trans hk)
      rw [← hfinish.mem_subtrees_iff ht hs, hlinked.mem_subtrees_iff_above hfinish hs ht]
    · rw [List.map_map]
      exact List.map_congr_left fun a ha => hfinish.range?_of_mem (hfinish.operand_listed ht ha)
  · rw [hfinish.contains_iff hs ht, hlinked.mem_subtrees_iff_above hfinish ht hs, eq_comm]

/-- `a && b` controls the body of two functions, and `!c` stands free behind them. -/
def sharedBody : List Action :=
  [.name "a", .name "b", .binary (.logic .and) 0 1, .block [], .statement (.ifStmt false) [2, 3], .block [4],
    .name "c", .unary .not 6, .function "f" [] .int 5, .function "g" [] .int 5]

/-- The body of the two functions comes first and is listed once, and the node that stands free comes last. -/
theorem isLaidOut_finish_sharedBody : ∃ d, Draft.performAll? { file := "a.c" } sharedBody = some d ∧
    d.IsUnshared ∧ d.finish.order.map Place.id = [5, 4, 2, 0, 1, 3, 7, 6] ∧ d.finish.IsLaidOut d.nodes := by
  refine ⟨_, rfl, by decide, by decide, ?_⟩
  have hd : Draft.performAll? { file := "a.c" } sharedBody = some _ := rfl
  exact isLaidOut_finish hd (by decide)

end Draft

end ConditionLint
