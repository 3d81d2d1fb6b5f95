import ConditionLint.Proofs.Listing

/-!
# Positions in the source order

In a unit without shared nodes every node has one position, and a node with everything below it occupies
the positions from its own on, one for each of its subtrees. So whether a node contains another, and what
lies between two nodes, is read off their positions and sizes.
-/

namespace ConditionLint

/-- A tree has at least its topmost node. -/
theorem Tree.size_pos (t : Tree) : 0 < t.size := List.length_pos_of_mem (mem_subtrees_self t)

namespace SourceUnit

open ConditionLint.Tree

/-- The index of a node in the source order; 0 for a node that is not listed. -/
def position (u : SourceUnit) (t : Tree) : Nat := (u.position? t).getD 0

/-- The nodes of a slice, by their indices. -/
theorem getElem?_slice (u : SourceUnit) (i j k : Nat) :
    (u.slice i j)[k]? = if i + k < j then u.listing[i + k]?.map u.placeOf else none := by
  rw [slice, List.getElem?_map, List.getElem?_drop, List.getElem?_take]
  split <;> rfl

/-- Where numbers tell listed nodes apart, a node has the position at which it is listed. -/
theorem position?_of_getElem? {u : SourceUnit} (hdistinct : (u.listing.map Tree.id).Nodup) {k : Nat} {t : Tree}
    (ht : u.listing[k]? = some t) : u.position? t = some k := by
  obtain ⟨hk, rfl⟩ := List.getElem?_eq_some_iff.mp ht
  refine List.findIdx?_eq_some_iff_getElem.mpr ⟨hk, beq_self_eq_true _, fun j hj hsame => ?_⟩
  have hids := List.pairwise_iff_getElem.mp (List.pairwise_map.mp hdistinct) j k (hj.trans hk) hk hj
  exact hids (beq_iff_eq.mp hsame)

/-- So the nodes are listed by their positions. -/
theorem pairwise_position {u : SourceUnit} (hdistinct : (u.listing.map Tree.id).Nodup) :
    u.listing.Pairwise fun s t => u.position s < u.position t := by
  have hposition {k : Nat} (hk : k < u.listing.length) : u.position u.listing[k] = k := by
    rw [position, position?_of_getElem? hdistinct (List.getElem?_eq_getElem hk), Option.getD_some]
  rw [List.pairwise_iff_getElem]
  intro i j hi hj hij
  rwa [hposition hi, hposition hj]

namespace IsUnshared

variable {u : SourceUnit} (h : u.IsUnshared) {a b s t : Tree}
include h

/-- The position of a node is the number of nodes in front of its listing. -/
theorem position_eq {before behind : List Tree} (hlisting : u.listing = before ++ t.subtrees ++ behind) :
    u.position t = before.length := by
  rw [position, h.position?_eq hlisting, Option.getD_some]

/-- A listed node has a position. -/
theorem position?_of_mem (ht : t ∈ u.listing) : u.position? t = some (u.position t) := by
  obtain ⟨before, behind, hlisting⟩ := isInfix_listing ht
  rw [h.position?_eq hlisting.symm, h.position_eq hlisting.symm]

/-- A node and everything below it are listed from its position on. -/
theorem getElem?_position_add (ht : t ∈ u.listing) {k : Nat} (hk : k < t.size) :
    u.listing[u.position t + k]? = t.subtrees[k]? := by
  obtain ⟨before, behind, hlisting⟩ := isInfix_listing ht
  rw [h.position_eq hlisting.symm, ← hlisting, List.append_assoc, List.getElem?_append_right (by omega)]
  rw [Nat.add_sub_cancel_left, List.getElem?_append_left hk]

/-- At the position of a node the node is listed. -/
theorem getElem?_position (ht : t ∈ u.listing) : u.listing[u.position t]? = some t := by
  have hsize : 0 < t.size := List.length_pos_of_mem (mem_subtrees_self t)
  have hfirst := h.getElem?_position_add ht hsize
  rwa [Nat.add_zero, subtrees_eq_cons, List.getElem?_cons_zero] at hfirst

/-- A node is listed at its position only. -/
theorem position_of_getElem? {i : Nat} (hi : u.listing[i]? = some t) : u.position t = i := by
  have hlisted := h.getElem?_position (List.mem_of_getElem? hi)
  have hbound := (List.getElem?_eq_some_iff.mp hlisted).1
  exact (List.getElem?_inj hbound h.distinct.of_map).mp (hlisted.trans hi.symm)

/-- Nodes at the same position are the same. -/
theorem eq_of_position_eq (hs : s ∈ u.listing) (ht : t ∈ u.listing) (heq : u.position s = u.position t) :
    s = t := by
  have hlisted := h.getElem?_position hs
  rw [heq, h.getElem?_position ht] at hlisted
  exact (Option.some.inj hlisted).symm

/-- The nodes at and below a node are those at the positions that it occupies. -/
theorem mem_subtrees_iff (ht : t ∈ u.listing) (hs : s ∈ u.listing) :
    s ∈ t.subtrees ↔ u.position t ≤ u.position s ∧ u.position s < u.position t + t.size := by
  constructor
  · intro hmem
    obtain ⟨k, hk, rfl⟩ := List.getElem_of_mem hmem
    have hlisted := h.getElem?_position_add ht hk
    rw [List.getElem?_eq_getElem hk] at hlisted
    rw [h.position_of_getElem? hlisted]
    exact ⟨Nat.le_add_right _ k, Nat.add_lt_add_left hk _⟩
  · rintro ⟨hle, hlt⟩
    have hlisted := h.getElem?_position_add ht (k := u.position s - u.position t) (by omega)
    rw [Nat.add_sub_cancel' hle, h.getElem?_position hs] at hlisted
    exact List.mem_of_getElem? hlisted.symm

/-- What a subtree occupies lies within what the tree occupies. -/
theorem range_of_mem_subtrees (ht : t ∈ u.listing) (hs : s ∈ t.subtrees) :
    u.position t ≤ u.position s ∧ u.position s + s.size ≤ u.position t + t.size := by
  obtain ⟨before, behind, hsplit⟩ := isInfix_subtrees hs
  obtain ⟨front, back, hlisting⟩ := isInfix_listing ht
  have hlisting' : u.listing = (front ++ before) ++ s.subtrees ++ (behind ++ back) := by
    rw [← hlisting, ← hsplit]
    simp
  have hsize : t.size = before.length + s.size + behind.length := by
    rw [size, ← hsplit, List.length_append, List.length_append, size]
  rw [h.position_eq hlisting', h.position_eq hlisting.symm, List.length_append]
  omega

/-- Operands are listed one after the other, the first of them right behind the node. -/
theorem position_operand (ht : t ∈ u.listing) {before behind : List Tree}
    (hoperands : t.operands = before ++ a :: behind) :
    u.position a = u.position t + 1 + (before.flatMap subtrees).length := by
  obtain ⟨l, ts⟩ := t
  obtain rfl : ts = before ++ a :: behind := hoperands
  obtain ⟨front, back, hlisting⟩ := isInfix_listing ht
  have hlisting' : u.listing = (front ++ node l (before ++ a :: behind) :: before.flatMap subtrees) ++
      a.subtrees ++ (behind.flatMap subtrees ++ back) := by
    rw [← hlisting, (h.isWhole ht).subtrees_node]
    simp
  rw [h.position_eq hlisting', h.position_eq hlisting.symm, List.length_append, List.length_cons]
  omega

/-- What stands in an operand is listed before what stands in a later one. -/
theorem end_le_of_later_operand (ht : t ∈ u.listing) {before behind : List Tree}
    (hoperands : t.operands = before ++ b :: behind) (ha : a ∈ before) {r : Tree} (hs : s ∈ a.subtrees)
    (hr : r ∈ b.subtrees) : u.position s + s.size ≤ u.position r := by
  obtain ⟨front, back, rfl⟩ := List.append_of_mem ha
  have hlisted {x : Tree} (hx : x ∈ t.operands) : x ∈ u.listing :=
    (isInfix_listing ht).subset ((h.isWhole ht).mem_of_operand hx)
  have hposition := h.position_operand (a := a) ht (by rw [hoperands, List.append_assoc, List.cons_append])
  have hposition' := h.position_operand ht hoperands
  have hrange := h.range_of_mem_subtrees (hlisted (by simp [hoperands])) hs
  have hrange' := h.range_of_mem_subtrees (hlisted (by simp [hoperands])) hr
  rw [List.flatMap_append, List.flatMap_cons, List.length_append, List.length_append, ← size] at hposition'
  omega

/-- What is listed behind everything below a node is not below it. -/
theorem not_mem_subtrees_of_end_le (hs : s ∈ u.listing) {r : Tree} (hend : u.position s + s.size ≤ u.position r) :
    r ∉ s.subtrees := by
  intro hr
  have hrange := h.range_of_mem_subtrees hs hr
  have hsize := r.size_pos
  omega

/-- The first operand is listed right behind its node. -/
theorem position_first_operand (ht : t ∈ u.listing) (ha : t.operands[0]? = some a) :
    u.position a = u.position t + 1 := by
  obtain ⟨rest, hoperands⟩ : ∃ rest, t.operands = [] ++ a :: rest := by
    cases hts : t.operands <;> simp_all
  exact h.position_operand ht hoperands

/-- An operand is listed right behind everything below the operand in front of it. -/
theorem position_next_operand (ht : t ∈ u.listing) {i : Nat} (ha : t.operands[i]? = some a)
    (hb : t.operands[i + 1]? = some b) : u.position b = u.position a + a.size := by
  have hsplit {j : Nat} {x : Tree} (hx : t.operands[j]? = some x) :
      t.operands = t.operands.take j ++ x :: t.operands.drop (j + 1) := by
    obtain ⟨hj, rfl⟩ := List.getElem?_eq_some_iff.mp hx
    rw [← List.drop_eq_getElem_cons hj, List.take_append_drop]
  rw [h.position_operand ht (hsplit ha), h.position_operand ht (hsplit hb), List.take_add_one, ha]
  simp [size, Nat.add_assoc]

/-- A node strictly below another is at or below one of its operands. -/
theorem exists_operand_of_mem_subtrees (ht : t ∈ u.listing) (hs : s ∈ t.subtrees) (hne : s ≠ t) :
    ∃ x ∈ t.operands, s ∈ x.subtrees := by
  obtain ⟨l, ts⟩ := t
  rw [(h.isWhole ht).subtrees_node, List.mem_cons] at hs
  exact List.mem_flatMap.mp (hs.resolve_left hne)

/-- An operand of a node is not strictly below another node that is strictly below the first. -/
theorem eq_of_operand_of_mem_subtrees (ht : t ∈ u.listing) (ha : a ∈ t.operands) (hs : s ∈ t.subtrees)
    (hne : s ≠ t) (has : a ∈ s.subtrees) : a = s := by
  have hlisted {r : Tree} (hr : r ∈ t.subtrees) : r ∈ u.listing := (isInfix_listing ht).subset hr
  obtain ⟨x, hx, hsx⟩ := h.exists_operand_of_mem_subtrees ht hs hne
  obtain ⟨i, hi⟩ := List.mem_iff_getElem?.mp ha
  obtain ⟨j, hj⟩ := List.mem_iff_getElem?.mp hx
  obtain rfl : i = j := by
    by_contra hij
    exact (h.isUnshared ht).disjoint_operands hij hi hj (id_mem_ids (mem_subtrees_self a))
      (id_mem_ids (mem_subtrees_trans has hsx))
  obtain rfl : a = x := Option.some.inj (hi.symm.trans hj)
  have hamem := (h.isWhole ht).mem_of_operand ha
  have habove := (h.mem_subtrees_iff (hlisted hs) (hlisted hamem)).mp has
  have hbelow := (h.mem_subtrees_iff (hlisted hamem) (hlisted hs)).mp hsx
  exact h.eq_of_position_eq (hlisted hamem) (hlisted hs) (by omega)

/-- An operand of a node that comes before some part of another node strictly below the first does not come
behind that other node. -/
theorem position_operand_le (ht : t ∈ u.listing) (ha : a ∈ t.operands) (hs : s ∈ t.subtrees) (hne : s ≠ t)
    (hb : b ∈ s.subtrees) (hlt : u.position a < u.position b) : u.position a ≤ u.position s := by
  by_contra hbehind
  have hlisted {r : Tree} (hr : r ∈ t.subtrees) : r ∈ u.listing := (isInfix_listing ht).subset hr
  have hrange := h.range_of_mem_subtrees (hlisted hs) hb
  have hsize := b.size_pos
  have has : a ∈ s.subtrees :=
    (h.mem_subtrees_iff (hlisted hs) (hlisted ((h.isWhole ht).mem_of_operand ha))).mpr (by omega)
  obtain rfl := h.eq_of_operand_of_mem_subtrees ht ha hs hne has
  omega

/-- The places of a slice are those of the nodes at its positions. -/
theorem mem_slice_iff {i j : Nat} {q : Place} :
    q ∈ u.slice i j ↔ ∃ t ∈ u.listing, i ≤ u.position t ∧ u.position t < j ∧ u.placeOf t = q := by
  constructor
  · intro hq
    obtain ⟨k, hk⟩ := List.mem_iff_getElem?.mp hq
    rw [u.getElem?_slice] at hk
    split at hk
    · next hlt =>
      obtain ⟨t, ht, rfl⟩ := Option.map_eq_some_iff.mp hk
      have hposition := h.position_of_getElem? ht
      exact ⟨t, List.mem_of_getElem? ht, by omega, by omega, rfl⟩
    · contradiction
  · rintro ⟨t, ht, hle, hlt, rfl⟩
    refine List.mem_iff_getElem?.mpr ⟨u.position t - i, ?_⟩
    rw [u.getElem?_slice, Nat.add_sub_cancel' hle, if_pos hlt, h.getElem?_position ht, Option.map_some]

/-- A node has its place in a slice when its position is in the range. -/
theorem placeOf_mem_slice_iff {i j : Nat} :
    u.placeOf t ∈ u.slice i j ↔ t ∈ u.listing ∧ i ≤ u.position t ∧ u.position t < j := by
  rw [h.mem_slice_iff]
  constructor
  · rintro ⟨s, hs, hstart, hend, hplace⟩
    obtain rfl : s = t := congrArg Place.tree hplace
    exact ⟨hs, hstart, hend⟩
  · rintro ⟨ht, hstart, hend⟩
    exact ⟨t, ht, hstart, hend, rfl⟩

/-- The nodes between two nodes are a slice. -/
theorem between_eq (ha : a ∈ u.listing) (hb : b ∈ u.listing) :
    u.between a b = u.slice (u.position a + a.size) (u.position b) := by
  simp [between, range?, h.position?_of_mem ha, h.position?_of_mem hb]

/-- The nodes behind a node up to the end of another are a slice. -/
theorem restOf_eq_slice (ha : a ∈ u.listing) (hb : b ∈ u.listing) :
    u.restOf a b = u.slice (u.position a + a.size) (u.position b + b.size) := by
  simp [restOf, range?, h.position?_of_mem ha, h.position?_of_mem hb]

/-- The nodes at and below a node are a slice. -/
theorem span_eq_slice (ht : t ∈ u.listing) :
    u.span t = u.slice (u.position t) (u.position t + t.size) := by
  obtain ⟨before, behind, hlisting⟩ := isInfix_listing ht
  rw [h.position_eq hlisting.symm, span, slice, ← hlisting, size, List.take_left' (by simp),
    List.drop_left' rfl]

end IsUnshared

end SourceUnit

end ConditionLint
