import ConditionLint.Proofs.Layout
import ConditionLint.Proofs.Position
import Mathlib.Data.List.Sort

/-!
# The nodes around a node

The place of a node is made from the places of the nodes with greater numbers. In a unit without shared nodes,
where operands have smaller numbers than the nodes that use them, an operand therefore stands right under its
node, and the trees at which the source order begins stand under nothing. So the nodes above a node are those
that have it strictly below them, and they all come before it in the source order.
-/

namespace ConditionLint

open ConditionLint.Tree

/-- Trees that are sorted by their numbers are in the order of their numbers. -/
theorem Tree.pairwise_mergeSort_id (ts : List Tree) :
    (ts.mergeSort fun s t => s.id ≤ t.id).Pairwise fun s t => s.id ≤ t.id := by
  have htrans (r s t : Tree) (hrs : decide (r.id ≤ s.id) = true) (hst : decide (s.id ≤ t.id) = true) :
      decide (r.id ≤ t.id) = true :=
    decide_eq_true (Nat.le_trans (of_decide_eq_true hrs) (of_decide_eq_true hst))
  have htotal (s t : Tree) : (decide (s.id ≤ t.id) || decide (t.id ≤ s.id)) = true := by
    simpa using Nat.le_total s.id t.id
  exact (List.pairwise_mergeSort htrans htotal ts).imp of_decide_eq_true

/-- Where numbers tell the nodes apart, the places of a unit are made from its nodes in the order of their numbers,
however they were put in that order. -/
theorem SourceUnit.ofTrees_eq {vars : List Variable} {functions : List Function} {starts : List Tree}
    (hdistinct : ((starts.flatMap subtrees).map Tree.id).Nodup) :
    ofTrees vars functions starts = ⟨vars, functions, starts,
      Place.ofTrees ((starts.flatMap subtrees).insertionSort fun s t => s.id ≤ t.id)⟩ := by
  have htotal : Std.Total fun s t : Tree => s.id ≤ t.id := ⟨fun s t => Nat.le_total s.id t.id⟩
  have htrans : IsTrans Tree fun s t => s.id ≤ t.id := ⟨fun _ _ _ => Nat.le_trans⟩
  have hsort : ((starts.flatMap subtrees).mergeSort fun s t => s.id ≤ t.id) =
      (starts.flatMap subtrees).insertionSort fun s t => s.id ≤ t.id := by
    refine List.Perm.eq_of_pairwise (fun s t hs ht hst hts => ?_) (pairwise_mergeSort_id _)
      (List.pairwise_insertionSort _ _) ((List.mergeSort_perm _ _).trans (List.perm_insertionSort _ _).symm)
    exact List.inj_on_of_nodup_map hdistinct (List.mem_mergeSort.mp hs) ((List.mem_insertionSort _).mp ht)
      (Nat.le_antisymm hst hts)
  rw [ofTrees, hsort]

/-- So the unit that comes from a draft without shared nodes can be computed. -/
theorem Draft.finish_eq {file : String} {actions : List Action} {d : Draft}
    (h : Draft.performAll? { file := file } actions = some d) (hu : d.IsUnshared) :
    d.finish = { d.finish with
      places := Place.ofTrees (d.finish.listing.insertionSort fun s t => s.id ≤ t.id) } :=
  SourceUnit.ofTrees_eq (isUnshared_finish h hu).distinct

namespace Place

/-- Every tree has one place. -/
@[simp] theorem map_tree_ofTrees (ts : List Tree) : (ofTrees ts).map tree = ts := by
  induction ts with
  | nil => rfl
  | cons t ts ih =>
    rw [ofTrees]
    split <;> rw [List.map_cons, ih]

/-- What stands above a place is read off the places of the trees behind it. -/
theorem exists_split_of_mem_ofTrees {ts : List Tree} {p : Place} (h : p ∈ ofTrees ts) :
    ∃ before behind, ts = before ++ p.tree :: behind ∧ ofTrees behind ⊆ ofTrees ts ∧
      p.above = (lastUser? (ofTrees behind) p.id).elim [] fun q => q.tree :: q.above := by
  induction ts with
  | nil => simp [ofTrees] at h
  | cons t ts ih =>
    have hlater : ofTrees ts ⊆ ofTrees (t :: ts) := by
      rw [ofTrees]
      split <;> exact List.subset_cons_self _ _
    have hfirst : ∃ q, ofTrees (t :: ts) = q :: ofTrees ts ∧ q.tree = t ∧
        q.above = (lastUser? (ofTrees ts) t.id).elim [] fun q => q.tree :: q.above := by
      rw [ofTrees]
      split
      · next user huser => exact ⟨_, rfl, rfl, by rw [huser]; rfl⟩
      · next hnone => exact ⟨_, rfl, rfl, by rw [hnone]; rfl⟩
    obtain ⟨q, hofTrees, rfl, habove⟩ := hfirst
    rw [hofTrees] at h
    rcases List.mem_cons.mp h with rfl | hp
    · exact ⟨[], ts, rfl, hlater, habove⟩
    · obtain ⟨before, behind, hsplit, hsubset, habove⟩ := ih hp
      exact ⟨q.tree :: before, behind, by rw [hsplit]; rfl, List.Subset.trans hsubset hlater, habove⟩

/-- A node that one of the places uses has a last user. -/
theorem exists_lastUser? {ps : List Place} {i : NodeId} {p : Place} (hp : p ∈ ps) (huses : p.tree.uses i = true) :
    ∃ q, lastUser? ps i = some q := by
  have hne : (ps.filter fun q => q.tree.uses i) ≠ [] := List.ne_nil_of_mem (List.mem_filter.mpr ⟨hp, huses⟩)
  exact ⟨_, List.getLast?_eq_some_getLast hne⟩

end Place

namespace SourceUnit

/-- Operands stand right under their nodes, and the trees at which the source order begins under nothing. -/
structure IsLinked (u : SourceUnit) : Prop where
  start : ∀ t ∈ u.starts, (u.placeOf t).above = []
  operand : ∀ t ∈ u.listing, ∀ a ∈ t.operands, (u.placeOf a).above = t :: (u.placeOf t).above

namespace IsUnshared

variable {u : SourceUnit} (h : u.IsUnshared) {a s t : Tree}
include h

/-- An operand of a listed node is listed. -/
theorem operand_listed (ht : t ∈ u.listing) (ha : a ∈ t.operands) : a ∈ u.listing :=
  (isInfix_listing ht).subset ((h.isWhole ht).mem_of_operand ha)

/-- Operands are listed behind their nodes. -/
theorem position_lt_operand (ht : t ∈ u.listing) (ha : a ∈ t.operands) : u.position t < u.position a := by
  obtain ⟨before, behind, hsplit⟩ := List.append_of_mem ha
  have hposition := h.position_operand ht hsplit
  omega

/-- No node is an operand of two listed nodes: the later one would lie in another operand of the first. -/
theorem eq_of_common_operand (hs : s ∈ u.listing) (ht : t ∈ u.listing) (has : a ∈ s.operands)
    (hat : a ∈ t.operands) : s = t := by
  have hbehind {s t : Tree} (hs : s ∈ u.listing) (ht : t ∈ u.listing) (has : a ∈ s.operands)
      (hat : a ∈ t.operands) : ¬u.position s < u.position t := by
    intro hlt
    have hta := h.position_lt_operand ht hat
    have hsa := h.range_of_mem_subtrees hs ((h.isWhole hs).mem_of_operand has)
    have hsize := a.size_pos
    have hts : t ∈ s.subtrees := (h.mem_subtrees_iff hs ht).mpr (by omega)
    have hne : t ≠ s := by
      rintro rfl
      omega
    obtain rfl := h.eq_of_operand_of_mem_subtrees hs has hts hne ((h.isWhole ht).mem_of_operand hat)
    omega
  have hst := hbehind hs ht has hat
  have hts := hbehind ht hs hat has
  exact h.eq_of_position_eq hs ht (by omega)

/-- A tree at which the source order begins is no operand. -/
theorem not_mem_operands_of_mem_starts (hs : s ∈ u.starts) (ht : t ∈ u.listing) : s ∉ t.operands := by
  intro hst
  obtain ⟨start, hstart, htstart⟩ := List.mem_flatMap.mp ht
  have hmem : s ∈ start.subtrees := mem_subtrees_trans ((h.isWhole ht).mem_of_operand hst) htstart
  have hlt := h.position_lt_operand ht hst
  obtain rfl : start = s := by
    have hdistinct : (u.starts.flatMap ids).Nodup := by
      have hdistinct := h.distinct
      rwa [listing, List.map_flatMap] at hdistinct
    exact eq_of_mem_of_nodup_flatMap hdistinct hstart hs (id_mem_ids hmem) (id_mem_ids (mem_subtrees_self s))
  have hrange := h.range_of_mem_subtrees (mem_listing_of_mem_starts hs) htstart
  omega

/-- What holds where the source order begins and passes from listed nodes to their operands holds of all listed
nodes. -/
theorem of_mem_listing {P : Tree → Prop} (hstart : ∀ t ∈ u.starts, P t)
    (hoperand : ∀ t ∈ u.listing, P t → ∀ a ∈ t.operands, P a) (ht : t ∈ u.listing) : P t := by
  obtain ⟨start, hmem, ht⟩ := List.mem_flatMap.mp ht
  have hboth : start ∈ u.listing ∧ P start := ⟨mem_listing_of_mem_starts hmem, hstart start hmem⟩
  refine (of_mem_subtrees (P := fun t => t ∈ u.listing ∧ P t) (fun t ht a ha => ?_) hboth ht).2
  exact ⟨h.operand_listed ht.1 ha, hoperand t ht.1 ht.2 a ha⟩

/-- A listed node begins the source order anew or is an operand of a listed node. -/
theorem mem_starts_or_operand (ht : t ∈ u.listing) : t ∈ u.starts ∨ ∃ s ∈ u.listing, t ∈ s.operands :=
  h.of_mem_listing (P := fun t => t ∈ u.starts ∨ ∃ s ∈ u.listing, t ∈ s.operands) (fun _ ht => Or.inl ht)
    (fun s hs _ _ ha => Or.inr ⟨s, hs, ha⟩) ht

end IsUnshared

section Places

variable {u : SourceUnit} (hdistinct : (u.listing.map Tree.id).Nodup)
  (hplaces : u.places = Place.ofTrees (u.listing.mergeSort fun s t => s.id ≤ t.id)) {s t : Tree}
include hdistinct hplaces

/-- The places of a unit are those of its listed nodes. -/
theorem of_mem_places {p : Place} (hp : p ∈ u.places) : p.tree ∈ u.listing ∧ u.placeOf p.tree = p := by
  have htrees : u.places.map Place.tree = u.listing.mergeSort fun s t => s.id ≤ t.id := by
    rw [hplaces, Place.map_tree_ofTrees]
  have hnodup : (u.places.map Place.id).Nodup := by
    have hids : u.places.map Place.id = (u.places.map Place.tree).map Tree.id := by
      rw [List.map_map]
      rfl
    rw [hids, htrees]
    exact ((List.mergeSort_perm _ _).map Tree.id).nodup_iff.mpr hdistinct
  refine ⟨List.mem_mergeSort.mp (htrees ▸ List.mem_map_of_mem hp), ?_⟩
  have hplace : u.place? p.tree.id = some p := find?_key_of_mem hnodup hp
  rw [placeOf, hplace]
  rfl

/-- What stands above a listed node is read off the places of the nodes with greater numbers. -/
theorem exists_split_of_mem_listing (ht : t ∈ u.listing) : ∃ before behind,
    (u.listing.mergeSort fun s t => s.id ≤ t.id) = before ++ t :: behind ∧ Place.ofTrees behind ⊆ u.places ∧
      (u.placeOf t).above =
        (Place.lastUser? (Place.ofTrees behind) t.id).elim [] fun q => q.tree :: q.above := by
  obtain ⟨p, hp, rfl⟩ : ∃ p ∈ u.places, p.tree = t := by
    refine List.mem_map.mp ?_
    rw [hplaces, Place.map_tree_ofTrees]
    exact List.mem_mergeSort.mpr ht
  rw [(of_mem_places hdistinct hplaces hp).2, hplaces]
  exact Place.exists_split_of_mem_ofTrees (hplaces ▸ hp)

/-- The node that a listed node stands under is listed, and what stands above the one is what stands above the
other behind it. -/
theorem of_parent?_placeOf (ht : t ∈ u.listing) (hparent : (u.placeOf t).parent? = some s) :
    s ∈ u.listing ∧ (u.placeOf t).above = s :: (u.placeOf s).above := by
  obtain ⟨before, behind, -, hsubset, habove⟩ := exists_split_of_mem_listing hdistinct hplaces ht
  rw [Place.parent?, habove] at hparent
  cases hlast : Place.lastUser? (Place.ofTrees behind) t.id with
  | none => simp [hlast] at hparent
  | some q =>
    obtain rfl : q.tree = s := by simpa [hlast] using hparent
    obtain ⟨hlisted, hplace⟩ := of_mem_places hdistinct hplaces (hsubset (Place.of_lastUser? hlast).1)
    rw [habove, hlast, hplace]
    exact ⟨hlisted, rfl⟩

end Places

section Linking

variable {u : SourceUnit} (h : u.IsUnshared)
  (hplaces : u.places = Place.ofTrees (u.listing.mergeSort fun s t => s.id ≤ t.id)) {t : Tree}
include h hplaces

/-- A node at a place that uses the number of a listed node has this node among its operands. -/
theorem mem_operands_of_uses {q : Place} (hq : q ∈ u.places) (ht : t ∈ u.listing)
    (huses : q.tree.uses t.id = true) : t ∈ q.tree.operands := by
  obtain ⟨a, ha, hid⟩ := List.any_eq_true.mp huses
  have halisted := h.operand_listed (of_mem_places h.distinct hplaces hq).1 ha
  exact h.eq_of_id_eq halisted ht (by simpa using hid) ▸ ha

/-- Places follow the operands when operands have smaller numbers than the nodes that use them. -/
theorem isLinked (hordered : ∀ t ∈ u.listing, ∀ a ∈ t.operands, a.id < t.id) : u.IsLinked where
  start t ht := by
    have hlisted := mem_listing_of_mem_starts ht
    obtain ⟨before, behind, -, hsubset, habove⟩ := exists_split_of_mem_listing h.distinct hplaces hlisted
    rw [habove]
    cases hlast : Place.lastUser? (Place.ofTrees behind) t.id with
    | none => rfl
    | some q =>
      obtain ⟨hq, huses⟩ := Place.of_lastUser? hlast
      have hoperand := mem_operands_of_uses h hplaces (hsubset hq) hlisted huses
      exact absurd hoperand (h.not_mem_operands_of_mem_starts ht (of_mem_places h.distinct hplaces (hsubset hq)).1)
  operand t ht a ha := by
    have halisted := h.operand_listed ht ha
    obtain ⟨before, behind, hsplit, hsubset, habove⟩ := exists_split_of_mem_listing h.distinct hplaces halisted
    have hlt := hordered t ht a ha
    -- The node has a greater number than its operand, so its place is made before that of the operand.
    have hbehind : t ∈ behind := by
      have hmem : t ∈ u.listing.mergeSort fun s t => s.id ≤ t.id := List.mem_mergeSort.mpr ht
      have hsorted := pairwise_mergeSort_id u.listing
      rw [hsplit] at hmem hsorted
      rcases List.mem_append.mp hmem with hbefore | hmem
      · have hle := (List.pairwise_append.mp hsorted).2.2 t hbefore a List.mem_cons_self
        exact absurd hlt (Nat.not_lt.mpr hle)
      · refine (List.mem_cons.mp hmem).resolve_left ?_
        rintro rfl
        exact Nat.lt_irrefl _ hlt
    obtain ⟨p, hp, rfl⟩ : ∃ p ∈ Place.ofTrees behind, p.tree = t :=
      List.mem_map.mp (by rwa [Place.map_tree_ofTrees])
    have huses : p.tree.uses a.id = true := List.any_eq_true.mpr ⟨a, ha, by simp⟩
    obtain ⟨q, hlast⟩ := Place.exists_lastUser? hp huses
    obtain ⟨hq, huses⟩ := Place.of_lastUser? hlast
    obtain ⟨hqlisted, hqplace⟩ := of_mem_places h.distinct hplaces (hsubset hq)
    have hsame : q.tree = p.tree := h.eq_of_common_operand hqlisted ht
      (mem_operands_of_uses h hplaces (hsubset hq) halisted huses) ha
    rw [habove, hlast, ← hsame, hqplace]
    rfl

end Linking

namespace IsLinked

variable {u : SourceUnit} (hl : u.IsLinked) (h : u.IsUnshared) {s t : Tree}
include hl h

/-- The nodes above a node are those above a node around it, and some more in front of them. -/
theorem isSuffix_of_mem_subtrees (ht : t ∈ u.listing) (hs : s ∈ t.subtrees) :
    t :: (u.placeOf t).above <:+ s :: (u.placeOf s).above := by
  have hself : t ∈ u.listing ∧ t :: (u.placeOf t).above <:+ t :: (u.placeOf t).above := ⟨ht, List.suffix_rfl⟩
  refine (of_mem_subtrees (P := fun s => s ∈ u.listing ∧ t :: (u.placeOf t).above <:+ s :: (u.placeOf s).above)
    (fun s hs a ha => ?_) hself hs).2
  refine ⟨h.operand_listed hs.1 ha, hs.2.trans ?_⟩
  rw [hl.operand s hs.1 a ha]
  exact List.suffix_cons _ _

/-- The nodes above a listed node are listed before it and have it below them. -/
theorem of_mem_above (ht : t ∈ u.listing) (hs : s ∈ (u.placeOf t).above) :
    s ∈ u.listing ∧ t ∈ s.subtrees ∧ u.position s < u.position t := by
  refine h.of_mem_listing (P := fun t => ∀ s ∈ (u.placeOf t).above,
    s ∈ u.listing ∧ t ∈ s.subtrees ∧ u.position s < u.position t) (fun t ht s hs => ?_) ?_ ht s hs
  · simp [hl.start t ht] at hs
  · intro t ht ih a ha s hs
    have hlt := h.position_lt_operand ht ha
    have hat := (h.isWhole ht).mem_of_operand ha
    rw [hl.operand t ht a ha] at hs
    rcases List.mem_cons.mp hs with rfl | hs
    · exact ⟨ht, hat, hlt⟩
    · obtain ⟨hlisted, hmem, hfront⟩ := ih s hs
      exact ⟨hlisted, mem_subtrees_trans hat hmem, hfront.trans hlt⟩

/-- The nodes above a node are those that have it strictly below them. -/
theorem mem_above_iff (hs : s ∈ u.listing) (ht : t ∈ u.listing) :
    s ∈ (u.placeOf t).above ↔ t ∈ s.subtrees ∧ s ≠ t := by
  constructor
  · intro hmem
    obtain ⟨-, hbelow, hlt⟩ := hl.of_mem_above h ht hmem
    refine ⟨hbelow, ?_⟩
    rintro rfl
    omega
  · rintro ⟨hbelow, hne⟩
    have hmem := (hl.isSuffix_of_mem_subtrees h hs hbelow).subset List.mem_cons_self
    exact (List.mem_cons.mp hmem).resolve_left hne

/-- A node stands right under the listed node that has it as an operand. -/
theorem parent?_eq_some_iff (hs : s ∈ u.listing) (ht : t ∈ u.listing) :
    (u.placeOf t).parent? = some s ↔ t ∈ s.operands := by
  constructor
  · exact fun hparent => (h.of_parent? ht hparent).2
  · intro hmem
    rw [Place.parent?, hl.operand s hs t hmem, List.head?_cons]

/-- The nodes above a node are the one that it stands under and those above that one. -/
theorem above_eq (ht : t ∈ u.listing) :
    (u.placeOf t).above = (u.placeOf t).parent?.elim [] fun s => s :: (u.placeOf s).above := by
  rcases h.mem_starts_or_operand ht with hstart | ⟨s, hs, hmem⟩
  · rw [Place.parent?, hl.start t hstart]
    rfl
  · rw [(hl.parent?_eq_some_iff h hs ht).mpr hmem]
    exact hl.operand s hs t hmem

/-- The places that stand under no other node are those at which the source order begins. -/
theorem roots_eq : u.roots = u.starts.map u.placeOf := by
  have hfirst : ∀ t ∈ u.starts, (t.subtrees.filter fun s => (u.placeOf s).above.isEmpty) = [t] := by
    intro t ht
    have hlisted := mem_listing_of_mem_starts ht
    have hdistinct := (h.isUnshared hlisted).distinct
    rw [ids, subtrees_eq_cons, List.map_cons] at hdistinct
    rw [subtrees_eq_cons, List.filter_cons_of_pos (by simp [hl.start t ht]), List.filter_eq_nil_iff.mpr]
    intro s hs hempty
    have hbelow : s ∈ t.subtrees := by
      rw [subtrees_eq_cons]
      exact List.mem_cons_of_mem t hs
    have hne : t ≠ s := by
      rintro rfl
      exact (List.nodup_cons.mp hdistinct).1 (List.mem_map_of_mem hs)
    have habove := (hl.mem_above_iff h hlisted ((isInfix_listing hlisted).subset hbelow)).mpr ⟨hbelow, hne⟩
    rw [List.isEmpty_iff.mp hempty] at habove
    exact List.not_mem_nil habove
  have hroots : (u.listing.filter fun s => (u.placeOf s).above.isEmpty) = u.starts := by
    rw [listing, List.filter_flatMap, List.flatMap_congr hfirst]
    simp
  rw [roots, order, List.filter_map]
  exact congrArg (List.map u.placeOf) hroots

/-- A check looks at every node once, in source order. -/
theorem scanned_eq_order : u.scanned = u.order := by
  rw [scanned, hl.roots_eq h, List.flatMap_map, order, listing, List.map_flatMap]
  rfl

end IsLinked

end SourceUnit

/-- In the unit that a draft without shared nodes settles into, places follow the operands. -/
theorem Draft.isLinked_finish {file : String} {actions : List Action} {d : Draft}
    (h : Draft.performAll? { file := file } actions = some d) (hu : d.IsUnshared) : d.finish.IsLinked := by
  refine SourceUnit.isLinked (isUnshared_finish h hu) rfl fun t ht a ha => ?_
  obtain ⟨n, hn, hid, hoperands⟩ := exists_node_of_mem_listing h hu ht
  exact hid ▸ ((isNumbered_of_performAll? h).ordered n hn a (hoperands ▸ ha)).2

end ConditionLint
