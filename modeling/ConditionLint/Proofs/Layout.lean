import ConditionLint.Proofs.Draft
import ConditionLint.Proofs.Listing

/-!
# Drafts without shared nodes

Laying out trees that have no node in common marks nothing. The nodes that a draft lists are the trees at which
the source order begins and the operands of nodes that it lists. So when every node is an operand at most once,
and no function body is one, every node is listed exactly once, and the unit that the draft settles into is
unshared. Functions may have a body in common; it is laid out once.
-/

namespace ConditionLint

open ConditionLint.Tree

namespace Tree

/-- Laying out trees without common nodes gives the trees again when this holds for each of them. -/
theorem layOutAll_of_nodup {ts : List Tree} (laid : List Tree) (hnodup : (ts.flatMap ids).Nodup)
    (hlaid : ∀ s ∈ laid, s.id ∉ ts.flatMap ids)
    (hts : ∀ t ∈ ts, ∀ laid : List Tree, t.ids.Nodup → (∀ s ∈ laid, s.id ∉ t.ids) →
      (layOut laid t).1 = t ∧ ∀ s, s ∈ (layOut laid t).2 ↔ s ∈ laid ∨ s ∈ t.subtrees) :
    (layOutAll laid ts).1 = ts ∧ ∀ s, s ∈ (layOutAll laid ts).2 ↔ s ∈ laid ∨ s ∈ ts.flatMap subtrees := by
  induction ts generalizing laid with
  | nil => exact ⟨rfl, fun s => by simp [layOutAll]⟩
  | cons t ts ih =>
    rw [List.flatMap_cons] at hnodup hlaid
    obtain ⟨ht, hrest, hdisjoint⟩ := List.nodup_append'.mp hnodup
    simp only [List.mem_append, not_or] at hlaid
    obtain ⟨hfirst, hlater⟩ := hts t List.mem_cons_self laid ht fun s hs => (hlaid s hs).1
    have hbehind : ∀ s ∈ (layOut laid t).2, s.id ∉ ts.flatMap ids := by
      intro s hs
      rcases (hlater s).mp hs with hs | hs
      · exact (hlaid s hs).2
      · exact hdisjoint (id_mem_ids hs)
    obtain ⟨hrest, hall⟩ := ih (layOut laid t).2 hrest hbehind fun s hs => hts s (List.mem_cons_of_mem t hs)
    refine ⟨by simp [layOutAll, hfirst, hrest], fun s => ?_⟩
    rw [List.flatMap_cons, List.mem_append, ← or_assoc, ← hlater s]
    exact hall s

/-- Laying out a tree that has no node twice and none of those laid out already gives the tree again, and lays
out its nodes. -/
theorem layOut_of_nodup {t : Tree} (hwhole : t.IsWhole) (laid : List Tree) (hnodup : t.ids.Nodup)
    (hlaid : ∀ s ∈ laid, s.id ∉ t.ids) :
    (layOut laid t).1 = t ∧ ∀ s, s ∈ (layOut laid t).2 ↔ s ∈ laid ∨ s ∈ t.subtrees := by
  induction t using induction_operands generalizing laid with
  | step l ts ih =>
    rw [hwhole.ids_node] at hnodup hlaid
    obtain ⟨-, hoperands⟩ := List.nodup_cons.mp hnodup
    have hnew : withId? laid l.id = none := by
      refine List.find?_eq_none.mpr fun s hs heq => hlaid s hs ?_
      simp [beq_iff_eq.mp heq]
    obtain ⟨hts, hlater⟩ := layOutAll_of_nodup laid hoperands
      (fun s hs hmem => hlaid s hs (List.mem_cons_of_mem _ hmem))
      fun t ht laid => ih t ht (hwhole.operand ht) laid
    rw [layOut, hnew]
    refine ⟨by simp [hts], fun s => ?_⟩
    dsimp only
    rw [hwhole.subtrees_node, hts, List.mem_cons, hlater s, List.mem_cons, or_left_comm]

/-- Unmarked trees without a node twice, any two of which are the same or have no node in common. -/
structure AreApart (ts : List Tree) : Prop where
  unshared : ∀ t ∈ ts, t.IsUnshared
  here : ∀ t ∈ ts, t.isElsewhere = false
  apart : ∀ s ∈ ts, ∀ t ∈ ts, s = t ∨ s.ids.Disjoint t.ids

/-- A tree whose topmost node is laid out already is marked, and nothing more is laid out. -/
theorem layOut_of_laid {laid : List Tree} {t : Tree} (h : ∃ s ∈ laid, s.id = t.id) :
    ∃ marked, layOut laid t = (marked, laid) ∧ marked.isElsewhere = true := by
  obtain ⟨l, ts⟩ := t
  obtain ⟨s, hs, hid⟩ := h
  have hfound : (withId? laid l.id).isSome := List.find?_isSome.mpr ⟨s, hs, beq_iff_eq.mpr hid⟩
  obtain ⟨r, hr⟩ := Option.isSome_iff_exists.mp hfound
  refine ⟨r.markElsewhere, by rw [layOut, hr], ?_⟩
  cases r
  rfl

/-- The tree is laid out already, or none of its nodes is. -/
def IsSettled (laid : List Tree) (t : Tree) : Prop := (∃ s ∈ laid, s.id = t.id) ∨ ∀ s ∈ laid, s.id ∉ t.ids

namespace AreApart

variable {t : Tree} {ts : List Tree}

/-- Trees that are apart are so without the first of them. -/
theorem tail (h : AreApart (t :: ts)) : AreApart ts :=
  ⟨fun s hs => h.unshared s (List.mem_cons_of_mem t hs), fun s hs => h.here s (List.mem_cons_of_mem t hs),
    fun r hr s hs => h.apart r (List.mem_cons_of_mem t hr) s (List.mem_cons_of_mem t hs)⟩

/-- Laying out the first of several trees that are apart leaves no other one laid out in part. -/
theorem isSettled_append (h : AreApart (t :: ts)) {laid later : List Tree}
    (hlater : ∀ s, s ∈ later ↔ s ∈ laid ∨ s ∈ t.subtrees) {s : Tree} (hs : s ∈ ts) (hsettled : IsSettled laid s) :
    IsSettled later s := by
  rcases hsettled with ⟨r, hr, hid⟩ | hfresh
  · exact Or.inl ⟨r, (hlater r).mpr (Or.inl hr), hid⟩
  rcases h.apart t List.mem_cons_self s (List.mem_cons_of_mem t hs) with rfl | hdisjoint
  · exact Or.inl ⟨t, (hlater t).mpr (Or.inr (mem_subtrees_self t)), rfl⟩
  · refine Or.inr fun r hr => ?_
    rcases (hlater r).mp hr with hr | hr
    · exact hfresh r hr
    · exact hdisjoint (id_mem_ids hr)

/-- Of trees that are apart, those that are not laid out yet are laid out, each of them once. A tree that is laid
out already is marked and does not count. -/
theorem filter_layOutAll (h : AreApart ts) (laid : List Tree) (hlaid : ∀ t ∈ ts, IsSettled laid t) :
    ∃ kept, ((layOutAll laid ts).1.filter fun t => !t.isElsewhere) = kept ∧ kept ⊆ ts ∧
      (∀ t ∈ ts, (∃ s ∈ laid, s.id = t.id) ∨ t ∈ kept) ∧ (kept.flatMap ids).Nodup ∧
      ∀ s ∈ laid, s.id ∉ kept.flatMap ids := by
  induction ts generalizing laid with
  | nil => exact ⟨[], rfl, by simp, by simp, by simp, by simp⟩
  | cons t ts ih =>
    obtain ⟨hfirst, hrest⟩ := List.forall_mem_cons.mp hlaid
    rcases hfirst with hold | hnew
    · obtain ⟨marked, hlayOut, hmarked⟩ := layOut_of_laid hold
      obtain ⟨kept, hkept, hsubset, hall, hnodup, hapart⟩ := ih h.tail laid hrest
      refine ⟨kept, ?_, List.subset_cons_of_subset t hsubset, List.forall_mem_cons.mpr ⟨Or.inl hold, hall⟩,
        hnodup, hapart⟩
      simpa [layOutAll, hlayOut, hmarked] using hkept
    · have htunshared := h.unshared t List.mem_cons_self
      obtain ⟨hsame, hlater⟩ := layOut_of_nodup htunshared.whole laid htunshared.distinct hnew
      obtain ⟨kept, hkept, hsubset, hall, hnodup, hapart⟩ :=
        ih h.tail (layOut laid t).2 fun s hs => h.isSettled_append hlater hs (hrest s hs)
      refine ⟨t :: kept, ?_, List.cons_subset_cons t hsubset, List.forall_mem_cons.mpr ⟨Or.inr List.mem_cons_self,
        fun s hs => ?_⟩, ?_, fun s hs => ?_⟩
      · simp [layOutAll, hsame, h.here t List.mem_cons_self, hkept]
      · rcases hall s hs with ⟨r, hr, hid⟩ | hmem
        · rcases (hlater r).mp hr with hr | hr
          · exact Or.inl ⟨r, hr, hid⟩
          · -- The tree has its topmost node in common with the first one, so it is the first one.
            rcases h.apart t List.mem_cons_self s (List.mem_cons_of_mem _ hs) with rfl | hdisjoint
            · exact Or.inr List.mem_cons_self
            · exact absurd (hid ▸ id_mem_ids (mem_subtrees_self s)) (hdisjoint (id_mem_ids hr))
        · exact Or.inr (List.mem_cons_of_mem t hmem)
      · rw [List.flatMap_cons, List.nodup_append']
        refine ⟨htunshared.distinct, hnodup, fun x hx => ?_⟩
        obtain ⟨s, hs, rfl⟩ := List.mem_map.mp hx
        exact hapart s ((hlater s).mpr (Or.inr hs))
      · rw [List.flatMap_cons, List.mem_append, not_or]
        exact ⟨hnew s hs, hapart s ((hlater s).mpr (Or.inl hs))⟩

/-- The source order of trees that are apart begins anew at each of them, and lists no node twice. -/
theorem starts_spec (h : AreApart ts) :
    starts ts ⊆ ts ∧ ts ⊆ starts ts ∧ ((starts ts).flatMap ids).Nodup := by
  obtain ⟨kept, hkept, hsubset, hall, hnodup, -⟩ := h.filter_layOutAll [] (by simp [IsSettled])
  rw [starts, hkept]
  exact ⟨hsubset, fun t ht => (hall t ht).resolve_left (by simp), hnodup⟩

end AreApart

/-- The numbers of the operands of a node. -/
def operandIds (t : Tree) : List NodeId := t.operands.map id

/-- A node is listed as often as it is one of the trees or an operand of a listed node, when this holds for each
of the trees. -/
theorem count_flatMap_ids {ts : List Tree} {x : NodeId}
    (h : ∀ t ∈ ts, t.ids.count x = [t.id].count x + (t.subtrees.flatMap operandIds).count x) :
    (ts.flatMap ids).count x = (ts.map id).count x + ((ts.flatMap subtrees).flatMap operandIds).count x := by
  induction ts with
  | nil => rfl
  | cons t ts ih =>
    have hfirst := h t List.mem_cons_self
    have hrest := ih fun s hs => h s (List.mem_cons_of_mem t hs)
    simp only [List.flatMap_cons, List.flatMap_append, List.count_append, List.map_cons, List.count_cons,
      List.count_nil] at hfirst hrest ⊢
    omega

/-- A node is listed in a tree as often as it is the topmost node or an operand of a listed one. -/
theorem count_ids {t : Tree} (hwhole : t.IsWhole) (x : NodeId) :
    t.ids.count x = [t.id].count x + (t.subtrees.flatMap operandIds).count x := by
  induction t using induction_operands with
  | step l ts ih =>
    have hoperands := count_flatMap_ids fun t ht => ih t ht (hwhole.operand ht)
    rw [hwhole.ids_node, hwhole.subtrees_node, List.flatMap_cons, List.count_append]
    rw [List.count_cons, hoperands, List.count_singleton, operandIds, operands]
    exact Nat.add_comm _ _

end Tree

/-- When only one node has the number `x` in its list, and has it once, `x` occurs in the lists of nodes at most
as often as that node occurs. -/
theorem count_flatMap_le {ts : List Tree} {numbers : Tree → List NodeId} {x y : NodeId}
    (h : ∀ t ∈ ts, (numbers t).Nodup ∧ (x ∈ numbers t → t.id = y)) :
    (ts.flatMap numbers).count x ≤ (ts.map Tree.id).count y := by
  induction ts with
  | nil => exact le_rfl
  | cons t ts ih =>
    obtain ⟨hnodup, hid⟩ := h t List.mem_cons_self
    have hrest := ih fun s hs => h s (List.mem_cons_of_mem t hs)
    rw [List.flatMap_cons, List.count_append, List.map_cons, List.count_cons]
    by_cases hmem : x ∈ numbers t
    · have hone := List.count_eq_one_of_mem hnodup hmem
      simp only [hid hmem, beq_self_eq_true, if_true]
      omega
    · rw [List.count_eq_zero_of_not_mem hmem]
      omega

namespace Draft

/-- Nodes are numbered in the order in which they are made, from operands that were made before, and no node is
marked or said to be the body of a function. -/
structure IsNumbered (d : Draft) : Prop where
  numbered : ∀ (i : Nat) (t : Tree), d.nodes[i]? = some t → t.id = i
  ordered : ∀ t ∈ d.nodes, ∀ a ∈ t.operands, a ∈ d.nodes ∧ a.id < t.id
  unmarked : ∀ t ∈ d.nodes, t.isElsewhere = false
  unowned : ∀ t ∈ d.nodes, t.label.owner = none

/-- No node is an operand twice, and the bodies of functions are no operands. Functions may have a body in
common. -/
structure IsUnshared (d : Draft) : Prop where
  operands : (d.nodes.flatMap operandIds).Nodup
  apart : ∀ f ∈ d.functions, f.body ∉ d.nodes.flatMap operandIds

instance (d : Draft) : Decidable d.IsUnshared :=
  decidable_of_iff ((d.nodes.flatMap operandIds).Nodup ∧ ∀ f ∈ d.functions, f.body ∉ d.nodes.flatMap operandIds)
    ⟨fun h => ⟨h.1, h.2⟩, fun h => ⟨h.operands, h.apart⟩⟩

/-- Only one node has a given operand. -/
theorem IsUnshared.eq_of_mem {d : Draft} (h : d.IsUnshared) {m n : Tree} (hm : m ∈ d.nodes)
    (hn : n ∈ d.nodes) {x : NodeId} (hxm : x ∈ m.operandIds) (hxn : x ∈ n.operandIds) : m = n :=
  eq_of_mem_of_nodup_flatMap h.operands hm hn hxm hxn

namespace IsNumbered

variable {d d' : Draft} (h : d.IsNumbered)
include h

/-- The number of a node is its index. -/
theorem getElem?_of_mem {t : Tree} (ht : t ∈ d.nodes) : d.nodes[t.id]? = some t := by
  obtain ⟨i, hi⟩ := List.mem_iff_getElem?.mp ht
  rwa [h.numbered i t hi]

/-- Numbers are below the number of nodes. -/
theorem id_lt {t : Tree} (ht : t ∈ d.nodes) : t.id < d.nodes.length :=
  (List.getElem?_eq_some_iff.mp (h.getElem?_of_mem ht)).1

/-- Making a node gives it the next number. -/
theorem addReferring {kind : Kind} {operands : List Tree} {ctype : Option CType} {referent : Option Variable}
    (hoperands : ∀ t ∈ operands, t ∈ d.nodes) : (d.addReferring kind operands ctype referent).IsNumbered where
  numbered i t hi := by
    rcases of_getElem?_concat hi with hi | ⟨rfl, rfl⟩
    · exact h.numbered i t hi
    · rfl
  ordered t ht a ha := by
    rcases List.mem_append.mp ht with ht | ht
    · exact (h.ordered t ht a ha).imp_left (List.mem_append_left _)
    · rw [List.mem_singleton.mp ht] at ha ⊢
      have hmade := hoperands a ha
      exact ⟨List.mem_append_left _ hmade, h.id_lt hmade⟩
  unmarked t ht := by
    rcases List.mem_append.mp ht with ht | ht
    · exact h.unmarked t ht
    · rw [List.mem_singleton.mp ht]
      rfl
  unowned t ht := by
    rcases List.mem_append.mp ht with ht | ht
    · exact h.unowned t ht
    · rw [List.mem_singleton.mp ht]
      rfl

/-- Changing labels keeps the numbers. -/
theorem relabel {f : Label → Label} (hid : ∀ l, (f l).id = l.id)
    (hlisted : ∀ l, (f l).elsewhere = l.elsewhere) (howner : ∀ l, (f l).owner = l.owner) :
    (d.relabel f).IsNumbered := by
  have hnodes : (d.relabel f).nodes = d.nodes.map (mapLabels f) := mapLabelsOf_eq f d.nodes
  have hnumber (t : Tree) : (t.mapLabels f).id = t.id := by
    cases t
    exact hid _
  refine ⟨fun i t hi => ?_, fun t ht a ha => ?_, fun t ht => ?_, fun t ht => ?_⟩
  · rw [hnodes, List.getElem?_map] at hi
    obtain ⟨s, hs, rfl⟩ := Option.map_eq_some_iff.mp hi
    rw [hnumber, h.numbered i s hs]
  · rw [hnodes] at ht ⊢
    obtain ⟨⟨l, ts⟩, hs, rfl⟩ := List.mem_map.mp ht
    rw [mapLabels, operands, mapLabelsOf_eq] at ha
    obtain ⟨b, hb, rfl⟩ := List.mem_map.mp ha
    obtain ⟨hmade, hlt⟩ := h.ordered _ hs b hb
    exact ⟨List.mem_map_of_mem hmade, by rwa [hnumber, hnumber]⟩
  · rw [hnodes] at ht
    obtain ⟨⟨l, ts⟩, hs, rfl⟩ := List.mem_map.mp ht
    exact (hlisted l).trans (h.unmarked _ hs)
  · rw [hnodes] at ht
    obtain ⟨⟨l, ts⟩, hs, rfl⟩ := List.mem_map.mp ht
    exact (howner l).trans (h.unowned _ hs)

/-- Every step keeps the numbers in order. -/
theorem step (hstep : d.Step d') : d'.IsNumbered := by
  cases hstep with
  | other nodes vars =>
    exact ⟨nodes ▸ h.numbered, nodes ▸ h.ordered, nodes ▸ h.unmarked, nodes ▸ h.unowned⟩
  | add kind ctype made declared => exact h.addReferring made
  | update id number kind referent listed owner =>
    refine h.relabel (fun l => ?_) (fun l => ?_) fun l => ?_
    · split
      · exact number l
      · rfl
    · split
      · exact listed l
      · rfl
    · split
      · exact owner l
      · rfl
  | declare name ctype storage => exact ⟨h.numbered, h.ordered, h.unmarked, h.unowned⟩
  | restore var change =>
    have hrelabel := h.relabel (f := fun l => { l with referent := l.referent.map fun v =>
      if v.id = var then { v with storage := change v.storage } else v }) (fun _ => rfl) (fun _ => rfl) fun _ => rfl
    exact ⟨hrelabel.numbered, hrelabel.ordered, hrelabel.unmarked, hrelabel.unowned⟩

end IsNumbered

/-- A node that stands free is neither an operand nor the body of a function. -/
theorem of_isFree {d : Draft} {t : Tree} (hfree : d.isFree t = true) :
    t.id ∉ d.nodes.flatMap operandIds ∧ ∀ f ∈ d.functions, f.body ≠ t.id := by
  simp only [isFree, Bool.and_eq_true, Bool.not_eq_true', List.any_eq_false, beq_iff_eq] at hfree
  refine ⟨fun hused => ?_, hfree.2⟩
  obtain ⟨n, hn, hid⟩ := List.mem_flatMap.mp hused
  obtain ⟨a, ha, hid⟩ := List.mem_map.mp hid
  exact hfree.1 n hn (List.any_eq_true.mpr ⟨a, ha, by simp [hid]⟩)

/-- The trees that are laid out: function bodies, then the nodes that stand free. -/
def tops (d : Draft) : List Tree := d.bodies ++ d.nodes.filter d.isFree

namespace IsNumbered

variable {d : Draft} (h : d.IsNumbered)
include h

/-- A tree that is laid out is a node, up to the function that it belongs to. -/
theorem exists_node_of_mem_tops {t : Tree} (ht : t ∈ d.tops) :
    t.isElsewhere = false ∧ ∃ n ∈ d.nodes, n.id = t.id ∧ n.operands = t.operands := by
  rcases List.mem_append.mp ht with ht | ht
  · obtain ⟨f, -, hf⟩ := List.mem_filterMap.mp ht
    obtain ⟨⟨l, ts⟩, hn, rfl⟩ := Option.map_eq_some_iff.mp hf
    have hn := List.mem_of_getElem? hn
    have hhere : (node l ts).isElsewhere = false := h.unmarked _ hn
    exact ⟨hhere, _, hn, rfl, rfl⟩
  · have hn := (List.mem_filter.mp ht).1
    exact ⟨h.unmarked t hn, t, hn, rfl, rfl⟩

/-- So is everything below it. -/
theorem exists_node_of_mem_flatMap {s : Tree} (hs : s ∈ d.tops.flatMap subtrees) :
    ∃ n ∈ d.nodes, n.id = s.id ∧ n.operands = s.operands := by
  obtain ⟨t, ht, hs⟩ := List.mem_flatMap.mp hs
  refine of_mem_subtrees (P := fun s => ∃ n ∈ d.nodes, n.id = s.id ∧ n.operands = s.operands) ?_
    (h.exists_node_of_mem_tops ht).2 hs
  rintro t ⟨n, hn, -, hoperands⟩ a ha
  exact ⟨a, (h.ordered n hn a (hoperands ▸ ha)).1, rfl, rfl⟩

/-- The trees that are laid out have no marks. -/
theorem isWhole_of_mem_tops {t : Tree} (ht : t ∈ d.tops) : t.IsWhole := by
  intro s hs a ha
  obtain ⟨n, hn, -, hoperands⟩ := h.exists_node_of_mem_flatMap (List.mem_flatMap.mpr ⟨t, ht, hs⟩)
  exact h.unmarked a (h.ordered n hn a (hoperands ▸ ha)).1

/-- Numbers tell the nodes apart. -/
theorem nodup_nodes : (d.nodes.map Tree.id).Nodup := by
  have hrange : d.nodes.map Tree.id = List.range d.nodes.length := by
    refine List.ext_getElem (by simp) fun i hi _ => ?_
    rw [List.length_map] at hi
    rw [List.getElem_map, List.getElem_range, h.numbered i _ (List.getElem?_eq_getElem hi)]
  exact hrange ▸ List.nodup_range

/-- A function body that is laid out is a node that knows the last function with this body. -/
theorem exists_of_mem_bodies {t : Tree} (ht : t ∈ d.bodies) : ∃ f ∈ d.functions, f.body = t.id ∧
    d.nodes[t.id]?.map (Tree.relabel fun l => { l with owner := ownerOf? d.functions t.id }) = some t := by
  obtain ⟨f, hf, hbody⟩ := List.mem_filterMap.mp ht
  obtain ⟨n, hn, hrelabel⟩ := Option.map_eq_some_iff.mp hbody
  have hid : f.body = t.id := by
    rw [← hrelabel, ← h.numbered f.body n hn]
    cases n
    rfl
  exact ⟨f, hf, hid, hid ▸ hbody⟩

/-- The body of a function is laid out as a tree of its own. -/
theorem exists_mem_bodies {n : Tree} (hn : n ∈ d.nodes) {f : Function} (hf : f ∈ d.functions)
    (hbody : f.body = n.id) : ∃ t ∈ d.bodies, t.id = n.id ∧ t.operands = n.operands := by
  refine ⟨_, List.mem_filterMap.mpr ⟨f, hf, by rw [hbody, h.getElem?_of_mem hn, Option.map_some]⟩, ?_⟩
  cases n
  exact ⟨rfl, rfl⟩

/-- No tree that is laid out is an operand. -/
theorem not_mem_operandIds_of_mem_tops (hu : d.IsUnshared) {t : Tree} (ht : t ∈ d.tops) :
    t.id ∉ d.nodes.flatMap operandIds := by
  rcases List.mem_append.mp ht with ht | ht
  · obtain ⟨f, hf, hbody, -⟩ := h.exists_of_mem_bodies ht
    exact hbody ▸ hu.apart f hf
  · exact (of_isFree (List.mem_filter.mp ht).2).1

/-- Trees that are laid out are told apart by their numbers. -/
theorem eq_of_mem_tops {s t : Tree} (hs : s ∈ d.tops) (ht : t ∈ d.tops) (hid : s.id = t.id) : s = t := by
  rcases List.mem_append.mp hs with hs | hs <;> rcases List.mem_append.mp ht with ht | ht
  · obtain ⟨-, -, -, hs⟩ := h.exists_of_mem_bodies hs
    obtain ⟨-, -, -, ht⟩ := h.exists_of_mem_bodies ht
    rw [hid] at hs
    exact Option.some.inj (hs.symm.trans ht)
  · obtain ⟨f, hf, hbody, -⟩ := h.exists_of_mem_bodies hs
    exact absurd (hbody.trans hid) ((of_isFree (List.mem_filter.mp ht).2).2 f hf)
  · obtain ⟨f, hf, hbody, -⟩ := h.exists_of_mem_bodies ht
    exact absurd (hbody.trans hid.symm) ((of_isFree (List.mem_filter.mp hs).2).2 f hf)
  · exact List.inj_on_of_nodup_map h.nodup_nodes (List.mem_filter.mp hs).1 (List.mem_filter.mp ht).1 hid

/-- Below different trees that are laid out, every node is listed at most once: it is not used at all, or it is an
operand of one node only, which has a greater number and is listed at most once. -/
theorem count_ids_le_one (hu : d.IsUnshared) {ts : List Tree} (hts : ts ⊆ d.tops)
    (hnodup : (ts.map Tree.id).Nodup) (x : NodeId) : (ts.flatMap ids).count x ≤ 1 := by
  have hnode {s : Tree} (hs : s ∈ ts.flatMap subtrees) :
      ∃ n ∈ d.nodes, n.id = s.id ∧ n.operands = s.operands := by
    obtain ⟨t, ht, hs⟩ := List.mem_flatMap.mp hs
    exact h.exists_node_of_mem_flatMap (List.mem_flatMap.mpr ⟨t, hts ht, hs⟩)
  induction hk : d.nodes.length - x using Nat.strong_induction_on generalizing x with
  | _ k ih =>
    rw [count_flatMap_ids fun t ht => count_ids (h.isWhole_of_mem_tops (hts ht)) x]
    by_cases hused : x ∈ d.nodes.flatMap operandIds
    · obtain ⟨n, hn, hx⟩ := List.mem_flatMap.mp hused
      have htop : (ts.map Tree.id).count x = 0 := by
        refine List.count_eq_zero.mpr fun hmem => ?_
        obtain ⟨t, ht, rfl⟩ := List.mem_map.mp hmem
        exact h.not_mem_operandIds_of_mem_tops hu (hts ht) hused
      have hbelow : ((ts.flatMap subtrees).flatMap operandIds).count x ≤
          ((ts.flatMap subtrees).map Tree.id).count n.id := by
        refine count_flatMap_le fun s hs => ?_
        obtain ⟨n', hn', hid, hoperands⟩ := hnode hs
        rw [operandIds, ← hoperands, ← hid]
        exact ⟨(List.nodup_flatMap.mp hu.operands).1 n' hn', fun hx' => hu.eq_of_mem hn' hn hx' hx ▸ rfl⟩
      obtain ⟨a, ha, rfl⟩ := List.mem_map.mp hx
      have hgreater := (h.ordered n hn a ha).2
      have hcloser : d.nodes.length - n.id < k :=
        hk ▸ Nat.sub_lt_sub_left (hgreater.trans (h.id_lt hn)) hgreater
      have hlisted := ih (d.nodes.length - n.id) hcloser n.id rfl
      rw [List.map_flatMap] at hbelow
      exact htop ▸ (Nat.zero_add _).trans_le (hbelow.trans hlisted)
    · have hbelow : ((ts.flatMap subtrees).flatMap operandIds).count x = 0 := by
        refine List.count_eq_zero.mpr fun hmem => hused ?_
        obtain ⟨s, hs, hx⟩ := List.mem_flatMap.mp hmem
        obtain ⟨n, hn, -, hoperands⟩ := hnode hs
        rw [operandIds, ← hoperands] at hx
        exact List.mem_flatMap.mpr ⟨n, hn, hx⟩
      have htop := List.nodup_iff_count_le_one.mp hnodup x
      omega

/-- The trees that are laid out are apart. -/
theorem areApart_tops (hu : d.IsUnshared) : AreApart d.tops where
  unshared t ht := by
    have hmem : [t] ⊆ d.tops := by simpa using ht
    have hnodup := List.nodup_iff_count_le_one.mpr (h.count_ids_le_one hu hmem (by simp))
    exact ⟨h.isWhole_of_mem_tops ht, by simpa using hnodup⟩
  here t ht := (h.exists_node_of_mem_tops ht).1
  apart s hs t ht := by
    by_cases hid : s.id = t.id
    · exact Or.inl (h.eq_of_mem_tops hs ht hid)
    · have hmem : [s, t] ⊆ d.tops := by simp [hs, ht]
      have hnodup := List.nodup_iff_count_le_one.mpr (h.count_ids_le_one hu hmem (by simp [hid]))
      simp only [List.flatMap_cons, List.flatMap_nil, List.append_nil] at hnodup
      exact Or.inr (List.nodup_append'.mp hnodup).2.2

end IsNumbered

section Finish

variable {file : String} {actions : List Action} {d : Draft}
  (h : Draft.performAll? { file := file } actions = some d)
include h

/-- Whatever actions made a draft, its nodes are numbered in their order. -/
theorem isNumbered_of_performAll? : d.IsNumbered :=
  of_performAll? IsNumbered.step ⟨by simp, by simp, by simp, by simp⟩ h

variable (hu : d.IsUnshared)
include hu

/-- A draft without shared nodes settles into an unshared unit, whatever actions made it. -/
theorem isUnshared_finish : d.finish.IsUnshared := by
  have hnumbered := isNumbered_of_performAll? h
  obtain ⟨hstarts, -, hnodup⟩ := (hnumbered.areApart_tops hu).starts_spec
  refine SourceUnit.isUnshared_ofTrees ?_ fun t ht => hnumbered.isWhole_of_mem_tops (hstarts ht)
  rwa [List.map_flatMap]

/-- The source order of the unit begins at the trees that are laid out. -/
theorem mem_starts_finish {t : Tree} : t ∈ d.finish.starts ↔ t ∈ d.tops := by
  obtain ⟨hstarts, htops, -⟩ := ((isNumbered_of_performAll? h).areApart_tops hu).starts_spec
  exact ⟨fun ht => hstarts ht, fun ht => htops ht⟩

/-- A listed node is a node of the draft, up to the function that it belongs to. -/
theorem exists_node_of_mem_listing {t : Tree} (ht : t ∈ d.finish.listing) :
    ∃ n ∈ d.nodes, n.id = t.id ∧ n.operands = t.operands := by
  obtain ⟨start, hstart, ht⟩ := List.mem_flatMap.mp ht
  exact (isNumbered_of_performAll? h).exists_node_of_mem_flatMap
    (List.mem_flatMap.mpr ⟨start, (mem_starts_finish h hu).mp hstart, ht⟩)

/-- Every node of the draft is listed: it is laid out itself, or it is an operand of a node with a greater number,
which is listed. -/
theorem exists_mem_listing {n : Tree} (hn : n ∈ d.nodes) :
    ∃ t ∈ d.finish.listing, t.id = n.id ∧ t.operands = n.operands := by
  have hnumbered := isNumbered_of_performAll? h
  have htop {t : Tree} (ht : t ∈ d.tops) : t ∈ d.finish.listing :=
    SourceUnit.mem_listing_of_mem_starts ((mem_starts_finish h hu).mpr ht)
  induction hk : d.nodes.length - n.id using Nat.strong_induction_on generalizing n with
  | _ k ih =>
    by_cases hused : n.id ∈ d.nodes.flatMap operandIds
    · obtain ⟨user, huser, hid⟩ := List.mem_flatMap.mp hused
      obtain ⟨a, ha, hid⟩ := List.mem_map.mp hid
      obtain ⟨hmade, hgreater⟩ := hnumbered.ordered user huser a ha
      obtain rfl : a = n := List.inj_on_of_nodup_map hnumbered.nodup_nodes hmade hn hid
      have hcloser : d.nodes.length - user.id < k :=
        hk ▸ Nat.sub_lt_sub_left (hgreater.trans (hnumbered.id_lt huser)) hgreater
      obtain ⟨t, ht, -, hoperands⟩ := ih _ hcloser huser rfl
      have hwhole := (isUnshared_finish h hu).isWhole ht
      exact ⟨a, (SourceUnit.isInfix_listing ht).subset (hwhole.mem_of_operand (hoperands ▸ ha)), rfl, rfl⟩
    · by_cases hbody : ∃ f ∈ d.functions, f.body = n.id
      · obtain ⟨f, hf, hbody⟩ := hbody
        obtain ⟨t, ht, hspec⟩ := hnumbered.exists_mem_bodies hn hf hbody
        exact ⟨t, htop (List.mem_append_left _ ht), hspec⟩
      · refine ⟨n, htop (List.mem_append_right _ (List.mem_filter.mpr ⟨hn, ?_⟩)), rfl, rfl⟩
        simp only [isFree, Bool.and_eq_true, Bool.not_eq_true', List.any_eq_false, beq_iff_eq]
        refine ⟨fun s hs huses => hused ?_, fun f hf hid => hbody ⟨f, hf, hid⟩⟩
        obtain ⟨a, ha, hid⟩ := List.any_eq_true.mp huses
        exact List.mem_flatMap.mpr ⟨s, hs, List.mem_map.mpr ⟨a, ha, by simpa using hid⟩⟩

end Finish

end Draft

end ConditionLint
