import ConditionLint.Proofs.Ancestry
import ConditionLint.Proofs.Resolution

/-!
# Drafts that share nodes

A node may be an operand of several nodes, or of one node and the body of a function as well. It is listed where
it is met first, and marked at its other occurrences. Whatever a draft shares, the unit that it settles into lists
every node exactly once, with the operands that it was made with. An operand that is marked is used more than once,
or it is the body of a function.
-/

namespace ConditionLint

open ConditionLint.Tree

namespace Tree

/-- What the source order lists where a tree stands. -/
def listedHere (t : Tree) : List Tree := if t.isElsewhere then [] else t.subtrees

/-- Below a node is listed what is listed at its operands. -/
theorem subtreesOf_eq_flatMap (ts : List Tree) : subtreesOf ts = ts.flatMap listedHere := by
  induction ts with
  | nil => rfl
  | cons t ts ih => rw [subtreesOf, ih, List.flatMap_cons, listedHere]

/-- An unmarked node is listed in front of what is listed at its operands. -/
theorem listedHere_node {l : Label} (hhere : l.elsewhere = false) (ts : List Tree) :
    (node l ts).listedHere = node l ts :: ts.flatMap listedHere := by
  rw [listedHere, isElsewhere, label, hhere, if_neg Bool.false_ne_true, subtrees_eq_cons, operands,
    subtreesOf_eq_flatMap]

/-- A listed node is the tree itself, or an unmarked operand of a listed node. -/
theorem eq_or_operand_of_mem_subtrees {s t : Tree} (hs : s ∈ t.subtrees) :
    s = t ∨ s.isElsewhere = false ∧ ∃ r ∈ t.subtrees, s ∈ r.operands := by
  induction t using induction_operands with
  | step l ts ih =>
    rw [subtrees_eq_cons, subtreesOf_eq, List.mem_cons, List.mem_flatMap] at hs
    rcases hs with rfl | ⟨a, ha, hs⟩
    · exact Or.inl rfl
    · obtain ⟨ha, hhere⟩ := List.mem_filter.mp ha
      have hhere : a.isElsewhere = false := by simpa using hhere
      refine Or.inr ?_
      rcases ih a ha hs with rfl | ⟨hunmarked, r, hr, hoperand⟩
      · exact ⟨hhere, node l ts, mem_subtrees_self _, ha⟩
      · exact ⟨hunmarked, r, (isInfix_subtrees_of_operand (t := node l ts) ha hhere).subset hr, hoperand⟩

/-- No node of the tree is marked, and operands have smaller numbers than the nodes that use them. -/
inductive Descends : Tree → Prop
  | node {l : Label} {ts : List Tree} (here : l.elsewhere = false) (smaller : ∀ t ∈ ts, t.id < l.id)
      (below : ∀ t ∈ ts, Descends t) : Descends (node l ts)

/-- What laying out the trees `ts` does when some are laid out already: it gives the trees `us`, and `later` is
laid out then. -/
structure LaysOut (laid ts us later : List Tree) : Prop where
  /-- What is listed at the new trees is laid out in addition. -/
  listed : later.Perm (us.flatMap listedHere ++ laid)
  /-- It has no greater numbers than the trees. -/
  bounded : ∀ s ∈ us.flatMap listedHere, ∃ t ∈ ts, s.id ≤ t.id
  /-- No node is laid out twice. -/
  distinct : (laid.map id).Nodup → (later.map id).Nodup
  /-- All trees are laid out. -/
  complete : ∀ t ∈ ts, t.id ∈ later.map id
  /-- Operands of nodes that are laid out are laid out. -/
  closed : (∀ s ∈ laid, s.operandIds ⊆ laid.map id) → ∀ s ∈ later, s.operandIds ⊆ later.map id
  /-- The operands of a new node were laid out already, or are listed up to where the subtree of the node ends. -/
  early : ∀ k s, (us.flatMap listedHere)[k]? = some s →
    ∀ i ∈ s.operandIds, i ∈ laid.map id ∨ i ∈ ((us.flatMap listedHere).take (k + s.size)).map id

namespace LaysOut

variable {laid middle later ts us : List Tree} {l : Label} {t u : Tree}

/-- What was laid out stays laid out. -/
theorem subset (h : LaysOut laid ts us later) : laid ⊆ later := fun _ hs =>
  h.listed.mem_iff.mpr (List.mem_append_right _ hs)

/-- Nothing is laid out where there are no trees. -/
theorem nil (laid : List Tree) : LaysOut laid [] [] laid :=
  ⟨.refl _, by simp, fun h => h, by simp, fun h => h, by simp⟩

/-- Trees are laid out one after the other. -/
theorem cons (hfirst : LaysOut laid [t] [u] middle) (hrest : LaysOut middle ts us later) :
    LaysOut laid (t :: ts) (u :: us) later where
  listed := by
    have hlisted := hfirst.listed
    rw [List.flatMap_singleton] at hlisted
    rw [List.flatMap_cons, List.append_assoc]
    calc later.Perm (us.flatMap listedHere ++ middle) := hrest.listed
      List.Perm _ (us.flatMap listedHere ++ (u.listedHere ++ laid)) := hlisted.append_left _
      List.Perm _ (u.listedHere ++ (us.flatMap listedHere ++ laid)) := List.perm_append_comm_assoc _ _ _
  bounded s hs := by
    rw [List.flatMap_cons, List.mem_append] at hs
    rcases hs with hs | hs
    · obtain ⟨r, hr, hle⟩ := hfirst.bounded s (by simpa using hs)
      exact ⟨r, List.mem_singleton.mp hr ▸ List.mem_cons_self, hle⟩
    · obtain ⟨r, hr, hle⟩ := hrest.bounded s hs
      exact ⟨r, List.mem_cons_of_mem t hr, hle⟩
  distinct hlaid := hrest.distinct (hfirst.distinct hlaid)
  complete s hs := by
    rcases List.mem_cons.mp hs with rfl | hs
    · exact List.map_subset id hrest.subset (hfirst.complete s (List.mem_singleton_self s))
    · exact hrest.complete s hs
  closed hlaid := hrest.closed (hfirst.closed hlaid)
  early k s hs i hi := by
    have hlisted := hfirst.listed
    have hearly := hfirst.early
    rw [List.flatMap_singleton] at hlisted hearly
    rw [List.flatMap_cons, List.getElem?_append] at hs
    rw [List.flatMap_cons, List.take_append, List.map_append, List.mem_append]
    split at hs
    · exact (hearly k s hs i hi).imp_right Or.inl
    · -- The first tree ends in front of the node, so that all of it is listed up to there.
      next hbehind =>
      rw [List.take_of_length_le (by omega)]
      rcases hrest.early _ s hs i hi with hmiddle | hlater
      · rw [(hlisted.map id).mem_iff, List.map_append, List.mem_append] at hmiddle
        exact hmiddle.symm.imp_right Or.inl
      · rw [show k + s.size - u.listedHere.length = k - u.listedHere.length + s.size by omega]
        exact Or.inr (Or.inr hlater)

/-- A tree that is laid out already adds nothing. -/
theorem again (hmarked : u.isElsewhere = true) (hlaid : t.id ∈ laid.map id) : LaysOut laid [t] [u] laid where
  listed := by simp [listedHere, hmarked]
  bounded := by simp [listedHere, hmarked]
  distinct h := h
  complete := by simpa using hlaid
  closed h := h
  early := by simp [listedHere, hmarked]

/-- A new node is laid out behind its operands. -/
theorem node (h : LaysOut laid ts us later) (hids : us.map id = ts.map id) (hhere : l.elsewhere = false)
    (hsmaller : ∀ t ∈ ts, t.id < l.id) (hnew : l.id ∉ laid.map id) :
    LaysOut laid [node l ts] [node l us] (.node l us :: later) := by
  have hlisted : [Tree.node l us].flatMap listedHere = .node l us :: us.flatMap listedHere := by
    rw [List.flatMap_singleton, listedHere_node hhere]
  have hcomplete {i : NodeId} (hi : i ∈ (Tree.node l us).operandIds) : i ∈ later.map id := by
    rw [operandIds, operands, hids] at hi
    obtain ⟨t, ht, rfl⟩ := List.mem_map.mp hi
    exact h.complete t ht
  refine ⟨?_, fun s hs => ?_, fun hlaid => ?_, ?_, fun hlaid s hs => ?_, fun k s hs i hi => ?_⟩
  · rw [hlisted, List.cons_append]
    exact h.listed.cons _
  · refine ⟨.node l ts, List.mem_singleton_self _, ?_⟩
    rw [hlisted] at hs
    rcases List.mem_cons.mp hs with rfl | hs
    · exact le_rfl
    · obtain ⟨t, ht, hle⟩ := h.bounded s hs
      exact hle.trans (hsmaller t ht).le
  · refine List.nodup_cons.mpr ⟨fun hmem => ?_, h.distinct hlaid⟩
    obtain ⟨s, hs, hid⟩ := List.mem_map.mp hmem
    rcases List.mem_append.mp (h.listed.mem_iff.mp hs) with hs | hs
    · obtain ⟨t, ht, hle⟩ := h.bounded s hs
      exact absurd (hsmaller t ht) (Nat.not_lt.mpr (hid.symm.le.trans hle))
    · exact hnew (List.mem_map.mpr ⟨s, hs, hid⟩)
  · simp [id, label]
  · refine List.Subset.trans ?_ (List.subset_cons_self _ _)
    rcases List.mem_cons.mp hs with rfl | hs
    · exact fun _ hi => hcomplete hi
    · exact h.closed hlaid s hs
  · rw [hlisted] at hs ⊢
    cases k with
    | zero =>
      -- All that is new belongs to the subtree of the node.
      obtain rfl : Tree.node l us = s := by simpa using hs
      have hmem := hcomplete hi
      rw [(h.listed.map id).mem_iff, List.map_append, List.mem_append] at hmem
      rw [Nat.zero_add, size, subtrees_eq_cons, operands, subtreesOf_eq_flatMap, List.take_length]
      exact hmem.symm.imp_right (List.mem_cons_of_mem _)
    | succ k =>
      rw [Nat.add_right_comm, List.take_succ_cons]
      exact (h.early k s (by simpa using hs) i hi).imp_right (List.mem_cons_of_mem _)

end LaysOut

/-- Several trees are laid out when each of them is. -/
theorem laysOut_layOutAll {ts : List Tree}
    (h : ∀ t ∈ ts, ∀ laid, LaysOut laid [t] [(layOut laid t).1] (layOut laid t).2) (laid : List Tree) :
    LaysOut laid ts (layOutAll laid ts).1 (layOutAll laid ts).2 := by
  induction ts generalizing laid with
  | nil => exact .nil laid
  | cons t ts ih =>
    obtain ⟨hfirst, hrest⟩ := List.forall_mem_cons.mp h
    exact (hfirst laid).cons (ih hrest _)

/-- Laying out a tree lists those of its nodes that were not laid out. -/
theorem Descends.laysOut {t : Tree} (h : t.Descends) (laid : List Tree) :
    LaysOut laid [t] [(layOut laid t).1] (layOut laid t).2 := by
  induction h generalizing laid with
  | @node l ts here smaller _ ih =>
    rw [layOut]
    split
    · next s hs =>
      obtain ⟨m, us⟩ := s
      have hid : (Tree.node m us).id = l.id := by simpa using List.find?_some hs
      exact .again rfl (List.mem_map.mpr ⟨_, List.mem_of_find?_eq_some hs, hid⟩)
    · next hnew =>
      refine (laysOut_layOutAll ih laid).node (map_id_layOutAll laid ts) here smaller fun hmem => ?_
      obtain ⟨s, hs, hid⟩ := List.mem_map.mp hmem
      simpa [hid] using List.find?_eq_none.mp hnew s hs

/-- Every node of the tree is as it was made, with the operands that it was made with. Only whose body it is and
where it is listed may differ. -/
inductive Copies (nodes : List Tree) : Tree → Prop
  | node {l : Label} {ts : List Tree}
      (made : ∃ n ∈ nodes, l = { n.label with owner := l.owner, elsewhere := l.elsewhere } ∧ n.operandIds = ts.map id)
      (below : ∀ t ∈ ts, Copies nodes t) : Copies nodes (node l ts)

namespace Copies

variable {nodes : List Tree} {t : Tree}

/-- The node from which the topmost node comes. -/
theorem exists_made (h : t.Copies nodes) : ∃ n ∈ nodes,
    t.label = { n.label with owner := t.label.owner, elsewhere := t.label.elsewhere } ∧
      n.operandIds = t.operandIds := by
  obtain ⟨made, -⟩ := h
  exact made

/-- The operands of a copy are copies. -/
theorem operand (h : t.Copies nodes) {a : Tree} (ha : a ∈ t.operands) : a.Copies nodes := by
  obtain ⟨-, below⟩ := h
  exact below a ha

/-- Laying out trees changes nothing else. -/
theorem isKept (nodes : List Tree) : IsKept (Copies nodes) where
  operand h ha := h.operand ha
  relabel := by
    rintro l ts ⟨⟨n, hn, hlabel, hoperands⟩, below⟩ owner elsewhere
    refine .node ⟨n, hn, ?_, hoperands⟩ below
    exact congrArg (fun m : Label => { m with owner := owner, elsewhere := elsewhere }) hlabel
  rebuild := by
    rintro l ts us ⟨made, below⟩ hids hus
    exact .node (hids ▸ made) hus

end Copies

end Tree

/-- Where a number occurs at most once in all lists together, only one list has it, and has it at most once. -/
theorem of_count_flatMap_le_one {α β : Type} [BEq β] [LawfulBEq β] {f : α → List β} {xs : List α} {b : β}
    (h : (xs.flatMap f).count b ≤ 1) {x y : α} (hx : x ∈ xs) (hy : y ∈ xs) (hbx : b ∈ f x) (hby : b ∈ f y) :
    x = y ∧ (f x).count b ≤ 1 := by
  obtain ⟨before, behind, rfl⟩ := List.append_of_mem hx
  have hpos := List.count_pos_iff.mpr hbx
  rw [List.flatMap_append, List.flatMap_cons, List.count_append, List.count_append] at h
  have hothers (zs : List α) (hzs : (zs.flatMap f).count b = 0) : y ∉ zs := fun hy =>
    List.count_eq_zero.mp hzs (List.mem_flatMap.mpr ⟨y, hy, hby⟩)
  have hfront := hothers before (by omega)
  have hback := hothers behind (by omega)
  refine ⟨?_, by omega⟩
  rcases List.mem_append.mp hy with hy | hy
  · exact absurd hy hfront
  · exact ((List.mem_cons.mp hy).resolve_right hback).symm

namespace Draft

namespace IsNumbered

variable {d : Draft} (h : d.IsNumbered) {t : Tree}
include h

/-- Nodes are unmarked and made from nodes with smaller numbers. -/
theorem descends (ht : t ∈ d.nodes) : t.Descends := by
  induction t using induction_operands with
  | step l ts ih =>
    exact .node (h.unmarked _ ht) (fun a ha => (h.ordered _ ht a ha).2) fun a ha => ih a ha (h.ordered _ ht a ha).1

/-- So are the trees that are laid out. -/
theorem descends_of_mem_tops (ht : t ∈ d.tops) : t.Descends := by
  rcases List.mem_append.mp ht with ht | ht
  · obtain ⟨f, -, hf⟩ := List.mem_filterMap.mp ht
    obtain ⟨⟨l, ts⟩, hn, rfl⟩ := Option.map_eq_some_iff.mp hf
    obtain ⟨here, smaller, below⟩ := h.descends (List.mem_of_getElem? hn)
    exact .node here smaller below
  · exact h.descends (List.mem_filter.mp ht).1

/-- A node that was made is a copy of itself. -/
theorem copies (ht : t ∈ d.nodes) : t.Copies d.nodes := by
  induction t using induction_operands with
  | step l ts ih => exact .node ⟨node l ts, ht, rfl, rfl⟩ fun a ha => ih a ha (h.ordered _ ht a ha).1

/-- The source order is what is listed at the trees that are laid out. -/
theorem laysOut_tops : LaysOut [] d.tops (layOutAll [] d.tops).1 (layOutAll [] d.tops).2 :=
  laysOut_layOutAll (fun _ ht => (h.descends_of_mem_tops ht).laysOut) []

end IsNumbered

/-- A node is an operand at most once, and it is not the body of a function. -/
structure IsUsedOnce (d : Draft) (i : NodeId) : Prop where
  operand : (d.nodes.flatMap operandIds).count i ≤ 1
  notBody : ∀ f ∈ d.functions, f.body ≠ i

/-- The source order lists what is laid out. -/
theorem listing_finish (d : Draft) : d.finish.listing = (layOutAll [] d.tops).1.flatMap listedHere := by
  rw [← subtreesOf_eq_flatMap, subtreesOf_eq]
  rfl

section Finish

variable {file : String} {actions : List Action} {d : Draft}
  (h : Draft.performAll? { file := file } actions = some d) {s t : Tree}
include h

/-- The nodes that are laid out are those that are listed. -/
theorem mem_laid_iff : s ∈ (layOutAll [] d.tops).2 ↔ s ∈ d.finish.listing := by
  rw [(isNumbered_of_performAll? h).laysOut_tops.listed.mem_iff, List.append_nil, listing_finish]

/-- No node is listed twice. -/
theorem nodup_finish : (d.finish.listing.map Tree.id).Nodup := by
  have hlays := (isNumbered_of_performAll? h).laysOut_tops
  have hperm := hlays.listed.map Tree.id
  rw [List.append_nil, ← listing_finish] at hperm
  exact hperm.nodup_iff.mp (hlays.distinct List.nodup_nil)

/-- The operands of listed nodes are listed. -/
theorem operandIds_subset_finish (hs : s ∈ d.finish.listing) : s.operandIds ⊆ d.finish.listing.map Tree.id := by
  have hlays := (isNumbered_of_performAll? h).laysOut_tops
  intro x hx
  obtain ⟨r, hr, rfl⟩ := List.mem_map.mp (hlays.closed (by simp) s ((mem_laid_iff h).mpr hs) hx)
  exact List.mem_map_of_mem ((mem_laid_iff h).mp hr)

/-- Listed nodes with the same number are the same. -/
theorem eq_of_id_eq_finish (hs : s ∈ d.finish.listing) (ht : t ∈ d.finish.listing) (hid : s.id = t.id) : s = t :=
  List.inj_on_of_nodup_map (nodup_finish h) hs ht hid

/-- A listed node is as it was made. -/
theorem copies_of_mem_listing (hs : s ∈ d.finish.listing) : s.Copies d.nodes :=
  (Copies.isKept d.nodes).of_mem_listing (fun _ ht => (isNumbered_of_performAll? h).copies ht) hs

/-- A listed node has the operands with which it was made. -/
theorem exists_made_of_mem_listing (hs : s ∈ d.finish.listing) :
    ∃ n ∈ d.nodes, n.id = s.id ∧ n.operandIds = s.operandIds := by
  obtain ⟨n, hn, hlabel, hoperands⟩ := (copies_of_mem_listing h hs).exists_made
  exact ⟨n, hn, (congrArg Label.id hlabel).symm, hoperands⟩

/-- Every node is listed exactly once, whatever is shared. -/
theorem perm_range_finish : (d.finish.listing.map Tree.id).Perm (List.range d.nodes.length) := by
  have hnumbered := isNumbered_of_performAll? h
  have htop {t : Tree} (ht : t ∈ d.tops) : t.id ∈ d.finish.listing.map Tree.id := by
    obtain ⟨s, hs, hid⟩ := List.mem_map.mp (hnumbered.laysOut_tops.complete t ht)
    exact List.mem_map.mpr ⟨s, (mem_laid_iff h).mp hs, hid⟩
  have hall {n : Tree} (hn : n ∈ d.nodes) : n.id ∈ d.finish.listing.map Tree.id := by
    induction hk : d.nodes.length - n.id using Nat.strong_induction_on generalizing n with
    | _ k ih =>
      by_cases hused : ∃ m ∈ d.nodes, n.id ∈ m.operandIds
      · -- The node that uses it has a greater number and is listed, and so are its operands.
        obtain ⟨m, hm, hid⟩ := hused
        have hgreater : n.id < m.id := by
          obtain ⟨a, ha, hid⟩ := List.mem_map.mp hid
          exact hid ▸ (hnumbered.ordered m hm a ha).2
        have hcloser : d.nodes.length - m.id < k :=
          hk ▸ Nat.sub_lt_sub_left (hgreater.trans (hnumbered.id_lt hm)) hgreater
        obtain ⟨s, hs, hsid⟩ := List.mem_map.mp (ih _ hcloser hm rfl)
        obtain ⟨r, hr, hrid, hoperands⟩ := exists_made_of_mem_listing h hs
        obtain rfl : r = m := List.inj_on_of_nodup_map hnumbered.nodup_nodes hr hm (hrid.trans hsid)
        exact operandIds_subset_finish h hs (hoperands ▸ hid)
      · by_cases hbody : ∃ f ∈ d.functions, f.body = n.id
        · obtain ⟨f, hf, hbody⟩ := hbody
          obtain ⟨t, ht, hid, -⟩ := hnumbered.exists_mem_bodies hn hf hbody
          exact hid ▸ htop (List.mem_append_left _ ht)
        · refine htop (List.mem_append_right _ (List.mem_filter.mpr ⟨hn, ?_⟩))
          simp only [isFree, Bool.and_eq_true, Bool.not_eq_true', List.any_eq_false, beq_iff_eq]
          refine ⟨fun m hm huses => hused ⟨m, hm, ?_⟩, fun f hf hid => hbody ⟨f, hf, hid⟩⟩
          obtain ⟨a, ha, hid⟩ := List.any_eq_true.mp huses
          exact List.mem_map.mpr ⟨a, ha, by simpa using hid⟩
  refine (List.perm_ext_iff_of_nodup (nodup_finish h) List.nodup_range).mpr fun x => ?_
  rw [List.mem_range]
  constructor
  · intro hx
    obtain ⟨t, ht, rfl⟩ := List.mem_map.mp hx
    obtain ⟨n, hn, hid, -⟩ := exists_made_of_mem_listing h ht
    exact hid ▸ hnumbered.id_lt hn
  · intro hx
    exact hnumbered.numbered x _ (List.getElem?_eq_getElem hx) ▸ hall (List.getElem_mem hx)

/-- Where a node is marked, it is like where it is listed. -/
theorem exists_listed_of_copies (hs : s.Copies d.nodes) :
    ∃ r ∈ d.finish.listing, r.id = s.id ∧ r.kind = s.kind ∧ r.operandIds = s.operandIds := by
  have hnumbered := isNumbered_of_performAll? h
  obtain ⟨n, hn, hlabel, hoperands⟩ := hs.exists_made
  have hlisted : n.id ∈ d.finish.listing.map Tree.id :=
    (perm_range_finish h).mem_iff.mpr (List.mem_range.mpr (hnumbered.id_lt hn))
  obtain ⟨r, hr, hid⟩ := List.mem_map.mp hlisted
  obtain ⟨m, hm, hlabel', hoperands'⟩ := (copies_of_mem_listing h hr).exists_made
  obtain rfl : m = n :=
    List.inj_on_of_nodup_map hnumbered.nodup_nodes hm hn ((congrArg Label.id hlabel').symm.trans hid)
  refine ⟨r, hr, hid.trans (congrArg Label.id hlabel).symm, ?_, hoperands'.symm.trans hoperands⟩
  exact (congrArg Label.kind hlabel').trans (congrArg Label.kind hlabel).symm

/-- An operand that is used once is listed where it is used. -/
theorem isElsewhere_eq_false {a : Tree} (hs : s ∈ d.finish.listing) (ha : a ∈ s.operands)
    (hused : d.IsUsedOnce a.id) : a.isElsewhere = false := by
  obtain ⟨n, hn, hnid, hnoperands⟩ := exists_made_of_mem_listing h hs
  have hid : a.id ∈ s.operandIds := List.mem_map_of_mem ha
  -- The node is listed somewhere, as a tree that is laid out or as an unmarked operand.
  obtain ⟨r, hr, hrid⟩ := List.mem_map.mp (operandIds_subset_finish h hs hid)
  obtain ⟨start, hstart, hrstart⟩ := List.mem_flatMap.mp hr
  rcases eq_or_operand_of_mem_subtrees hrstart with rfl | ⟨hhere, m, hm, hrm⟩
  · exfalso
    have htop : r.id ∈ d.tops.map Tree.id := by
      rw [← map_id_layOutAll [] d.tops]
      exact List.mem_map_of_mem (List.mem_filter.mp hstart).1
    obtain ⟨t, ht, htid⟩ := List.mem_map.mp htop
    rcases List.mem_append.mp ht with ht | ht
    · obtain ⟨f, hf, hfbody, -⟩ := (isNumbered_of_performAll? h).exists_of_mem_bodies ht
      exact hused.notBody f hf (hfbody.trans (htid.trans hrid))
    · refine (of_isFree (List.mem_filter.mp ht).2).1 (List.mem_flatMap.mpr ⟨n, hn, ?_⟩)
      rw [htid, hrid, hnoperands]
      exact hid
  · have hmlisted : m ∈ d.finish.listing := List.mem_flatMap.mpr ⟨start, hstart, hm⟩
    obtain ⟨n', hn', hnid', hnoperands'⟩ := exists_made_of_mem_listing h hmlisted
    have hid' : a.id ∈ m.operandIds := hrid ▸ List.mem_map_of_mem hrm
    obtain ⟨rfl, hcount⟩ := of_count_flatMap_le_one hused.operand hn hn' (hnoperands ▸ hid) (hnoperands' ▸ hid')
    obtain rfl : s = m := eq_of_id_eq_finish h hs hmlisted (hnid.symm.trans hnid')
    -- The node that uses it has it only once as an operand.
    rw [hnoperands, operandIds, List.map_eq_flatMap] at hcount
    obtain rfl : a = r := (of_count_flatMap_le_one hcount ha hrm (by simp) (by simp [hrid])).1
    exact hhere

end Finish

end Draft

end ConditionLint
