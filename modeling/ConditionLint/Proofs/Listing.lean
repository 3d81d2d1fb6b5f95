import ConditionLint.Proofs.Reports
import ConditionLint.Proofs.Value
import Mathlib.Data.List.Infix
import Mathlib.Data.List.Nodup
import Mathlib.Data.List.Pairwise

/-!
# The source order of trees

The nodes at and below a node are a contiguous piece of the source order, and the node itself comes first
in it. In a unit without shared nodes the numbers of nodes tell them apart, every operand is listed below
its node, and the parent that a place names has the node among its operands. So the rest of a block behind
one of its statements is a suffix of the block's own listing.
-/

namespace ConditionLint

/-- Where keys tell the entries of a list apart, looking up the key of an entry finds the entry. -/
theorem find?_key_of_mem {α β : Type} [BEq β] [LawfulBEq β] {key : α → β} {xs : List α}
    (hdistinct : (xs.map key).Nodup) {x : α} (hx : x ∈ xs) : (xs.find? fun y => key y == key x) = some x := by
  have hfound : (xs.find? fun y => key y == key x).isSome := List.find?_isSome.mpr ⟨x, hx, beq_self_eq_true _⟩
  obtain ⟨y, hy⟩ := Option.isSome_iff_exists.mp hfound
  have hkey : key y = key x := by simpa using List.find?_some hy
  rw [hy, List.inj_on_of_nodup_map hdistinct (List.mem_of_find?_eq_some hy) hx hkey]

/-- Where lists are put together without a repetition, an entry tells the list that it comes from. -/
theorem eq_of_mem_of_nodup_flatMap {α β : Type} {f : α → List β} {xs : List α} (hdistinct : (xs.flatMap f).Nodup)
    {x y : α} (hx : x ∈ xs) (hy : y ∈ xs) {b : β} (hbx : b ∈ f x) (hby : b ∈ f y) : x = y := by
  by_contra hne
  have hsymm : Std.Symm (Function.onFun List.Disjoint f) := ⟨fun _ _ h _ hx hx' => h hx' hx⟩
  exact (List.nodup_flatMap.mp hdistinct).2.forall hx hy hne hbx hby

namespace Tree

/-- The subtrees of operands are those of the operands that are not listed elsewhere. -/
theorem subtreesOf_eq (ts : List Tree) :
    subtreesOf ts = (ts.filter fun t => !t.isElsewhere).flatMap subtrees := by
  induction ts with
  | nil => rfl
  | cons t ts ih => cases h : t.isElsewhere <;> simp [subtreesOf, h, ih]

/-- A node is the first of its subtrees. -/
theorem subtrees_eq_cons (t : Tree) : t.subtrees = t :: subtreesOf t.operands := by
  cases t
  rfl

/-- A node is among its subtrees. -/
@[simp] theorem mem_subtrees_self (t : Tree) : t ∈ t.subtrees := by
  rw [subtrees_eq_cons]
  exact List.mem_cons_self

/-- The listing of an operand is a piece of the listing of its node. -/
theorem isInfix_subtrees_of_operand {t a : Tree} (ha : a ∈ t.operands) (hhere : a.isElsewhere = false) :
    a.subtrees <:+: t.subtrees := by
  have hkept : a ∈ t.operands.filter fun s => !s.isElsewhere := List.mem_filter.mpr ⟨ha, by simp [hhere]⟩
  obtain ⟨before, behind, hsplit⟩ := List.append_of_mem hkept
  refine ⟨t :: before.flatMap subtrees, behind.flatMap subtrees, ?_⟩
  rw [subtrees_eq_cons t, subtreesOf_eq, hsplit]
  simp

/-- The listing of a subtree is a piece of the listing of the tree. -/
theorem isInfix_subtrees {s t : Tree} (h : s ∈ t.subtrees) : s.subtrees <:+: t.subtrees := by
  induction t using induction_operands with
  | step l ts ih =>
    rw [subtrees_eq_cons, subtreesOf_eq, List.mem_cons, List.mem_flatMap] at h
    rcases h with rfl | ⟨a, ha, hs⟩
    · exact List.infix_rfl
    · obtain ⟨ha, hhere⟩ := List.mem_filter.mp ha
      exact (ih a ha hs).trans (isInfix_subtrees_of_operand (t := node l ts) ha (by simpa using hhere))

/-- Subtrees of a subtree are subtrees. -/
theorem mem_subtrees_trans {r s t : Tree} (hr : r ∈ s.subtrees) (hs : s ∈ t.subtrees) : r ∈ t.subtrees :=
  (isInfix_subtrees hs).subset hr

/-- What passes from nodes to their operands passes to all subtrees. -/
theorem of_mem_subtrees {P : Tree → Prop} (hoperand : ∀ t, P t → ∀ a ∈ t.operands, P a) {s t : Tree}
    (h : P t) (hs : s ∈ t.subtrees) : P s := by
  induction t using induction_operands with
  | step l ts ih =>
    rw [subtrees_eq_cons, subtreesOf_eq, List.mem_cons, List.mem_flatMap] at hs
    rcases hs with rfl | ⟨a, ha, hs⟩
    · exact h
    · have ha := (List.mem_filter.mp ha).1
      exact ih a ha (hoperand _ h a ha) hs

/-- The numbers of the nodes of a tree, in source order. -/
def ids (t : Tree) : List NodeId := t.subtrees.map id

/-- A subtree's number is among those of the tree. -/
theorem id_mem_ids {s t : Tree} (h : s ∈ t.subtrees) : s.id ∈ t.ids := List.mem_map_of_mem h

/-- Every operand in the tree is listed below its node. -/
def IsWhole (t : Tree) : Prop := ∀ s ∈ t.subtrees, ∀ a ∈ s.operands, a.isElsewhere = false

instance (t : Tree) : Decidable t.IsWhole :=
  inferInstanceAs (Decidable (∀ s ∈ t.subtrees, ∀ a ∈ s.operands, a.isElsewhere = false))

/-- The subtrees of a whole tree are whole. -/
theorem IsWhole.of_mem {s t : Tree} (h : t.IsWhole) (hs : s ∈ t.subtrees) : s.IsWhole :=
  fun r hr => h r (mem_subtrees_trans hr hs)

/-- An operand of a whole tree is among its subtrees. -/
theorem IsWhole.mem_of_operand {t a : Tree} (h : t.IsWhole) (ha : a ∈ t.operands) : a ∈ t.subtrees :=
  (isInfix_subtrees_of_operand ha (h t (mem_subtrees_self t) a ha)).subset (mem_subtrees_self a)

/-- The operands of a whole tree are whole. -/
theorem IsWhole.operand {l : Label} {ts : List Tree} (h : (node l ts).IsWhole) {a : Tree} (ha : a ∈ ts) :
    a.IsWhole :=
  h.of_mem (h.mem_of_operand ha)

/-- The listing of a whole tree is the node and then the listings of its operands. -/
theorem IsWhole.subtrees_node {l : Label} {ts : List Tree} (h : (node l ts).IsWhole) :
    (node l ts).subtrees = node l ts :: ts.flatMap subtrees := by
  have hall : (ts.filter fun t => !t.isElsewhere) = ts :=
    List.filter_eq_self.mpr fun a ha => by simp [h _ (mem_subtrees_self _) a ha]
  rw [subtrees_eq_cons, subtreesOf_eq]
  simp [operands, hall]

/-- The numbers of a whole tree are that of the node and then those of its operands. -/
theorem IsWhole.ids_node {l : Label} {ts : List Tree} (h : (node l ts).IsWhole) :
    (node l ts).ids = l.id :: ts.flatMap ids := by
  rw [ids, h.subtrees_node, List.map_cons, List.map_flatMap]
  rfl

/-- Trees beside the one with a node do not have the node. -/
theorem not_mem_ids_beside {before behind : List Tree} {t a : Tree} {i : NodeId}
    (hdistinct : ((before ++ t :: behind).flatMap ids).Nodup) (hi : i ∈ t.ids) (ha : a ∈ before ∨ a ∈ behind) :
    i ∉ a.ids := by
  intro hia
  rw [List.flatMap_append, List.flatMap_cons] at hdistinct
  obtain ⟨-, hrest, hfront⟩ := List.nodup_append'.mp hdistinct
  rcases ha with ha | ha
  · exact hfront (List.mem_flatMap.mpr ⟨a, ha, hia⟩) (List.mem_append_left _ hi)
  · exact (List.nodup_append'.mp hrest).2.2 hi (List.mem_flatMap.mpr ⟨a, ha, hia⟩)

/-- A tree with all its operands listed below it, whose nodes are told apart by their numbers. -/
structure IsUnshared (t : Tree) : Prop where
  whole : t.IsWhole
  distinct : t.ids.Nodup

namespace IsUnshared

variable {s t : Tree} {l : Label} {ts : List Tree}

/-- The subtrees of an unshared tree are unshared. -/
theorem of_mem (h : t.IsUnshared) (hs : s ∈ t.subtrees) : s.IsUnshared :=
  ⟨h.whole.of_mem hs, h.distinct.sublist ((isInfix_subtrees hs).sublist.map id)⟩

/-- The operands of an unshared tree are unshared. -/
theorem operand (h : (node l ts).IsUnshared) {a : Tree} (ha : a ∈ ts) : a.IsUnshared :=
  h.of_mem (h.whole.mem_of_operand ha)

/-- The number of an unshared node is not that of a node below it. -/
theorem id_not_mem_operands (h : (node l ts).IsUnshared) :
    l.id ∉ ts.flatMap ids := by
  have hdistinct := h.distinct
  rw [h.whole.ids_node] at hdistinct
  exact (List.nodup_cons.mp hdistinct).1

/-- Operands of an unshared tree have no nodes in common. -/
theorem operands_nodup (h : (node l ts).IsUnshared) : (ts.flatMap ids).Nodup := by
  have hdistinct := h.distinct
  rw [h.whole.ids_node] at hdistinct
  exact hdistinct.of_cons

/-- Different operands of an unshared tree have no nodes in common. -/
theorem disjoint_operands (h : t.IsUnshared) {i j : Nat} (hij : i ≠ j) {a b : Tree}
    (ha : t.operands[i]? = some a) (hb : t.operands[j]? = some b) : a.ids.Disjoint b.ids := by
  obtain ⟨l, ts⟩ := t
  obtain ⟨hi, rfl⟩ := List.getElem?_eq_some_iff.mp ha
  obtain ⟨hj, rfl⟩ := List.getElem?_eq_some_iff.mp hb
  have hpairwise := List.pairwise_iff_getElem.mp (List.nodup_flatMap.mp h.operands_nodup).2
  rcases Nat.lt_or_gt_of_ne hij with hlt | hlt
  · exact hpairwise i j hi hj hlt
  · exact fun x hx hx' => hpairwise j i hj hi hlt hx' hx

/-- Nodes of an unshared tree with the same number are the same. -/
theorem eq_of_id_eq (h : t.IsUnshared) {r : Tree} (hr : r ∈ t.subtrees) (hs : s ∈ t.subtrees)
    (hid : r.id = s.id) : r = s :=
  List.inj_on_of_nodup_map h.distinct hr hs hid

end IsUnshared

/-- Whether the value of the expression may depend on a variable. -/
def Reads (t : Tree) (x : VarId) : Prop := ∃ s ∈ t.subtrees, s.varId? = some x

/-- What a subtree depends on, the tree depends on. -/
theorem Reads.of_mem {s t : Tree} {x : VarId} (h : s.Reads x) (hs : s ∈ t.subtrees) : t.Reads x := by
  obtain ⟨r, hr, hx⟩ := h
  exact ⟨r, mem_subtrees_trans hr hs, hx⟩

/-- Collecting variables keeps those collected before, and every new number gets a variable. -/
theorem exists_mem_foldl_collect (vs seen : List Variable) (x : VarId)
    (h : (∃ v ∈ seen, v.id = x) ∨ ∃ v ∈ vs, v.id = x) :
    ∃ v ∈ vs.foldl (fun seen v => if seen.any fun w => w.id == v.id then seen else seen ++ [v]) seen,
      v.id = x := by
  induction vs generalizing seen with
  | nil => simpa using h
  | cons v vs ih =>
    refine ih _ ?_
    dsimp only
    split <;> grind

/-- Only the given variables are collected. -/
theorem mem_of_mem_foldl_collect {vs seen : List Variable} {v : Variable}
    (h : v ∈ vs.foldl (fun seen v => if seen.any fun w => w.id == v.id then seen else seen ++ [v]) seen) :
    v ∈ seen ∨ v ∈ vs := by
  induction vs generalizing seen with
  | nil => exact Or.inl h
  | cons w vs ih =>
    have hcollected := ih h
    dsimp only at hcollected
    split at hcollected <;> grind

/-- The variables of an expression are those that it refers to. -/
theorem exists_referent_of_mem_vars {t : Tree} {v : Variable} (h : v ∈ t.vars) :
    ∃ s ∈ t.subtrees, s.referent = some v :=
  List.mem_filterMap.mp ((mem_of_mem_foldl_collect h).resolve_left List.not_mem_nil)

/-- Each variable that an expression depends on is among its variables. -/
theorem exists_mem_vars {t : Tree} {x : VarId} (h : t.Reads x) : ∃ v ∈ t.vars, v.id = x := by
  obtain ⟨s, hs, hx⟩ := h
  obtain ⟨v, hv, rfl⟩ := Option.map_eq_some_iff.mp hx
  exact exists_mem_foldl_collect _ [] v.id (Or.inr ⟨v, List.mem_filterMap.mpr ⟨s, hs, hv⟩, rfl⟩)

end Tree

namespace Place

/-- The last user of a node is one of the places, and uses the node. -/
theorem of_lastUser? {ps : List Place} {i : NodeId} {p : Place} (h : lastUser? ps i = some p) :
    p ∈ ps ∧ p.tree.uses i = true :=
  List.mem_filter.mp (List.mem_of_getLast? h)

/-- The places of several trees hold these trees, and the parent that a place names is one of them and uses
its node. -/
theorem of_mem_ofTrees {ts : List Tree} {p : Place} (h : p ∈ ofTrees ts) :
    p.tree ∈ ts ∧ ∀ t, p.parent? = some t → t ∈ ts ∧ t.uses p.id = true := by
  induction ts generalizing p with
  | nil => simp [ofTrees] at h
  | cons t ts ih =>
    have hlater {q : Place} (hq : q ∈ ofTrees ts) : q.tree ∈ t :: ts ∧
        ∀ s, q.parent? = some s → s ∈ t :: ts ∧ s.uses q.id = true :=
      ⟨List.mem_cons_of_mem t (ih hq).1, fun s hs => ((ih hq).2 s hs).imp_left (List.mem_cons_of_mem t)⟩
    simp only [ofTrees] at h
    split at h
    · next user huser =>
      rcases List.mem_cons.mp h with rfl | hp
      · obtain ⟨hmem, huses⟩ := of_lastUser? huser
        refine ⟨List.mem_cons_self, fun s hs => ?_⟩
        obtain rfl : user.tree = s := by simpa [parent?] using hs
        exact ⟨(hlater hmem).1, huses⟩
      · exact hlater hp
    · rcases List.mem_cons.mp h with rfl | hp
      · exact ⟨List.mem_cons_self, fun s hs => by simp [parent?] at hs⟩
      · exact hlater hp

end Place

namespace SourceUnit

open ConditionLint.Tree

/-- A unit without shared nodes, whose places are made from its nodes. -/
structure IsUnshared (u : SourceUnit) : Prop where
  /-- Numbers tell the nodes apart. -/
  distinct : (u.listing.map Tree.id).Nodup
  /-- Operands are listed below their nodes. -/
  whole : ∀ t ∈ u.starts, t.IsWhole
  /-- Places are those of listed nodes. -/
  placed : ∃ ts, (∀ t ∈ ts, t ∈ u.listing) ∧ u.places = Place.ofTrees ts

/-- The unit of several trees is unshared when its nodes are distinct and listed where they are used. -/
theorem isUnshared_ofTrees {vars : List Variable} {functions : List Function} {starts : List Tree}
    (hdistinct : ((starts.flatMap subtrees).map Tree.id).Nodup) (hwhole : ∀ t ∈ starts, t.IsWhole) :
    (ofTrees vars functions starts).IsUnshared :=
  ⟨hdistinct, hwhole, _, fun _ ht => List.mem_mergeSort.mp ht, rfl⟩

/-- The unit of a whole tree with distinct nodes is unshared. -/
theorem isUnshared_ofTree {t : Tree} (hdistinct : t.ids.Nodup) (hwhole : t.IsWhole) :
    (ofTree t).IsUnshared := by
  refine ⟨by simpa [listing, ofTree, ids] using hdistinct, by simpa [ofTree] using hwhole,
    t.subtrees.reverse, fun s hs => ?_, rfl⟩
  simpa [listing, ofTree] using hs

variable {u : SourceUnit}

/-- The trees at which the source order begins are listed. -/
theorem mem_listing_of_mem_starts {t : Tree} (ht : t ∈ u.starts) : t ∈ u.listing :=
  List.mem_flatMap.mpr ⟨t, ht, mem_subtrees_self t⟩

/-- The listing of a listed node is a piece of the source order. -/
theorem isInfix_listing {t : Tree} (ht : t ∈ u.listing) : t.subtrees <:+: u.listing := by
  obtain ⟨start, hstart, ht⟩ := List.mem_flatMap.mp ht
  obtain ⟨before, behind, hsplit⟩ := List.append_of_mem hstart
  refine (isInfix_subtrees ht).trans ⟨before.flatMap subtrees, behind.flatMap subtrees, ?_⟩
  rw [listing, hsplit]
  simp

namespace IsUnshared

variable (h : u.IsUnshared)
include h

/-- Listed nodes with the same number are the same. -/
theorem eq_of_id_eq {s t : Tree} (hs : s ∈ u.listing) (ht : t ∈ u.listing) (hid : s.id = t.id) : s = t :=
  List.inj_on_of_nodup_map h.distinct hs ht hid

/-- Listed nodes are whole. -/
theorem isWhole {t : Tree} (ht : t ∈ u.listing) : t.IsWhole := by
  obtain ⟨start, hstart, ht⟩ := List.mem_flatMap.mp ht
  exact (h.whole start hstart).of_mem ht

/-- Listed nodes are unshared. -/
theorem isUnshared {t : Tree} (ht : t ∈ u.listing) : t.IsUnshared :=
  ⟨h.isWhole ht, h.distinct.sublist ((isInfix_listing ht).sublist.map Tree.id)⟩

/-- The parent that a listed node's place names is listed and has the node among its operands. -/
theorem of_parent? {t block : Tree} (ht : t ∈ u.listing) (hparent : (u.placeOf t).parent? = some block) :
    block ∈ u.listing ∧ t ∈ block.operands := by
  obtain ⟨ts, hts, hplaces⟩ := h.placed
  cases hplace : u.place? t.id with
  | none => simp [placeOf, hplace, Place.parent?] at hparent
  | some p =>
    have hp : p ∈ Place.ofTrees ts := hplaces ▸ List.mem_of_find?_eq_some hplace
    have hid : p.id = t.id := by simpa using List.find?_some hplace
    have hparent : p.parent? = some block := by simpa [placeOf, hplace, Place.parent?] using hparent
    obtain ⟨hblock, huses⟩ := (Place.of_mem_ofTrees hp).2 block hparent
    obtain ⟨a, ha, hida⟩ := List.any_eq_true.mp huses
    have hlisted := hts block hblock
    have haListed := (isInfix_listing hlisted).subset ((h.isWhole hlisted).mem_of_operand ha)
    obtain rfl : a = t := h.eq_of_id_eq haListed ht (by simpa [hid] using hida)
    exact ⟨hlisted, ha⟩

/-- The position of a node is the number of nodes in front of its listing. -/
theorem position?_eq {t : Tree} {before behind : List Tree}
    (hlisting : u.listing = before ++ t.subtrees ++ behind) : u.position? t = some before.length := by
  have hdistinct := h.distinct
  rw [hlisting, subtrees_eq_cons] at hdistinct
  have hfront : before.findIdx? (fun s => s.id == t.id) = none := by
    rw [List.findIdx?_eq_none_iff]
    intro s hs
    simp only [List.map_append, List.map_cons, List.append_assoc] at hdistinct
    have := (List.nodup_append.mp hdistinct).2.2 s.id (List.mem_map_of_mem hs) t.id (by simp)
    simpa using this
  rw [position?, hlisting, subtrees_eq_cons, List.append_assoc, List.findIdx?_append, hfront]
  simp [List.findIdx?_cons]

/-- What comes behind a node in a listed tree is the rest of the tree's listing. -/
theorem restOf_eq {a block : Tree} {before behind : List Tree} (hblock : block ∈ u.listing)
    (hsplit : block.subtrees = before ++ a.subtrees ++ behind) :
    u.restOf a block = behind.map u.placeOf := by
  obtain ⟨front, back, hlisting⟩ := isInfix_listing hblock
  have hposition := h.position?_eq hlisting.symm
  have hposition' : u.position? a = some (front.length + before.length) := by
    have hfront : u.listing = (front ++ before) ++ a.subtrees ++ (behind ++ back) := by
      rw [← hlisting, hsplit]
      simp
    rw [h.position?_eq hfront, List.length_append]
  have hslice : (u.listing.take (front.length + block.size)).drop
      (front.length + before.length + a.size) = behind := by
    rw [← hlisting, size, size, List.take_left' (by simp), hsplit]
    rw [← List.append_assoc, ← List.append_assoc, List.drop_left' (by simp [Nat.add_assoc])]
  simp [restOf, range?, hposition, hposition', slice, hslice]

end IsUnshared

end SourceUnit

end ConditionLint
