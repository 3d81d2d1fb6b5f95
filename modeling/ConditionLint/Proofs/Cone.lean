import ConditionLint.Proofs.Cascade
import ConditionLint.Proofs.Sharing

/-!
# What a report covers

A report covers the condition that it is about and the conditions within it. Going up from a condition, the walk that
looks for a report ends at the first node that is no `!`, `&&` or `||`, and it comes by the conditions that the first
one is within and by no others. So after one more report exactly these are covered in addition, and after any number
of reports what was covered before and what is within one of the reported conditions. Nothing depends on which nodes
are shared: a shared node belongs to the last node that uses it.
-/

namespace ConditionLint

open ConditionLint.Tree

namespace SourceUnit

/-- A node is within its parent, if that is a `!`, `&&` or `||`, and within what the parent is within. -/
theorem isWithin_iff {u : SourceUnit} {m n : Tree} :
    u.IsWithin n m ↔ ∃ s, u.IsPart n s ∧ (s = m ∨ u.IsWithin s m) := by
  rw [IsWithin, Relation.TransGen.head'_iff]
  simp only [Relation.reflTransGen_iff_eq_or_transGen, eq_comm]

/-- A node is an operand of one `!`, `&&` or `||` at most. -/
theorem isWithin_iff_of_isPart {u : SourceUnit} {m n s : Tree} (hpart : u.IsPart n s) :
    u.IsWithin n m ↔ s = m ∨ u.IsWithin s m := by
  rw [isWithin_iff]
  constructor
  · rintro ⟨r, hpart', hwithin⟩
    obtain rfl : r = s := Option.some.inj (hpart'.1.symm.trans hpart.1)
    exact hwithin
  · exact fun hwithin => ⟨s, hpart, hwithin⟩

/-- From an operand of something else the walk does not go up. -/
theorem cone_of_not_isPart {u : SourceUnit} {n : Tree} (h : ∀ s, ¬u.IsPart n s) : (u.placeOf n).cone = [n.id] := by
  have hid : (u.placeOf n).id = n.id := rfl
  cases habove : (u.placeOf n).above with
  | nil => simp [Place.cone, habove, hid]
  | cons s rest =>
    have hparent : (u.placeOf n).parent? = some s := by rw [Place.parent?, habove, List.head?_cons]
    have hother : ¬(s.isNot || s.isLogical) = true := fun hlogical => h s ⟨hparent, hlogical⟩
    simp [Place.cone, habove, hid, hother]

section Walk

variable {u : SourceUnit} (hdistinct : (u.listing.map Tree.id).Nodup)
  (hplaces : u.places = Place.ofTrees (u.listing.mergeSort fun s t => s.id ≤ t.id)) {m n : Tree}
include hdistinct hplaces

/-- What a listed node is within is listed. -/
theorem mem_listing_of_isWithin (hn : n ∈ u.listing) (hwithin : u.IsWithin n m) : m ∈ u.listing := by
  induction hwithin with
  | single hpart => exact (of_parent?_placeOf hdistinct hplaces hn hpart.1).1
  | tail _ hpart ih => exact (of_parent?_placeOf hdistinct hplaces ih hpart.1).1

/-- The walk up from a node comes by the node and by what it is within. -/
theorem mem_cone_iff (hn : n ∈ u.listing) {i : NodeId} :
    i ∈ (u.placeOf n).cone ↔ i = n.id ∨ ∃ m, u.IsWithin n m ∧ m.id = i := by
  -- By induction on the number of nodes above, of which the parent has one less.
  induction hk : (u.placeOf n).above.length using Nat.strong_induction_on generalizing n with
  | _ k ih =>
    by_cases hpart : ∃ s, u.IsPart n s
    · obtain ⟨s, hpart⟩ := hpart
      obtain ⟨hs, hlinked⟩ := of_parent?_placeOf hdistinct hplaces hn hpart.1
      have hshorter : (u.placeOf s).above.length < k := by
        rw [← hk, hlinked]
        exact Nat.lt_succ_self _
      rw [cone_of_above hlinked hpart.2, List.mem_cons, ih _ hshorter hs rfl]
      simp only [isWithin_iff_of_isPart hpart, or_and_right, exists_or, exists_eq_left', eq_comm]
    · have houtside (m : Tree) : ¬u.IsWithin n m := fun hwithin => by
        obtain ⟨s, hs, -⟩ := isWithin_iff.mp hwithin
        exact hpart ⟨s, hs⟩
      rw [cone_of_not_isPart (not_exists.mp hpart), List.mem_singleton]
      simp [houtside]

/-- The walk up from a node comes by another listed node exactly if that is the node itself or one that it is within. -/
theorem id_mem_cone_iff (hm : m ∈ u.listing) (hn : n ∈ u.listing) :
    n.id ∈ (u.placeOf m).cone ↔ m = n ∨ u.IsWithin m n := by
  have hsame {s : Tree} (hs : s ∈ u.listing) (hid : s.id = n.id) : s = n :=
    List.inj_on_of_nodup_map hdistinct hs hn hid
  rw [mem_cone_iff hdistinct hplaces hm]
  refine or_congr ⟨fun hid => hsame hm hid.symm, fun heq => heq ▸ rfl⟩ ⟨?_, fun hwithin => ⟨n, hwithin, rfl⟩⟩
  rintro ⟨s, hwithin, hid⟩
  exact hsame (mem_listing_of_isWithin hdistinct hplaces hm hwithin) hid ▸ hwithin

/-- What is within a covered condition is covered. -/
theorem covers_of_isWithin {l : Ledger} (hm : m ∈ u.listing) (hwithin : u.IsWithin m n)
    (h : l.covers (u.placeOf n) = true) : l.covers (u.placeOf m) = true := by
  have hn := mem_listing_of_isWithin hdistinct hplaces hm hwithin
  obtain ⟨i, hi, hreported⟩ := List.any_eq_true.mp h
  refine List.any_eq_true.mpr ⟨i, (mem_cone_iff hdistinct hplaces hm).mpr (Or.inr ?_), hreported⟩
  rcases (mem_cone_iff hdistinct hplaces hn).mp hi with rfl | ⟨r, houter, rfl⟩
  · exact ⟨n, hwithin, rfl⟩
  · exact ⟨r, hwithin.trans houter, rfl⟩

/-- Marking a condition covers it and what is within it in addition, and nothing else. -/
theorem covers_mark_iff (l : Ledger) (hm : m ∈ u.listing) (hn : n ∈ u.listing) :
    (l.mark (u.placeOf n)).covers (u.placeOf m) = true ↔
      l.covers (u.placeOf m) = true ∨ m = n ∨ u.IsWithin m n := by
  unfold Ledger.mark
  split
  · next hcovered =>
    refine ⟨Or.inl, ?_⟩
    rintro (h | rfl | hwithin)
    · exact h
    · exact hcovered
    · exact covers_of_isWithin hdistinct hplaces hm hwithin hcovered
  · exact Ledger.covers_report_iff.trans (or_congr_right (id_mem_cone_iff hdistinct hplaces hm hn))

/-- Marking several conditions, one after the other, covers them and what is within them in addition. -/
theorem covers_markAll_iff (l : Ledger) {ns : List Tree} (hns : ns ⊆ u.listing) (hm : m ∈ u.listing) :
    (l.markAll (ns.map u.placeOf)).2.covers (u.placeOf m) = true ↔
      l.covers (u.placeOf m) = true ∨ ∃ n ∈ ns, m = n ∨ u.IsWithin m n := by
  induction ns generalizing l with
  | nil => simp [Ledger.markAll]
  | cons n ns ih =>
    obtain ⟨hn, hns⟩ := List.cons_subset.mp hns
    have hrest := ih (l.mark (u.placeOf n)) hns
    rw [covers_mark_iff hdistinct hplaces l hm hn] at hrest
    simp only [List.exists_mem_cons_iff, ← or_assoc] at hrest ⊢
    exact hrest

end Walk

/-- What marking a node does to what a ledger covers. -/
structure MarksCone (u : SourceUnit) (l : Ledger) (n : Tree) : Prop where
  /-- A condition that is not covered is told to be new. Then it is covered, with all conditions that lead up to it
  through `!`, `&&` and `||` only, and nothing else in addition. -/
  fresh : l.covers (u.placeOf n) = false → (l.markAll [u.placeOf n]).1 = false ∧ ∀ m ∈ u.listing,
    ((l.markAll [u.placeOf n]).2.covers (u.placeOf m) = true ↔
      l.covers (u.placeOf m) = true ∨ m = n ∨ u.IsWithin m n)
  /-- A condition that is covered is told to be so, and nothing changes. -/
  stale : l.covers (u.placeOf n) = true → l.markAll [u.placeOf n] = (true, l)

end SourceUnit

namespace Draft

/-- Whatever unit was made and whatever a ledger holds, marking a node covers the node and what is within it in
addition. After any sequence of markings, what was covered is covered, and so is what is within a marked node. -/
theorem marks_cover_cone {file : String} {actions : List Action} {d : Draft}
    (h : Draft.performAll? { file := file } actions = some d) (l : Ledger) :
    (∀ n ∈ d.finish.listing, d.finish.MarksCone l n) ∧
      ∀ ns, ns ⊆ d.finish.listing → ∀ m ∈ d.finish.listing,
        ((l.markAll (ns.map d.finish.placeOf)).2.covers (d.finish.placeOf m) = true ↔
          l.covers (d.finish.placeOf m) = true ∨ ∃ n ∈ ns, m = n ∨ d.finish.IsWithin m n) := by
  have hdistinct := nodup_finish h
  refine ⟨fun n hn => ⟨fun hfresh => ⟨?_, fun m hm => ?_⟩, fun hstale => ?_⟩, fun ns hns m hm => ?_⟩
  · simp [Ledger.markAll, hfresh]
  · exact SourceUnit.covers_mark_iff hdistinct rfl l hm hn
  · exact Ledger.markAll_of_covers (List.forall_mem_singleton.mpr hstale)
  · exact SourceUnit.covers_markAll_iff hdistinct rfl l hns hm

/-- `!(a == b)` -/
def negatedComparison : List Action :=
  [.name "a", .name "b", .binary (.compare .eq) 0 1, .unary .not 2]

/-- Once the negation is marked, the comparison in it is covered. What is compared is not. -/
theorem marks_cover_cone_negatedComparison :
    ∃ d, Draft.performAll? { file := "a.c" } negatedComparison = some d ∧
      ∃ negation comparison name : Tree, d.finish.listing[0]? = some negation ∧
        d.finish.listing[1]? = some comparison ∧ d.finish.listing[2]? = some name ∧
        Ledger.covers {} (d.finish.placeOf negation) = false ∧
        (Ledger.markAll {} [d.finish.placeOf negation]).1 = false ∧
        (Ledger.markAll {} [d.finish.placeOf negation]).2.covers (d.finish.placeOf comparison) = true ∧
        (Ledger.markAll {} [d.finish.placeOf negation]).2.covers (d.finish.placeOf name) = false := by
  obtain ⟨d, negation, comparison, name, hd, hu, hlisted, hkinds, houter, hinner⟩ :
      ∃ (d : Draft) (negation comparison name : Tree),
        Draft.performAll? { file := "a.c" } negatedComparison = some d ∧ d.IsUnshared ∧
        (d.finish.listing[0]? = some negation ∧ d.finish.listing[1]? = some comparison ∧
          d.finish.listing[2]? = some name) ∧
        (negation.isNot = true ∧ (comparison.isNot || comparison.isLogical) = false ∧ name.isNot = false) ∧
        negation.operands[0]? = some comparison ∧ comparison.operands[0]? = some name :=
    ⟨_, _, _, _, rfl, by decide, ⟨rfl, rfl, rfl⟩, by decide, rfl, rfl⟩
  obtain ⟨hnegation, hcomparison, hname⟩ := hlisted
  have hparent {s t : Tree} {i j : Nat} (hs : d.finish.listing[i]? = some s) (ht : d.finish.listing[j]? = some t)
      (hst : s.operands[0]? = some t) : (d.finish.placeOf t).parent? = some s :=
    ((isLinked_finish hd hu).parent?_eq_some_iff (isUnshared_finish hd hu) (List.mem_of_getElem? hs)
      (List.mem_of_getElem? ht)).mpr (List.mem_of_getElem? hst)
  have hfresh : Ledger.covers {} (d.finish.placeOf negation) = false := by simp [Ledger.covers]
  have hinside : d.finish.IsWithin comparison negation :=
    .single ⟨hparent hnegation hcomparison houter, by simp [hkinds]⟩
  obtain ⟨htold, hcovers⟩ := ((marks_cover_cone hd {}).1 negation (List.mem_of_getElem? hnegation)).fresh hfresh
  refine ⟨d, hd, negation, comparison, name, hnegation, hcomparison, hname, hfresh, htold, ?_, ?_⟩
  · exact (hcovers comparison (List.mem_of_getElem? hcomparison)).mpr (Or.inr (Or.inr hinside))
  · rw [← Bool.not_eq_true, hcovers name (List.mem_of_getElem? hname)]
    rintro (hbefore | rfl | hwithin)
    · simp [Ledger.covers] at hbefore
    · simp [hkinds.1] at hkinds
    · obtain ⟨s, hpart, -⟩ := SourceUnit.isWithin_iff.mp hwithin
      obtain rfl : comparison = s := Option.some.inj ((hparent hcomparison hname hinner).symm.trans hpart.1)
      exact absurd hpart.2 (by simp [hkinds])

end Draft

end ConditionLint
