import ConditionLint.Proofs.Ancestry
import ConditionLint.Proofs.Rerun

/-!
# Findings do not cascade

The check of logical pairs and the check of constant conditions find things about the node that they look at, and
a finding about a node is kept only if neither the node nor a condition that it is part of was reported. A scan
comes by the conditions that a node is part of before it comes by the node. So when both are worth a finding, the
node is covered by the time its turn comes, and no two reports of a run are about a condition and a part of it.
-/

namespace ConditionLint

open ConditionLint.Tree

namespace SourceUnit

/-- A node is an operand of another one, which is a `!`, `&&` or `||`. -/
def IsPart (u : SourceUnit) (n m : Tree) : Prop :=
  (u.placeOf n).parent? = some m ∧ (m.isNot || m.isLogical) = true

/-- A node is part of another one: going up from it, through `!`, `&&` and `||` only, leads to the other one. -/
def IsWithin (u : SourceUnit) : Tree → Tree → Prop := Relation.TransGen u.IsPart

end SourceUnit

namespace Ledger

variable {l : Ledger} {p : Place} {f : Finding} {fs : List Finding}

/-- A finding about one condition that is not covered is kept, and the condition is reported. -/
theorem file_of_not_covers (hsubjects : f.subjects = [p]) (hp : l.covers p = false) :
    l.file f = ⟨l.reported ++ [p.id], l.findings ++ [f]⟩ := by
  simp [file, hsubjects, markAll, mark, hp, append]

/-- Of findings about one condition, at most one is kept, and only if the condition is not covered. -/
theorem fileAll_of_subjects (h : ∀ f ∈ fs, f.subjects = [p]) : l.fileAll fs = l ∨
    l.covers p = false ∧ ∃ f ∈ fs, l.fileAll fs = ⟨l.reported ++ [p.id], l.findings ++ [f]⟩ := by
  have hsettles {l : Ledger} (hp : l.covers p = true) {f : Finding} (hf : f.subjects = [p]) : l.Settles f :=
    ⟨by simp [hf], by simpa [hf] using hp⟩
  cases fs with
  | nil => exact Or.inl rfl
  | cons f fs =>
    obtain ⟨hf, hfs⟩ := List.forall_mem_cons.mp h
    cases hp : l.covers p with
    | true => exact Or.inl (fileAll_of_settles fun g hg => hsettles hp (h g hg))
    | false =>
      have hfile := file_of_not_covers hf hp
      have hcovers : (l.file f).covers p = true := (l.settles_file (by simp [hf])).covers p (by simp [hf])
      refine Or.inr ⟨rfl, f, List.mem_cons_self, ?_⟩
      rw [← hfile]
      exact fileAll_of_settles fun g hg => hsettles hcovers (hfs g hg)

/-- What is covered after a report was covered before, or is the reported condition or part of it. -/
theorem covers_report_iff {i : NodeId} {findings : List Finding} :
    Ledger.covers ⟨l.reported ++ [i], findings⟩ p = true ↔ l.covers p = true ∨ i ∈ p.cone := by
  simp only [covers, List.any_eq_true, List.contains_iff_mem, List.mem_append, List.mem_singleton]
  constructor
  · rintro ⟨x, hx, hreported | rfl⟩
    · exact Or.inl ⟨x, hx, hreported⟩
    · exact Or.inr hx
  · rintro (⟨x, hx, hreported⟩ | hi)
    · exact ⟨x, hx, Or.inl hreported⟩
    · exact ⟨i, hi, Or.inr rfl⟩

/-- A condition that is not covered after a report was not covered before, and is no part of what was reported. -/
theorem of_not_covers {i : NodeId} {findings : List Finding}
    (h : Ledger.covers ⟨l.reported ++ [i], findings⟩ p = false) : l.covers p = false ∧ i ∉ p.cone := by
  rwa [← Bool.not_eq_true, covers_report_iff, not_or, Bool.not_eq_true] at h

end Ledger

namespace Check

variable {c : Check} {o : Options} {u : SourceUnit}

/-- The reports of a scan are about some of its places, in their order, none of which was covered before. None of
these places is a part of an earlier one. -/
theorem exists_kept_of_scan (hc : ∀ l p, ∀ f ∈ c.findingsAt o u l p, f.subjects = [p]) (ps : List Place)
    (l : Ledger) : ∃ (added : List Finding) (kept : List Place),
      (ps.foldl (fun l p => l.fileAll (c.findingsAt o u l p)) l).findings = l.findings ++ added ∧
      added.map Finding.subjects = kept.map (fun p => [p]) ∧ kept.Sublist ps ∧
      (∀ p ∈ kept, l.covers p = false) ∧ kept.Pairwise fun p q => p.id ∉ q.cone := by
  induction ps generalizing l with
  | nil => exact ⟨[], [], by simp, rfl, .slnil, by simp, .nil⟩
  | cons p ps ih =>
    rw [List.foldl_cons]
    rcases Ledger.fileAll_of_subjects (hc l p) with hsame | ⟨hp, f, hf, hfiled⟩
    · rw [hsame]
      obtain ⟨added, kept, hfindings, hsubjects, hsublist, hcovers, hapart⟩ := ih l
      exact ⟨added, kept, hfindings, hsubjects, hsublist.cons p, hcovers, hapart⟩
    · rw [hfiled]
      obtain ⟨added, kept, hfindings, hsubjects, hsublist, hcovers, hapart⟩ :=
        ih ⟨l.reported ++ [p.id], l.findings ++ [f]⟩
      refine ⟨f :: added, p :: kept, ?_, ?_, hsublist.cons_cons p, ?_, ?_⟩
      · rw [hfindings, List.append_assoc, List.singleton_append]
      · rw [List.map_cons, List.map_cons, hsubjects, hc l p f hf]
      · exact List.forall_mem_cons.mpr ⟨hp, fun q hq => (Ledger.of_not_covers (hcovers q hq)).1⟩
      · exact List.pairwise_cons.mpr ⟨fun q hq => (Ledger.of_not_covers (hcovers q hq)).2, hapart⟩

/-- The reports of a check that finds things about the node it looks at are about some of the places that it looks
at, none of which was covered before. None of these places is a part of an earlier one. -/
theorem exists_kept_of_reports (hc : ∀ l p, ∀ f ∈ c.findingsAt o u l p, f.subjects = [p]) (l : Ledger) :
    ∃ kept : List Place, (c.reports o u l).map Finding.subjects = kept.map (fun p => [p]) ∧
      kept.Sublist u.scanned ∧ (∀ p ∈ kept, l.covers p = false) ∧ kept.Pairwise fun p q => p.id ∉ q.cone := by
  unfold reports run
  split
  · obtain ⟨added, kept, hfindings, hkept⟩ := exists_kept_of_scan hc u.scanned l
    rw [hfindings, List.drop_left]
    exact ⟨kept, hkept⟩
  · exact ⟨[], by simp, List.nil_sublist _, by simp, .nil⟩

end Check

/-- The conditions that a node is part of are the node above it, if that is a `!`, `&&` or `||`, and those that this one
is part of. -/
theorem SourceUnit.cone_of_above {u : SourceUnit} {m n : Tree} (habove : (u.placeOf n).above = m :: (u.placeOf m).above)
    (hlogical : (m.isNot || m.isLogical) = true) : (u.placeOf n).cone = n.id :: (u.placeOf m).cone := by
  rw [Place.cone, habove, List.takeWhile_cons_of_pos (p := fun t : Tree => t.isNot || t.isLogical) hlogical]
  rfl

namespace SourceUnit.IsLinked

variable {u : SourceUnit} (hl : u.IsLinked) (h : u.IsUnshared) {m n : Tree}
include hl h

/-- The conditions that a node is part of are its parent and those that the parent is part of. -/
theorem cone_of_isPart (hn : n ∈ u.listing) (hpart : u.IsPart n m) :
    (u.placeOf n).cone = n.id :: (u.placeOf m).cone := by
  have habove := hl.above_eq h hn
  rw [hpart.1, Option.elim_some] at habove
  exact cone_of_above habove hpart.2

/-- A node that is part of another one has it in its cone, and comes behind it in the source order. -/
theorem of_isWithin (hn : n ∈ u.listing) (hwithin : u.IsWithin n m) :
    m.id ∈ (u.placeOf n).cone ∧ u.position m < u.position n := by
  induction hwithin using Relation.TransGen.head_induction_on with
  | single hpart =>
    obtain ⟨hm, hoperand⟩ := h.of_parent? hn hpart.1
    rw [hl.cone_of_isPart h hn hpart]
    exact ⟨List.mem_cons_of_mem _ List.mem_cons_self, h.position_lt_operand hm hoperand⟩
  | head hpart hwithin ih =>
    obtain ⟨hm, hoperand⟩ := h.of_parent? hn hpart.1
    obtain ⟨hcone, hlt⟩ := ih hm
    rw [hl.cone_of_isPart h hn hpart]
    exact ⟨List.mem_cons_of_mem _ hcone, hlt.trans (h.position_lt_operand hm hoperand)⟩

end SourceUnit.IsLinked

namespace SourceUnit.IsUnshared

variable {u : SourceUnit} (h : u.IsUnshared)
include h

/-- Of two places in the source order, the node of the earlier one has the smaller position. -/
theorem pairwise_order : u.order.Pairwise fun p q => u.position p.tree < u.position q.tree := by
  rw [order, List.pairwise_map]
  exact pairwise_position h.distinct

/-- Of two places that were kept in source order, the one with the smaller position was kept first. -/
theorem not_mem_cone_of_position_lt {kept : List Place} (hsublist : kept.Sublist u.order)
    (hapart : kept.Pairwise fun p q => p.id ∉ q.cone) {p q : Place} (hp : p ∈ kept) (hq : q ∈ kept)
    (hlt : u.position p.tree < u.position q.tree) : p.id ∉ q.cone := by
  obtain ⟨i, hi, rfl⟩ := List.getElem_of_mem hp
  obtain ⟨j, hj, rfl⟩ := List.getElem_of_mem hq
  rcases Nat.lt_trichotomy i j with hij | rfl | hji
  · exact List.pairwise_iff_getElem.mp hapart i j hi hj hij
  · exact absurd hlt (Nat.lt_irrefl _)
  · have hpositions := List.pairwise_iff_getElem.mp (h.pairwise_order.sublist hsublist)
    exact absurd hlt (Nat.lt_asymm (hpositions j i hj hi hji))

end SourceUnit.IsUnshared

namespace Check

/-- The reports of a run are about nodes that were not covered before it. No two of them are about the same node, or
about a node and a part of it. -/
structure ReportsStandApart (c : Check) (o : Options) (u : SourceUnit) (l : Ledger) : Prop where
  uncovered : ∀ f ∈ c.reports o u l, ∃ t ∈ u.listing, f.subjects = [u.placeOf t] ∧ l.covers (u.placeOf t) = false
  once : ((c.reports o u l).flatMap Finding.subjects).Pairwise fun p q => p.id ≠ q.id
  apart : ∀ f ∈ c.reports o u l, ∀ g ∈ c.reports o u l, ∀ m n, f.subjects = [u.placeOf m] →
    g.subjects = [u.placeOf n] → ¬u.IsWithin n m

/-- The reports of a check that finds things about the node it looks at stand apart. -/
theorem reportsStandApart {c : Check} {o : Options} {u : SourceUnit} (hl : u.IsLinked) (h : u.IsUnshared)
    (hc : ∀ l p, ∀ f ∈ c.findingsAt o u l p, f.subjects = [p]) (l : Ledger) : c.ReportsStandApart o u l := by
  obtain ⟨kept, hsubjects, hsublist, hcovers, hapart⟩ := exists_kept_of_reports hc l
  rw [hl.scanned_eq_order h] at hsublist
  have hkept {f : Finding} (hf : f ∈ c.reports o u l) : ∃ p ∈ kept, f.subjects = [p] := by
    have hmem := List.mem_map_of_mem (f := Finding.subjects) hf
    rw [hsubjects] at hmem
    obtain ⟨p, hp, heq⟩ := List.mem_map.mp hmem
    exact ⟨p, hp, heq.symm⟩
  refine ⟨fun f hf => ?_, ?_, fun f hf g hg m n hm hn hwithin => ?_⟩
  · obtain ⟨p, hp, hf⟩ := hkept hf
    obtain ⟨t, ht, rfl⟩ := List.mem_map.mp (hsublist.subset hp)
    exact ⟨t, ht, hf, hcovers _ hp⟩
  · have hflat : (c.reports o u l).flatMap Finding.subjects = kept := by
      rw [List.flatMap_def, hsubjects, ← List.flatMap_def, List.flatMap_singleton']
    rw [hflat]
    exact hapart.imp fun {p q} hpq heq => hpq (List.mem_cons.mpr (Or.inl heq))
  · obtain ⟨p, hp, hf⟩ := hkept hf
    obtain ⟨q, hq, hg⟩ := hkept hg
    obtain rfl : p = u.placeOf m := by simpa [hf] using hm
    obtain rfl : q = u.placeOf n := by simpa [hg] using hn
    obtain ⟨t, ht, heq⟩ := List.mem_map.mp (hsublist.subset hq)
    obtain rfl : t = n := congrArg Place.tree heq
    obtain ⟨hcone, hlt⟩ := hl.of_isWithin h ht hwithin
    exact h.not_mem_cone_of_position_lt hsublist hapart hp hq hlt hcone

end Check

/-- In a unit that comes from a draft in which no node is an operand twice, and no function body is an operand, no
run of the check of logical pairs or of the check of constant conditions cascades, whatever was reported before. -/
theorem Draft.reports_stand_apart {file : String} {actions : List Action} {d : Draft}
    (h : Draft.performAll? { file := file } actions = some d) (hu : d.IsUnshared) {c : Check}
    (hc : c = .logicalPair ∨ c = .constantCondition) (o : Options) (l : Ledger) :
    c.ReportsStandApart o d.finish l := by
  refine Check.reportsStandApart (isLinked_finish h hu) (isUnshared_finish h hu) (fun l p f hf => ?_) l
  rcases hc with rfl | rfl
  · exact Place.subjects_of_mem_logicalPairs hf
  · exact Place.subjects_of_mem_constantConditions hf

/-- `!(x > 1 && x < 0)` and, on its own, `x > 3 && x < 2` -/
def Draft.contradictions : List Action :=
  [.declare "x" .int {}, .reference 0, .literal (.decimal 1) .int, .binary (.compare .gt) 0 1,
    .reference 0, .literal (.decimal 0) .int, .binary (.compare .lt) 3 4, .binary (.logic .and) 2 5, .unary .not 6,
    .reference 0, .literal (.decimal 3) .int, .binary (.compare .gt) 8 9,
    .reference 0, .literal (.decimal 2) .int, .binary (.compare .lt) 11 12, .binary (.logic .and) 10 13]

/-- The check of logical pairs reports both conjunctions. With the negation reported before, a run of it reports the
second one only, because the first one is part of the negation. -/
theorem Draft.reports_stand_apart_contradictions :
    ∃ d : Draft, Draft.performAll? { file := "a.c" } contradictions = some d ∧ d.IsUnshared ∧
      (Check.logicalPair.reports {} d.finish {}).map (fun f => f.subjects.map Place.id) = [[6], [14]] ∧
      (Check.logicalPair.reports {} d.finish { reported := [7] }).map (fun f => f.subjects.map Place.id) = [[14]] ∧
      Check.logicalPair.ReportsStandApart {} d.finish { reported := [7] } := by
  have hd : Draft.performAll? { file := "a.c" } contradictions = some _ := rfl
  refine ⟨_, hd, by decide, ?_, ?_, Draft.reports_stand_apart hd (by decide) (Or.inl rfl) {} _⟩
  · rw [finish_eq hd (by decide)]
    decide +kernel
  · rw [finish_eq hd (by decide)]
    decide +kernel

end ConditionLint
