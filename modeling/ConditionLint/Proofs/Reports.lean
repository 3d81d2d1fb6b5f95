import ConditionLint.Check

/-!
# What a check reports

A ledger only grows: filing a finding keeps the earlier ones in their order, and adds the new one behind
them or drops it. The reports of a check are therefore the findings behind those that were there before it
ran, and each of them was found at a place that the check looked at.
-/

namespace ConditionLint

namespace Ledger

/-- Marking a condition makes no finding. -/
@[simp] theorem findings_mark (l : Ledger) (p : Place) : (l.mark p).findings = l.findings := by
  unfold mark
  split <;> rfl

/-- Marking several conditions makes no finding. -/
@[simp] theorem findings_markAll (l : Ledger) (ps : List Place) :
    (l.markAll ps).2.findings = l.findings := by
  induction ps generalizing l with
  | nil => rfl
  | cons p ps ih => simpa [markAll] using ih (l.mark p)

/-- A filed finding is put behind the earlier ones, or dropped. -/
theorem findings_file (l : Ledger) (f : Finding) :
    (l.file f).findings = l.findings ∨ (l.file f).findings = l.findings ++ [f] := by
  unfold file
  split
  · exact Or.inr rfl
  · have hmarked := l.findings_markAll f.subjects
    dsimp only
    split
    · exact Or.inl hmarked
    · exact Or.inr (congrArg (· ++ [f]) hmarked)

/-- Filed findings are put behind the earlier ones in their order, except those that are dropped. -/
theorem findings_fileAll (l : Ledger) (fs : List Finding) :
    ∃ kept, kept.Sublist fs ∧ (l.fileAll fs).findings = l.findings ++ kept := by
  induction fs generalizing l with
  | nil => exact ⟨[], .slnil, (List.append_nil _).symm⟩
  | cons f fs ih =>
    obtain ⟨kept, hkept, hfindings⟩ := ih (l.file f)
    rcases l.findings_file f with hdropped | hadded
    · exact ⟨kept, hkept.cons f, hdropped ▸ hfindings⟩
    · refine ⟨f :: kept, hkept.cons_cons f, hfindings.trans ?_⟩
      rw [hadded, List.append_assoc, List.singleton_append]

end Ledger

namespace Check

/-- The findings that a run of the check adds to a ledger. -/
def reports (c : Check) (o : Options) (u : SourceUnit) (l : Ledger) : List Finding :=
  (c.run o u l).findings.drop l.findings.length

/-- A scan puts its findings behind the earlier ones, and has made each of them at one of its places. -/
theorem findings_scan (c : Check) (o : Options) (u : SourceUnit) (ps : List Place) (l : Ledger) :
    ∃ added, (ps.foldl (fun l p => l.fileAll (c.findingsAt o u l p)) l).findings = l.findings ++ added ∧
      ∀ f ∈ added, ∃ l', ∃ p ∈ ps, f ∈ c.findingsAt o u l' p := by
  induction ps generalizing l with
  | nil => exact ⟨[], (List.append_nil _).symm, fun f hf => absurd hf List.not_mem_nil⟩
  | cons p ps ih =>
    obtain ⟨kept, hkept, hhere⟩ := l.findings_fileAll (c.findingsAt o u l p)
    obtain ⟨added, hrest, hadded⟩ := ih (l.fileAll (c.findingsAt o u l p))
    refine ⟨kept ++ added, ?_, fun f hf => ?_⟩
    · rw [List.foldl_cons, hrest, hhere, List.append_assoc]
    · rcases List.mem_append.mp hf with hf | hf
      · exact ⟨l, p, List.mem_cons_self, hkept.subset hf⟩
      · obtain ⟨l', q, hq, hfound⟩ := hadded f hf
        exact ⟨l', q, List.mem_cons_of_mem p hq, hfound⟩

/-- A report was found at one of the places that the check looks at. -/
theorem exists_of_mem_reports {c : Check} {o : Options} {u : SourceUnit} {l : Ledger} {f : Finding}
    (h : f ∈ c.reports o u l) : ∃ l', ∃ p ∈ u.scanned, f ∈ c.findingsAt o u l' p := by
  unfold reports run at h
  split at h
  · obtain ⟨added, hfindings, hadded⟩ := c.findings_scan o u u.scanned l
    rw [hfindings, List.drop_left] at h
    exact hadded f h
  · simp at h

end Check

/-- The source unit of one tree whose operands are not shared. -/
def SourceUnit.ofTree (t : Tree) : SourceUnit where
  vars := []
  functions := []
  starts := [t]
  places := Place.ofTrees t.subtrees.reverse

end ConditionLint
