import ConditionLint.Proofs.EarlyExit
import ConditionLint.Proofs.ElseIf
import ConditionLint.Proofs.OverflowTest
import ConditionLint.Proofs.TypeRange
import ConditionLint.Session

/-!
# Running a check again

Conditions that were reported stay reported, also when the findings are emitted. A check all of whose
findings are about conditions has therefore nothing new to say once it has run: whatever it finds later, it
has found before, and the conditions that a finding is about are covered once the finding was filed.

Only one of the checks looks at the ledger, and it finds less when more is reported.
-/

namespace ConditionLint

namespace Ledger

variable {l l' : Ledger} {p : Place} {f : Finding} {fs : List Finding}

/-- What is covered stays covered when more is reported. -/
theorem covers_mono (h : l.reported ⊆ l'.reported) (hp : l.covers p = true) : l'.covers p = true := by
  obtain ⟨id, hid, hreported⟩ := List.any_eq_true.mp hp
  refine List.any_eq_true.mpr ⟨id, hid, ?_⟩
  exact List.contains_iff_mem.mpr (h (List.contains_iff_mem.mp hreported))

/-- Marking a condition keeps what is reported. -/
theorem reported_mark (l : Ledger) (p : Place) : l.reported ⊆ (l.mark p).reported := by
  unfold mark
  split
  · exact List.Subset.refl _
  · exact List.subset_append_left _ _

/-- A marked condition is covered. -/
theorem covers_mark (l : Ledger) (p : Place) : (l.mark p).covers p = true := by
  unfold mark
  split
  · next hp => exact hp
  · exact List.any_eq_true.mpr ⟨p.id, List.mem_cons_self, by simp⟩

/-- Marking several conditions keeps what is reported. -/
theorem reported_markAll (l : Ledger) (ps : List Place) : l.reported ⊆ (l.markAll ps).2.reported := by
  induction ps generalizing l with
  | nil => exact List.Subset.refl _
  | cons p ps ih => exact List.Subset.trans (l.reported_mark p) (ih (l.mark p))

/-- All marked conditions are covered. -/
theorem covers_markAll (l : Ledger) {ps : List Place} (hp : p ∈ ps) : (l.markAll ps).2.covers p = true := by
  induction ps generalizing l with
  | nil => exact absurd hp List.not_mem_nil
  | cons q ps ih =>
    rcases List.mem_cons.mp hp with rfl | hp
    · exact covers_mono ((l.mark p).reported_markAll ps) (l.covers_mark p)
    · exact ih (l.mark q) hp

/-- Marking conditions that are covered changes nothing. -/
theorem markAll_of_covers {ps : List Place} (h : ∀ p ∈ ps, l.covers p = true) :
    l.markAll ps = (true, l) := by
  induction ps with
  | nil => rfl
  | cons p ps ih =>
    obtain ⟨hp, hps⟩ := List.forall_mem_cons.mp h
    have hmark : l.mark p = l := if_pos hp
    simp [markAll, hmark, ih hps, hp]

/-- Filing a finding reports its subjects, whether the finding is kept or not. -/
theorem reported_file (l : Ledger) (f : Finding) :
    (l.file f).reported = (l.markAll f.subjects).2.reported := by
  unfold file
  split
  · next hsubjects => rw [hsubjects]; rfl
  · dsimp only
    split <;> rfl

/-- Filing findings keeps what is reported. -/
theorem reported_fileAll (l : Ledger) (fs : List Finding) : l.reported ⊆ (l.fileAll fs).reported := by
  induction fs generalizing l with
  | nil => exact List.Subset.refl _
  | cons f fs ih =>
    have hfile : l.reported ⊆ (l.file f).reported := l.reported_file f ▸ l.reported_markAll f.subjects
    exact List.Subset.trans hfile (ih (l.file f))

/-- The finding is about conditions, and all of them are covered. -/
structure Settles (l : Ledger) (f : Finding) : Prop where
  subjects_ne_nil : f.subjects ≠ []
  covers : ∀ p ∈ f.subjects, l.covers p = true

/-- What is settled stays settled when more is reported. -/
theorem Settles.mono (h : l.Settles f) (hl : l.reported ⊆ l'.reported) : l'.Settles f :=
  ⟨h.subjects_ne_nil, fun p hp => covers_mono hl (h.covers p hp)⟩

/-- A settled finding is dropped without a trace. -/
theorem Settles.file_eq (h : l.Settles f) : l.file f = l := by
  unfold file
  split
  · next hsubjects => exact absurd hsubjects h.subjects_ne_nil
  · rw [markAll_of_covers h.covers]
    rfl

/-- Settled findings are dropped without a trace. -/
theorem fileAll_of_settles (h : ∀ f ∈ fs, l.Settles f) : l.fileAll fs = l := by
  induction fs with
  | nil => rfl
  | cons f fs ih =>
    obtain ⟨hf, hfs⟩ := List.forall_mem_cons.mp h
    rw [fileAll, List.foldl_cons, hf.file_eq]
    exact ih hfs

/-- A finding about conditions is settled once it was filed. -/
theorem settles_file (l : Ledger) (h : f.subjects ≠ []) : (l.file f).Settles f where
  subjects_ne_nil := h
  covers p hp := by
    have hmarked := l.covers_markAll hp
    unfold covers at hmarked ⊢
    rwa [l.reported_file f]

/-- Findings about conditions are settled once they were filed. -/
theorem settles_fileAll (l : Ledger) (h : f.subjects ≠ []) (hf : f ∈ fs) : (l.fileAll fs).Settles f := by
  induction fs generalizing l with
  | nil => exact absurd hf List.not_mem_nil
  | cons g fs ih =>
    rcases List.mem_cons.mp hf with rfl | hf
    · exact (l.settles_file h).mono ((l.file f).reported_fileAll fs)
    · exact ih (l.file g) hf

end Ledger

section Subjects

variable {o : Options} {u : SourceUnit} {l : Ledger} {p : Place} {f : Finding}

attribute [local simp] Finding.subjects

/-- A finding in an else-if chain is about conditions. -/
theorem Place.subjects_of_mem_elseIfs (h : f ∈ p.elseIfs u l) : f.subjects ≠ [] := by
  obtain ⟨_, _, -, -, ⟨-, rfl⟩ | ⟨-, rfl⟩⟩ := of_mem_elseIfs h <;> simp

/-- A finding under or behind a condition is about conditions. -/
theorem Place.subjects_of_mem_innerConditions (h : f ∈ p.innerConditions u) : f.subjects ≠ [] := by
  obtain ⟨c, b, d, -, -, -, -, hinside | hbehind⟩ := of_mem_innerConditions h
  · obtain ⟨_, _, _, -, -, ⟨rfl, -⟩ | ⟨rfl, -⟩⟩ := SourceUnit.of_mem_findingsInside hinside <;> simp
  · obtain ⟨_, _, _, _, -, -, -, -, -, -, -, rfl⟩ := SourceUnit.of_findingBehind? hbehind
    simp

/-- A finding about two comparisons is about the node that joins them. -/
theorem Place.subjects_of_comparedPair? {c : Connective} {a b : Comparison} {inconclusive : Bool}
    (h : p.comparedPair? o c a b inconclusive = some f) : f.subjects = [p] := by
  unfold comparedPair? at h
  dsimp only at h
  split at h
  · split at h
    · simp [← Option.some.inj h]
    · contradiction
  · split at h
    · rw [← Option.some.inj h, implicationFinding]
      grind [Finding.subjects]
    · contradiction

/-- A finding about the operands of a connective is about the node of the connective. -/
theorem Place.subjects_of_mem_logicalPairs (h : f ∈ p.logicalPairs o) : f.subjects = [p] := by
  unfold logicalPairs at h
  split at h
  · next c lhs rhs _ =>
    split at h
    · contradiction
    · rw [Option.mem_toList, Option.orElse_eq_orElse, Option.orElse_eq_or] at h
      rcases Option.or_eq_some_iff.mp h with habsorption | ⟨-, hpair⟩
      · unfold absorption? at habsorption
        grind [Finding.subjects]
      · unfold operandPair? at hpair
        grind [Finding.subjects, subjects_of_comparedPair?]
  · contradiction

/-- A finding about a constant condition is about that condition. -/
theorem Place.subjects_of_mem_constantConditions (h : f ∈ p.constantConditions u) : f.subjects = [p] := by
  obtain ⟨_, _, -, rfl⟩ := of_mem_constantConditions h
  simp

/-- A finding about a test for overflow is about a condition. -/
theorem Place.subjects_of_mem_overflowTests (h : f ∈ p.overflowTests) : f.subjects ≠ [] := by
  obtain ⟨_, _, _, _, _, _, _, -, -, rfl⟩ := of_mem_overflowTests h
  simp

/-- A finding about the range of a type is about a condition. -/
theorem Place.subjects_of_mem_rangeFindings {platform : Platform} (h : f ∈ p.rangeFindings platform u) :
    f.subjects ≠ [] := by
  have hside {order : Order} {value : Place} {other : Tree} {onLeft : Bool}
      (h : rangeFinding? platform order value other onLeft = some f) : f.subjects ≠ [] := by
    obtain ⟨number, -, h⟩ := Option.bind_eq_some_iff.mp h
    obtain ⟨ty, -, h⟩ := Option.bind_eq_some_iff.mp h
    obtain ⟨range, -, h⟩ := Option.bind_eq_some_iff.mp h
    obtain ⟨truth, -, rfl⟩ := Option.map_eq_some_iff.mp h
    simp
  unfold rangeFindings at h
  split at h
  · rcases List.mem_append.mp h with h | h
    · exact hside (Option.mem_toList.mp h)
    · exact hside (Option.mem_toList.mp h)
  · contradiction

end Subjects

namespace Check

/-- The checks that look at conditions. The others look at single operators. -/
def ofConditions : List Check :=
  [repeatedIf, elseIf, innerCondition, logicalPair, overflowTest, remainder, constantCondition, typeRange]

variable {c : Check} {o : Options} {u : SourceUnit} {l l' : Ledger} {p : Place} {f : Finding}

/-- Whatever a check of conditions finds is about a condition. -/
theorem subjects_ne_nil (hc : c ∈ ofConditions) (hf : f ∈ c.findingsAt o u l p) : f.subjects ≠ [] := by
  simp only [ofConditions, List.mem_cons, List.not_mem_nil, or_false] at hc
  rcases hc with rfl | rfl | rfl | rfl | rfl | rfl | rfl | rfl
  · simp only [findingsAt, Place.repeatedIfs] at hf
    grind [Finding.subjects]
  · exact Place.subjects_of_mem_elseIfs hf
  · exact Place.subjects_of_mem_innerConditions hf
  · simp [Place.subjects_of_mem_logicalPairs hf]
  · exact Place.subjects_of_mem_overflowTests hf
  · obtain ⟨_, divisor, _, _, -, rfl, -⟩ := Place.of_mem_unreachedRemainders hf
    simp [Finding.subjects]
  · simp [Place.subjects_of_mem_constantConditions hf]
  · exact Place.subjects_of_mem_rangeFindings hf

/-- A check finds nothing else when more is reported. -/
theorem findingsAt_subset (h : l.reported ⊆ l'.reported) :
    c.findingsAt o u l' p ⊆ c.findingsAt o u l p := by
  cases c with
  | elseIf =>
    intro f hf
    simp only [findingsAt, Place.elseIfs] at hf ⊢
    split
    · next first hfirst =>
      simp only [hfirst] at hf
      split at hf
      · contradiction
      · next hskip =>
        simp only [Bool.or_eq_true, not_or] at hskip
        rwa [if_neg]
        simp only [Bool.or_eq_true, not_or]
        exact ⟨hskip.1, fun hcovers => hskip.2 (Ledger.covers_mono h hcovers)⟩
    · next hnone => simp [hnone] at hf
  | _ => exact List.Subset.refl _

/-- A scan keeps what is reported. -/
theorem reported_scan (c : Check) (o : Options) (u : SourceUnit) (ps : List Place) (l : Ledger) :
    l.reported ⊆ (ps.foldl (fun l p => l.fileAll (c.findingsAt o u l p)) l).reported := by
  induction ps generalizing l with
  | nil => exact List.Subset.refl _
  | cons p ps ih => exact List.Subset.trans (l.reported_fileAll _) (ih _)

/-- A run keeps what is reported. -/
theorem reported_run (c : Check) (o : Options) (u : SourceUnit) (l : Ledger) :
    l.reported ⊆ (c.run o u l).reported := by
  unfold run
  split
  · exact c.reported_scan o u u.scanned l
  · exact List.Subset.refl _

/-- Whatever a check of conditions finds at a place after it has come by is settled. -/
theorem settles_of_scan (hc : c ∈ ofConditions) {ps : List Place}
    (h : (ps.foldl (fun l p => l.fileAll (c.findingsAt o u l p)) l).reported ⊆ l'.reported) (hp : p ∈ ps)
    (hf : f ∈ c.findingsAt o u l' p) : l'.Settles f := by
  induction ps generalizing l with
  | nil => exact absurd hp List.not_mem_nil
  | cons q ps ih =>
    rcases List.mem_cons.mp hp with rfl | hp
    · have hfiled := List.Subset.trans (c.reported_scan o u ps (l.fileAll (c.findingsAt o u l p))) h
      have hfound := findingsAt_subset (List.Subset.trans (l.reported_fileAll _) hfiled) hf
      exact (l.settles_fileAll (subjects_ne_nil hc hf) hfound).mono hfiled
    · exact ih h hp

/-- A scan that finds nothing but what is settled changes nothing. -/
theorem scan_of_settles {ps : List Place} (h : ∀ p ∈ ps, ∀ f ∈ c.findingsAt o u l p, l.Settles f) :
    ps.foldl (fun l p => l.fileAll (c.findingsAt o u l p)) l = l := by
  induction ps with
  | nil => rfl
  | cons p ps ih =>
    obtain ⟨hp, hps⟩ := List.forall_mem_cons.mp h
    rw [List.foldl_cons, Ledger.fileAll_of_settles hp]
    exact ih hps

/-- A check of conditions that has run changes nothing any more. -/
theorem run_of_reported (hc : c ∈ ofConditions) (h : (c.run o u l).reported ⊆ l'.reported) :
    c.run o u l' = l' := by
  unfold run at h ⊢
  split
  · next henabled =>
    rw [if_pos henabled] at h
    exact scan_of_settles fun p hp f hf => settles_of_scan hc h hp hf
  · rfl

end Check

namespace Session

open ConditionLint.Tree

/-- What may happen in a session. -/
inductive Step where
  | check (c : Check)
  | emit
  deriving DecidableEq, Repr

/-- The session after a step. -/
def perform (s : Session) : Step → Session
  | .check c => s.check [c]
  | .emit => s.emit.2

/-- The session after several steps. -/
def performAll (s : Session) (steps : List Step) : Session := steps.foldl perform s

/-- A step keeps the source, the options and what is reported. -/
theorem perform_spec (s : Session) (step : Step) :
    (s.perform step).source = s.source ∧ (s.perform step).options = s.options ∧
      s.ledger.reported ⊆ (s.perform step).ledger.reported := by
  cases step with
  | check c => exact ⟨rfl, rfl, c.reported_run s.options s.source s.ledger⟩
  | emit => exact ⟨rfl, rfl, List.Subset.refl _⟩

/-- All steps keep the source, the options and what is reported. -/
theorem performAll_spec (s : Session) (steps : List Step) :
    (s.performAll steps).source = s.source ∧ (s.performAll steps).options = s.options ∧
      s.ledger.reported ⊆ (s.performAll steps).ledger.reported := by
  induction steps generalizing s with
  | nil => exact ⟨rfl, rfl, List.Subset.refl _⟩
  | cons step steps ih =>
    obtain ⟨hsource, hoptions, hreported⟩ := s.perform_spec step
    obtain ⟨hsource', hoptions', hreported'⟩ := ih (s.perform step)
    exact ⟨hsource'.trans hsource, hoptions'.trans hoptions, List.Subset.trans hreported hreported'⟩

/-- Once a check of conditions has run, no later run of it changes the session, whatever happened in
between. -/
theorem rerun_changes_nothing (s : Session) {c : Check} (hc : c ∈ Check.ofConditions) (steps : List Step) :
    ((s.check [c]).performAll steps).check [c] = (s.check [c]).performAll steps := by
  obtain ⟨hsource, hoptions, hreported⟩ := (s.check [c]).performAll_spec steps
  have hrun := Check.run_of_reported (o := s.options) (u := s.source) hc hreported
  rw [← show _ = s.options from hoptions, ← show _ = s.source from hsource] at hrun
  exact congrArg (fun ledger => { (s.check [c]).performAll steps with ledger := ledger }) hrun

/-- `if (x == 1) {} else if (x == 1) {} else if (x != 1) {}` -/
def threeTests : Tree :=
  ofStatement 0 (.keyword (.ifStmt false))
    [compareX 1 .eq 1, ofStatement 4 .block [],
      ofStatement 5 (.keyword (.ifStmt false))
        [compareX 6 .eq 1, ofStatement 9 .block [], ofIf 10 (compareX 11 .ne 1) (ofStatement 14 .block [])]]

/-- The first run reports that the second test is covered by the first one, and that the third one is its
opposite. A run of another check and an emission later, another run leaves the session as it is. -/
theorem rerun_changes_nothing_threeTests :
    let s : Session := ⟨SourceUnit.ofTree threeTests, {}, {}⟩
    let later := (s.check [.elseIf]).performAll [.check .innerCondition, .emit]
    .elseIf ∈ Check.ofConditions ∧ (s.check [.elseIf]).ledger.findings.length = 2 ∧
      (s.check [.elseIf]).ledger.reported = [6, 1, 11] ∧ later.check [.elseIf] = later :=
  ⟨by decide, rfl, rfl, rerun_changes_nothing _ (by decide) _⟩

end Session

end ConditionLint
