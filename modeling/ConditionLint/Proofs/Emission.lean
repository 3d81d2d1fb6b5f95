import ConditionLint.Proofs.Value
import ConditionLint.Session
import Mathlib.Data.Prod.Lex
import Mathlib.Data.String.Basic
import Mathlib.Order.WithBot

/-!
# What is emitted, and in which order

Diagnostics are put in the order of their primary locations and then selected. The order is a stable one: those from
one location stay in the order in which they were found. So what is sent consists, location by location, of the
wanted diagnostics as they were found. This and the order determine what is sent.
-/

namespace ConditionLint

namespace Location

/-- Where a location stands in the order: the file decides, then the line, then the column. -/
def rank (l : Location) : String ×ₗ ℕ ×ₗ ℕ := toLex (l.file, toLex (l.line, l.column))

/-- The order of locations is the order of their ranks. -/
theorem le_iff_rank_le (a b : Location) : a.le b = true ↔ a.rank ≤ b.rank := by
  simp [le, rank, Prod.Lex.toLex_le_toLex]

/-- Different locations have different ranks. -/
theorem rank_injective : Function.Injective rank := by
  rintro ⟨file, line, column⟩ ⟨file', line', column'⟩ h
  simpa [rank] using h

end Location

namespace Diagnostic

/-- Where a diagnostic stands in the order: before all others if it has no primary location. -/
def rank (d : Diagnostic) : WithBot (String ×ₗ ℕ ×ₗ ℕ) := d.primary?.elim ⊥ fun l => ↑l.rank

variable (d e : Diagnostic)

/-- The order of diagnostics is the order of their ranks. -/
theorem le_iff_rank_le : d.le e = true ↔ d.rank ≤ e.rank := by
  unfold le rank
  cases d.primary? with
  | none => simp
  | some a =>
    cases e.primary? with
    | none => simp
    | some b => simp [a.le_iff_rank_le]

/-- Two diagnostics stand at the same place in the order exactly when they have the same primary location. -/
theorem rank_eq_rank_iff : d.rank = e.rank ↔ d.primary? = e.primary? := by
  unfold rank
  cases d.primary? with
  | none => cases e.primary? <;> simp
  | some a =>
    cases e.primary? with
    | none => simp
    | some b => simp [Location.rank_injective.eq_iff]

/-- The order of diagnostics is transitive. -/
theorem trans (f : Diagnostic) (hde : d.le e = true) (hef : e.le f = true) : d.le f = true := by
  rw [le_iff_rank_le] at *
  exact hde.trans hef

/-- Of two diagnostics one comes before the other, or both are from one location. -/
theorem total : (d.le e || e.le d) = true := by
  rw [Bool.or_eq_true, le_iff_rank_le, le_iff_rank_le]
  exact le_total d.rank e.rank

/-- Diagnostics from one location stay in their order when all are put in order. -/
theorem filter_mergeSort (ds : List Diagnostic) (location : Option Location) :
    ((ds.mergeSort le).filter fun d => d.primary? = location) = ds.filter fun d => d.primary? = location := by
  -- the diagnostics from one location are in order already, so that a stable sort keeps them as a sublist
  have hordered : (ds.filter fun d => d.primary? = location).Pairwise fun d e => d.le e = true := by
    refine List.pairwise_of_forall_mem_list fun d hd e he => ?_
    have hd : d.primary? = location := by simpa using (List.mem_filter.mp hd).2
    have he : e.primary? = location := by simpa using (List.mem_filter.mp he).2
    rw [le_iff_rank_le, (rank_eq_rank_iff d e).mpr (hd.trans he.symm)]
  have hsublist := (List.sublist_mergeSort trans total hordered List.filter_sublist).filter
    fun d => decide (d.primary? = location)
  simp only [List.filter_filter, Bool.and_self] at hsublist
  exact (hsublist.eq_of_length ((List.mergeSort_perm ds le).filter _).length_eq.symm).symm

/-- Diagnostics in order are determined by those from each location. -/
theorem eq_of_filter_eq {ds es : List Diagnostic} (hds : ds.Pairwise fun d e => d.rank ≤ e.rank)
    (hes : es.Pairwise fun d e => d.rank ≤ e.rank)
    (h : ∀ location, (ds.filter fun d => d.primary? = location) = es.filter fun d => d.primary? = location) :
    ds = es := by
  induction ds generalizing es with
  | nil =>
    refine (List.eq_nil_iff_forall_not_mem.mpr fun e he => ?_).symm
    exact List.filter_eq_nil_iff.mp (h e.primary?).symm e he (by simp)
  | cons d ds ih =>
    have hmem (x : Diagnostic) : x ∈ d :: ds ↔ x ∈ es := by
      simpa using iff_of_eq (congrArg (x ∈ ·) (h x.primary?))
    obtain ⟨e, es, rfl⟩ := List.exists_cons_of_ne_nil (List.ne_nil_of_mem ((hmem d).mp List.mem_cons_self))
    -- the first of each list is below all of the other, so that both are from one location and open its diagnostics
    have hde : d.rank ≤ e.rank := by
      rcases List.mem_cons.mp ((hmem e).mpr List.mem_cons_self) with rfl | he
      · exact le_rfl
      · exact List.rel_of_pairwise_cons hds he
    have hed : e.rank ≤ d.rank := by
      rcases List.mem_cons.mp ((hmem d).mp List.mem_cons_self) with rfl | hd
      · exact le_rfl
      · exact List.rel_of_pairwise_cons hes hd
    have hlocation : e.primary? = d.primary? := (rank_eq_rank_iff e d).mp (le_antisymm hed hde)
    have hfirst : d = e := by
      have := h d.primary?
      simp only [List.filter_cons, hlocation, decide_true, if_true] at this
      exact (List.cons_eq_cons.mp this).1
    subst hfirst
    refine congrArg (d :: ·) (ih hds.tail hes.tail fun location => ?_)
    have := h location
    by_cases hd : d.primary? = location <;> simpa [List.filter_cons, hd] using this

end Diagnostic

namespace Options

/-- Whether the options ask for a diagnostic: its severity is enabled, its cause is not suppressed, and it is
conclusive unless inconclusive ones are asked for as well. -/
structure Wants (o : Options) (d : Diagnostic) : Prop where
  severity : o.isEnabled d.severity = true
  cause : ∀ causes ∈ o.suppressed, d.cause ∉ causes
  conclusive : d.inconclusive = true → o.inconclusive = true

variable (o : Options) (ds : List Diagnostic)

/-- Shown is what is wanted. -/
theorem admits_iff (d : Diagnostic) : o.admits d = true ↔ o.Wants d := by
  have hcause : o.isSuppressed d.cause = false ↔ ∀ causes ∈ o.suppressed, d.cause ∉ causes := by
    unfold isSuppressed
    cases o.suppressed <;> simp
  constructor
  · intro h
    simp only [admits, Bool.and_eq_true, Bool.or_eq_true, Bool.not_eq_true'] at h
    exact ⟨h.1.1, hcause.mp h.2, fun hd => h.1.2.resolve_right (by simp [hd])⟩
  · intro h
    have := h.conclusive
    simp only [admits, h.severity, hcause.mpr h.cause, Bool.and_eq_true, Bool.or_eq_true, Bool.not_eq_true']
    grind

instance (d : Diagnostic) : Decidable (o.Wants d) := decidable_of_iff _ (o.admits_iff d)

/-- What is sent of the diagnostics that were found: the wanted ones, each as often as it was found, in the order of
their primary locations, and those from one location in the order in which they were found. -/
structure Sends (o : Options) (found sent : List Diagnostic) : Prop where
  wanted : ∀ d, sent.count d = if o.Wants d then found.count d else 0
  ordered : sent.Pairwise fun d e => d.rank ≤ e.rank
  stable : ∀ location, (sent.filter fun d => d.primary? = location) =
    found.filter fun d => d.primary? = location ∧ o.Wants d

/-- There is one way to send what was found. -/
theorem Sends.unique {o : Options} {found sent sent' : List Diagnostic} (h : o.Sends found sent)
    (h' : o.Sends found sent') : sent = sent' :=
  Diagnostic.eq_of_filter_eq h.ordered h'.ordered fun location => (h.stable location).trans (h'.stable location).symm

/-- What is selected is in order. -/
theorem pairwise_select : (o.select ds).Pairwise fun d e => d.rank ≤ e.rank := by
  have hsorted := List.pairwise_mergeSort Diagnostic.trans Diagnostic.total ds
  exact (hsorted.filter _).imp fun {d e} hde => (d.le_iff_rank_le e).mp hde

/-- What is selected from one location are the wanted diagnostics from there, in their order. -/
theorem filter_select (location : Option Location) :
    ((o.select ds).filter fun d => d.primary? = location) =
      ds.filter fun d => d.primary? = location ∧ o.Wants d := by
  calc (o.select ds).filter _
    _ = ((ds.mergeSort Diagnostic.le).filter fun d => d.primary? = location).filter o.admits := by
      rw [select, List.filter_filter, List.filter_filter]
      exact List.filter_congr fun d _ => Bool.and_comm _ _
    _ = (ds.filter fun d => d.primary? = location).filter o.admits := by rw [Diagnostic.filter_mergeSort]
    _ = _ := by
      rw [List.filter_filter]
      exact List.filter_congr fun d _ => by simp [← admits_iff, Bool.and_comm]

/-- Selecting shows the wanted diagnostics, whatever their order. -/
theorem select_perm : (o.select ds).Perm (ds.filter (o.Wants ·)) := by
  have hwants : ds.filter (o.Wants ·) = ds.filter o.admits :=
    List.filter_congr fun d _ => by simp [← admits_iff]
  rw [hwants]
  exact (List.mergeSort_perm ds Diagnostic.le).filter o.admits

/-- Among the wanted diagnostics, each occurs as often as it was found if it is wanted, and not at all otherwise. -/
theorem count_of_perm {found sent : List Diagnostic} (h : sent.Perm (found.filter (o.Wants ·))) (d : Diagnostic) :
    sent.count d = if o.Wants d then found.count d else 0 := by
  rw [h.count_eq]
  split
  · next hwants => exact List.count_filter (by simpa using hwants)
  · next hunwanted =>
    refine List.count_eq_zero.mpr fun hmem => hunwanted ?_
    simpa using (List.mem_filter.mp hmem).2

/-- What is selected is what is to be sent. -/
theorem sends_select : o.Sends ds (o.select ds) :=
  ⟨o.count_of_perm (o.select_perm ds), o.pairwise_select ds, o.filter_select ds⟩

/-- As many diagnostics are selected as are wanted. -/
theorem length_select : (o.select ds).length = ds.countP (o.Wants ·) := by
  rw [(o.select_perm ds).length_eq, List.countP_eq_length_filter]

end Options

/-- Of any diagnostics, those are selected that are to be sent. A session sends what is to be sent of the diagnostics
of its findings, and counts what it sends, which are as many as are wanted; no finding is left, and the reported
conditions are the same afterwards. -/
theorem emission_sorts_wanted :
    (∀ (o : Options) (ds : List Diagnostic), o.Sends ds (o.select ds)) ∧
      ∀ s : Session,
        let found := s.ledger.findings.map fun f => f.diagnostic s.source
        s.options.Sends found s.emit.1.sent ∧ s.emit.1.count = s.emit.1.sent.length ∧
          s.emit.1.count = found.countP (s.options.Wants ·) ∧
          s.emit.2.ledger.findings = [] ∧ s.emit.2.ledger.reported = s.ledger.reported :=
  ⟨Options.sends_select, fun s =>
    ⟨s.options.sends_select _, rfl, s.options.length_select _, rfl, rfl⟩⟩

namespace Session

open ConditionLint.Tree

/-- An operator in the given column, between `x` and zero. -/
def withZero (column : Nat) (op : BinaryOp) : Place :=
  ⟨plain column (.binary op) .int none
    [ofVariable (column + 1) ⟨0, "x", .int, { isLocal := true }⟩, ofInt (column + 2) 0], []⟩

/-- Two findings about `x | 0` in column 5 come after those about the columns 9 and 7, the latter of which is
inconclusive. -/
def fourFindings : Session where
  source := ⟨[], [], [], []⟩
  options := {}
  ledger := {
    reported := [7, 5]
    findings := [.idleMask (withZero 9 (.arith .bitOr)), .constantLogic (withZero 7 (.logic .and)) none false true,
      .idleMask (withZero 5 (.arith .bitOr)), .constantCondition (withZero 5 (.arith .bitOr)) .branch false []] }

end Session

/-- Column 5 comes first, with its findings in their order, and the inconclusive finding is left out. -/
theorem emission_sorts_wanted_fourFindings :
    let s := Session.fourFindings
    let mask := Session.withZero 5 (.arith .bitOr)
    let idle := (Finding.idleMask mask).diagnostic s.source
    let known := (Finding.constantCondition mask .branch false []).diagnostic s.source
    let last := (Finding.idleMask (Session.withZero 9 (.arith .bitOr))).diagnostic s.source
    s.emit.1.sent = [idle, known, last] ∧ s.emit.1.count = 3 ∧ s.emit.2.ledger.findings = [] := by
  intro s mask idle known last
  obtain ⟨hsends, -, hcount, hnone, -⟩ := emission_sorts_wanted.2 s
  let logic := (Finding.constantLogic (Session.withZero 7 (.logic .and)) none false true).diagnostic s.source
  have hfound : (s.ledger.findings.map fun f => f.diagnostic s.source) = [last, logic, idle, known] := rfl
  rw [hfound] at hsends
  refine ⟨hsends.unique ⟨?_, ?_, ?_⟩, hcount, hnone⟩
  · exact s.options.count_of_perm ((List.Perm.swap _ _ _).trans ((List.Perm.swap _ _ _).cons _)).symm
  · simp only [← Diagnostic.le_iff_rank_le]
    decide
  · intro location
    have hidle : s.options.Wants idle := by decide
    have hknown : s.options.Wants known := by decide
    have hlast : s.options.Wants last := by decide
    have hlogic : ¬ s.options.Wants logic := by decide
    by_cases hnine : last.primary? = location
    · -- column 9 has one finding, so that it does not matter where it stands
      have hidle' : idle.primary? ≠ location := hnine ▸ by decide
      have hknown' : known.primary? ≠ location := hnine ▸ by decide
      simp [hnine, hidle', hknown', hlast, hlogic]
    · simp [List.filter_cons, hnine, hidle, hknown, hlogic]

end ConditionLint
