import ConditionLint.Finding.Wording
import ConditionLint.Proofs.Forecast

/-!
# Reports on inner conditions are right in every run

A check compares a condition with the conditions under it and behind it, as far as a scan of the source
order finds nothing that may change it. Over programs with integer variables such a report is right for
every run: an inner condition that is reported as identical is true whenever it is evaluated, one that is
reported as opposite is false whenever it is evaluated, and so is an operand that repeats the condition of
an early exit.
-/

namespace ConditionLint

open ConditionLint.Tree

/-- A node that stores into a variable changes it. -/
theorem Place.changesVariable_of_storedVar? {p : Place} {v : Variable}
    (h : p.tree.storedVar? = some v.id) : p.changesVariable v = true := by
  unfold storedVar? at h
  split at h
  · next hstores =>
    obtain ⟨target, htarget, hdesignated⟩ := Option.bind_eq_some_iff.mp h
    have hdesignates : p.tree.operands.head?.any (fun t => t.designates v) = true := by
      simp [htarget, designates, hdesignated]
    unfold changesVariable
    rcases Bool.or_eq_true_iff.mp hstores with hassignment | hincrement
    · obtain ⟨op, hop, hassigns⟩ := (Option.any_eq_true _ _).mp hassignment
      have hkind : p.kind = .binary op := kind_of_binaryOp? hop
      cases op <;> simp_all [BinaryOp.isAssignment]
    · obtain ⟨op, hop, hincrements⟩ := (Option.any_eq_true _ _).mp hincrement
      have hkind : p.kind = .unary op := kind_of_unaryOp? hop
      cases op <;> simp_all [UnaryOp.isIncrement]
  · contradiction

namespace SourceUnit

variable {u : SourceUnit} {e r t : Tree}

/-- A place that does not change an expression stores into no variable that the expression reads. -/
theorem not_reads_of_changes (h : (u.placeOf r).changes e = false) {x : VarId}
    (hx : r.storedVar? = some x) : ¬e.Reads x := by
  intro hreads
  obtain ⟨v, hv, rfl⟩ := exists_mem_vars hreads
  have hchanges := Place.changesVariable_of_storedVar? (p := u.placeOf r) hx
  rw [Place.changes, Bool.or_eq_false_iff, List.any_eq_false] at h
  exact h.1 v hv hchanges

/-- A tree in which nothing changes an expression stores into no variable that the expression reads. -/
theorem spares_of_changesWithin (h : u.changesWithin e t = false) : t.Spares e.Reads := by
  intro s hs x hx
  have hchanges := List.any_eq_false.mp h (u.placeOf s) (List.mem_map_of_mem hs)
  exact not_reads_of_changes (by simpa using hchanges) hx

/-- A tree in which no variable of an expression changes stores into none of them. -/
theorem spares_of_changesVariableWithin (h : ∀ v ∈ e.vars, u.changesVariableWithin v t = false) :
    t.Spares e.Reads := by
  intro s hs x hx hreads
  obtain ⟨v, hv, rfl⟩ := exists_mem_vars hreads
  have hchanges := List.any_eq_false.mp (h v hv) (u.placeOf s) (List.mem_map_of_mem hs)
  exact hchanges (Place.changesVariable_of_storedVar? hx)

/-- While what is known about a condition lasts, the statement `s` is met as the given one of the places, and it
tests the condition `c`. -/
structure Meets (u : SourceUnit) (e : Tree) (d : Dependence) (scope : Nat) (ps : List Place) (m : Nat)
    (s c : Tree) : Prop where
  here : ps[m]?.map Place.tree = some s
  tests : s.tested? = some c
  /-- The tested condition does not change what is known. -/
  harmless : u.changesWithin e c = false
  /-- Neither does anything up to the statement. -/
  unchanged : ∀ k ≤ m, ∀ q : Place, ps[k]? = some q → q.changes e = false
  /-- Nothing in front of the statement takes the control flow elsewhere. -/
  lasting : ∀ k < m, ∀ q : Place, ps[k]? = some q → d.endsAt u scope q.tree = false

/-- What is met behind a node that ends nothing is met from that node on. -/
theorem Meets.cons {d : Dependence} {scope m : Nat} {ps : List Place} {s c : Tree}
    (h : u.Meets e d scope ps m s c) {p : Place} (hchanges : p.changes e = false)
    (hends : d.endsAt u scope p.tree = false) : u.Meets e d scope (p :: ps) (m + 1) s c where
  here := h.here
  tests := h.tests
  harmless := h.harmless
  unchanged k hk q hq := by
    cases k with
    | zero => exact Option.some.inj hq ▸ hchanges
    | succ k => exact h.unchanged k (by omega) q hq
  lasting k hk q hq := by
    cases k with
    | zero => exact Option.some.inj hq ▸ hends
    | succ k => exact h.lasting k (by omega) q hq

/-- The statements that test a condition while what is known lasts are met. -/
theorem exists_meets_of_mem_testedWhile {d : Dependence} {scope : Nat} {ps : List Place} {s c : Tree}
    (h : (s, c) ∈ u.testedWhile e d scope ps) : ∃ m, u.Meets e d scope ps m s c := by
  induction ps with
  | nil => simp [testedWhile] at h
  | cons p ps ih =>
    rw [testedWhile] at h
    split at h
    · contradiction
    · next hchanges =>
      have hhere : p.changes e = false := by simpa using hchanges
      have hrest (h : (s, c) ∈ if d.endsAt u scope p.tree then [] else u.testedWhile e d scope ps) :
          ∃ m, u.Meets e d scope (p :: ps) m s c := by
        split at h
        · contradiction
        · next hends =>
          obtain ⟨m, hm⟩ := ih h
          exact ⟨m + 1, hm.cons hhere (by simpa using hends)⟩
      dsimp only at h
      split at h
      · next c' htested =>
        split at h
        · contradiction
        · next hwithin =>
          rcases List.mem_cons.mp h with heq | h
          · obtain ⟨rfl, rfl⟩ := Prod.mk.inj heq
            refine ⟨0, rfl, htested, by simpa using hwithin, fun k hk q hq => ?_, nofun⟩
            obtain rfl : k = 0 := by omega
            exact Option.some.inj hq ▸ hhere
          · exact hrest h
      · exact hrest h

/-- A statement that is found while what is known lasts is reached through nodes that change nothing of it,
and it tests a condition that changes nothing of it. -/
theorem of_mem_testedWhile {d : Dependence} (hd : d.vars = e.vars) {scope : Nat} {rs : List Tree}
    {s c : Tree} (h : (s, c) ∈ u.testedWhile e d scope (rs.map u.placeOf)) :
    Reached (Passable e.Reads) s rs ∧ s.tested? = some c ∧ c.Spares e.Reads := by
  obtain ⟨m, hm⟩ := exists_meets_of_mem_testedWhile h
  have hplace {k : Nat} {r : Tree} (hr : rs[k]? = some r) : (rs.map u.placeOf)[k]? = some (u.placeOf r) := by
    rw [List.getElem?_map, hr, Option.map_some]
  have hs : rs[m]? = some s := by simpa [Function.comp_def, placeOf] using hm.here
  refine ⟨.of_getElem? hs fun k hk r hr => ⟨fun x hx => ?_, fun hloop => ?_⟩, hm.tests,
    spares_of_changesWithin hm.harmless⟩
  · exact not_reads_of_changes (hm.unchanged k hk.le _ (hplace hr)) hx
  · have hends : d.endsAt u scope r = false := hm.lasting k hk _ (hplace hr)
    refine spares_of_changesVariableWithin (u := u) fun v hv => ?_
    simp only [Dependence.endsAt, hloop, hd, Bool.true_and, Bool.or_eq_false_iff, List.any_eq_false] at hends
    simpa using hends.2 v hv

end SourceUnit

namespace Tree

/-- The operands that are reached through `&&` only are those of a chain. -/
theorem leaves_and (t : Tree) : t.leaves (fun c => c = .and) = t.chain (.logic .and) := by
  fun_induction chain (.logic .and) t with
  | case1 l lhs rhs hkind ihl ihr => simp [leaves, hkind, ihl, ihr]
  | case2 l lhs rhs hkind =>
    rw [leaves.eq_def]
    simp only
    split
    · next c hc => rw [if_neg (by simpa [hc] using hkind)]
    · rfl
  | case3 t hshape => rw [leaves.eq_def]; split <;> simp_all

/-- Operands that are reached through connectives are subtrees. -/
theorem mem_subtrees_of_mem_leaves {passes : Connective → Bool} {a t : Tree} (hwhole : t.IsWhole)
    (h : a ∈ t.leaves passes) : a ∈ t.subtrees := by
  have hself {t : Tree} (h : a ∈ [t]) : a ∈ t.subtrees := List.mem_singleton.mp h ▸ mem_subtrees_self t
  fun_induction leaves passes t with
  | case1 l lhs rhs c hkind hpasses ihl ihr =>
    have hlhs : lhs ∈ (node l [lhs, rhs]).subtrees := hwhole.mem_of_operand (by simp [operands])
    have hrhs : rhs ∈ (node l [lhs, rhs]).subtrees := hwhole.mem_of_operand (by simp [operands])
    rcases List.mem_append.mp h with h | h
    · exact mem_subtrees_trans (ihl (hwhole.of_mem hlhs) h) hlhs
    · exact mem_subtrees_trans (ihr (hwhole.of_mem hrhs) h) hrhs
  | case2 => exact hself h
  | case3 => exact hself h
  | case4 => exact hself h

end Tree

namespace Valuation

variable {V : Valuation ℤ} {p : Tree → Bool} {a b : Tree} {m : Machine}

/-- An expression that is the same as a pure one evaluates to the truth of that one. -/
theorem evaluate_of_same (hp : ∀ s, p s = true → s.isDoubleNegation = false) (ha : a.Pure p)
    (hb : b.Expression p) (h : Tree.same a b = true) :
    ((V.evaluate b m).1 != 0) = (V.under m.vars).isTrue a := by
  obtain ⟨-, hbpure⟩ := Expression.isPure_of_same hp ha.expression hb h
  rw [(V.evaluate_pure hbpure m).1, isTrue, (V.under m.vars).eval_eq_of_same hp ha hbpure h]

/-- A conjunction that evaluates to true has evaluated both operands to true, one after the other. -/
theorem evaluate_and_ne_zero (V : Valuation ℤ) {l : Label} {lhs rhs : Tree} (hkind : l.kind = .binary (.logic .and))
    (htrue : (V.evaluate (node l [lhs, rhs]) m).1 ≠ 0) :
    (V.evaluate lhs m).1 ≠ 0 ∧ (V.evaluate rhs (V.evaluate lhs m).2).1 ≠ 0 ∧
      (V.evaluate (node l [lhs, rhs]) m).2.vars = (V.evaluate rhs (V.evaluate lhs m).2).2.vars := by
  have hlhs : (V.evaluate lhs m).1 ≠ 0 := by
    intro hzero
    simp [evaluate, recorded, hkind, hzero] at htrue
  refine ⟨hlhs, fun hzero => ?_, ?_⟩
  · simp [evaluate, recorded, hkind, hlhs, hzero, ofTruth] at htrue
  · simp [evaluate, recorded, hkind, hlhs]

/-- When a conjunction evaluates to true, each of its operands did so on the way. -/
theorem evaluate_of_mem_chain {P : Machine → Prop} (hstable : V.Stable P b) (hm : P m)
    (htrue : (V.evaluate b m).1 ≠ 0) :
    ∀ y ∈ b.chain (.logic .and), ∃ m', P m' ∧ (V.evaluate y m').1 ≠ 0 := by
  fun_induction chain (.logic .and) b generalizing m with
  | case1 l lhs rhs hkind ihl ihr =>
    obtain ⟨hl, hr, -⟩ := V.evaluate_and_ne_zero hkind htrue
    have hstablel : V.Stable P lhs := hstable.operand (by simp)
    intro y hy
    rcases List.mem_append.mp hy with hy | hy
    · exact ihl hstablel hm hl y hy
    · exact ihr (hstable.operand (by simp)) (hstablel.evaluate hm) hr y hy
  | case2 l lhs rhs hkind => exact fun y hy => ⟨m, hm, List.mem_singleton.mp hy ▸ htrue⟩
  | case3 t hshape => exact fun y hy => ⟨m, hm, List.mem_singleton.mp hy ▸ htrue⟩

/-- A condition that clashes with a pure one that holds evaluates to false. -/
theorem evaluate_of_clash (ha : a.Pure isPlainInteger) (hholds : (V.under m.vars).isTrue a = true)
    (hb : b.Expression isPlainInteger) (h : clash a b = true ∨ clash b a = true) : (V.evaluate b m).1 = 0 := by
  have hbpure : b.Pure isPlainInteger := by
    rcases h with h | h
    · exact (Expression.isPure_of_clash single_of_isPlainInteger ha.expression hb h).2
    · exact (Expression.isPure_of_clash single_of_isPlainInteger hb ha.expression h).1
  rw [(V.evaluate_pure hbpure m).1]
  by_contra htrue
  exact (V.under m.vars).not_both_of_clash ha hbpure h ⟨hholds, by simpa [isTrue] using htrue⟩

/-- A condition that excludes a pure one evaluates to false as long as that one holds. -/
theorem evaluate_of_exclusive {P : Machine → Prop} (hstable : V.Stable P b)
    (hholds : ∀ m, P m → (V.under m.vars).isTrue a = true) (ha : a.Pure isPlainInteger)
    (hb : b.Expression isPlainInteger) (h : exclusive a b = true) (hm : P m) :
    (V.evaluate b m).1 = 0 := by
  by_contra htrue
  obtain ⟨x, hx, y, hy, hclash⟩ := exclusive_cases h
  -- A conjunct of the excluded condition is evaluated to true in a state in which the other one holds.
  obtain ⟨m', hm', hytrue⟩ : ∃ m', P m' ∧ (V.evaluate y m').1 ≠ 0 := by
    rcases List.mem_cons.mp hy with rfl | hy
    · exact ⟨m, hm, htrue⟩
    · exact evaluate_of_mem_chain hstable hm htrue y (mem_chain_of_mem_conjuncts hy)
  have hxholds : x.Pure isPlainInteger ∧ (V.under m'.vars).isTrue x = true := by
    rcases List.mem_cons.mp hx with rfl | hx
    · exact ⟨ha, hholds m' hm'⟩
    · exact (V.under m'.vars).conjuncts_hold ha (hholds m' hm') x hx
  have hyexpression : y.Expression isPlainInteger := by
    rcases List.mem_cons.mp hy with rfl | hy
    · exact hb
    · have hleaf := mem_chain_of_mem_conjuncts hy
      rw [← leaves_and] at hleaf
      exact hb.of_mem (mem_subtrees_of_mem_leaves hstable.whole hleaf)
  exact hytrue (evaluate_of_clash hxholds.1 hxholds.2 hyexpression hclash)

end Valuation

/-- In every run of the body, from any values of the variables, each evaluation of the node with the given
number has the given truth value. -/
def Tree.AlwaysEvaluates (body : Tree) (i : NodeId) (truth : Bool) : Prop :=
  ∀ (V : Valuation ℤ) (n : Nat) (σ : VarId → ℤ), (V.exec n body ⟨σ, []⟩).2.Logs i truth

namespace SourceUnit

variable {u : SourceUnit} {c b : Tree} {d : Dependence} {f : Finding}

/-- What a condition depends on are its variables. -/
theorem vars_of_dependence? (h : c.dependence? = some d) : d.vars = c.vars := by
  unfold dependence? at h
  split at h
  · contradiction
  · exact (Option.some.inj h) ▸ rfl

/-- A finding in a body compares a conjunct of the condition with a condition that is tested in the body
while what is known lasts. -/
theorem of_mem_findingsInside (h : f ∈ u.findingsInside c b d) :
    ∃ s inner conjunct, (s, inner) ∈ u.testedWhile c d (u.scopeOf b) (u.interior b) ∧
      conjunct ∈ c.chain (.logic .and) ∧
      ((f = .oppositeInner (u.placeOf conjunct) (u.placeOf inner) ∧ exclusive conjunct inner = true) ∨
        (f = .identicalInner (u.placeOf conjunct) (u.placeOf inner) ∧ Tree.same conjunct inner = true)) := by
  obtain ⟨⟨s, inner⟩, htested, hf⟩ := List.mem_flatMap.mp h
  obtain ⟨conjunct, hconjunct, hfinding⟩ := List.mem_filterMap.mp hf
  rw [leaves_and] at hconjunct
  refine ⟨s, inner, conjunct, (List.mem_filter.mp htested).1, hconjunct, ?_⟩
  unfold innerFinding? at hfinding
  split at hfinding
  · contradiction
  split at hfinding
  · next hexclusive =>
    split at hfinding
    · contradiction
    · exact Or.inl ⟨(Option.some.inj hfinding).symm, hexclusive⟩
  split at hfinding
  · next hsame => exact Or.inr ⟨(Option.some.inj hfinding).symm, hsame⟩
  · contradiction

/-- A finding behind an early exit is about an operand of a condition that is tested behind it while what is
known lasts, and the operand is the same as the condition of the exit. -/
theorem of_findingBehind? {q : Place} (h : q.findingBehind? u c b d = some f) :
    ∃ block s second leaf, q.tree.isIf = true ∧ b.leavesAtOnce = true ∧ q.parent? = some block ∧
      block.isBlock = true ∧ (s, second) ∈ u.testedWhile c d (u.scopeOf q.tree) (u.restOf b block) ∧
      leaf ∈ second.leaves (fun _ => true) ∧ Tree.same c leaf = true ∧
      f = .repeatedAfterExit (u.placeOf c) (u.placeOf leaf) := by
  obtain ⟨block, hguarded, hf⟩ := Option.bind_eq_some_iff.mp h
  unfold Place.guardedBlock? at hguarded
  split at hguarded
  · next hexit =>
    obtain ⟨hif, hleaves⟩ := Bool.and_eq_true_iff.mp hexit
    obtain ⟨hparent, hblock⟩ := Option.filter_eq_some_iff.mp hguarded
    obtain ⟨⟨s, second⟩, htested, hrepetition⟩ := List.exists_of_findSome?_eq_some hf
    obtain ⟨leaf, hleaf, rfl⟩ := Option.map_eq_some_iff.mp hrepetition
    have hrepeated := List.find?_some hleaf
    simp only [isRepeatedBy, Bool.and_eq_true] at hrepeated
    exact ⟨block, s, second, leaf, hif, hleaves, hparent, hblock, htested, List.mem_of_find?_eq_some hleaf,
      hrepeated.1.1.2, rfl⟩
  · contradiction

/-- The places that a check looks at are those of listed nodes. -/
theorem exists_of_mem_scanned {q : Place} (h : q ∈ u.scanned) : ∃ t ∈ u.listing, q = u.placeOf t := by
  obtain ⟨root, hroot, hq⟩ := List.mem_flatMap.mp h
  obtain ⟨r, hr, rfl⟩ := List.mem_map.mp (List.mem_filter.mp hroot).1
  obtain ⟨t, ht, rfl⟩ := List.mem_map.mp hq
  exact ⟨t, (isInfix_listing hr).subset ht, rfl⟩

end SourceUnit

/-- A listed tree that has a node in common with a function body lies in that body. -/
theorem SourceUnit.IsUnshared.mem_of_common {u : SourceUnit} (h : u.IsUnshared) {body w r : Tree}
    (hbody : body ∈ u.starts) (hw : w ∈ u.listing) (hr : r ∈ w.subtrees) (hid : r.id ∈ body.ids) :
    w ∈ body.subtrees := by
  have hdistinct : (u.starts.flatMap ids).Nodup := by
    have hlisting := h.distinct
    rwa [SourceUnit.listing, List.map_flatMap] at hlisting
  have hreached := (reached_true_iff.mpr hw).operand hdistinct hr hbody
  exact (hreached.resolve_right (not_not.mpr hid)).mem

namespace Forecast

variable {V : Valuation ℤ} {f : Forecast V} {p : Tree → Bool} {n : Nat} {s c b : Tree} {m : Machine}

/-- A body keeps the forecast when the knowledge holds before it and the test is reached inside of it. -/
theorem kept_exec_interior (htest : f.TestedBy s c) (hb : b.Statement p) (hunshared : b.IsUnshared)
    (hreached : Reached (Passable f.reads) s (b.subtrees.drop (if b.isBlock then 1 else 0)))
    (hm : f.Valid m) : f.Kept (V.exec n b m).2 := by
  split at hreached
  · next hblock =>
    obtain ⟨l, ts⟩ := b
    have hkind : l.kind = .block := of_decide_eq_true hblock
    rw [hunshared.whole.subtrees_node, List.drop_one, List.tail_cons] at hreached
    rw [V.exec_block n m hkind]
    exact kept_execAll htest (fun a ha => ⟨hb.operand ha, hunshared.operand ha⟩)
      hunshared.operands_nodup hreached hm
  · exact kept_exec htest hb hunshared hreached hm

end Forecast

section Runs

variable {p : Tree → Bool} {body t : Tree} {i : NodeId} {truth : Bool}

/-- Nothing is said about a node that a body does not have. -/
theorem alwaysEvaluates_of_not_mem (hbody : body.Statement p) (hwhole : body.IsWhole) (hid : i ∉ body.ids) :
    body.AlwaysEvaluates i truth := by
  intro V n σ
  exact (Valuation.Stable.logs hwhole hid truth).exec hbody fun e he => absurd he List.not_mem_nil

/-- A condition always has a truth value in a body when some statement of the body keeps the forecast of it. -/
theorem alwaysEvaluates_of_part (hbody : body.Statement p) (hunshared : body.IsUnshared)
    (ht : t ∈ body.subtrees) (hkind : ¬t.Expression p) {subject : Tree} (hsubject : subject ∈ t.subtrees)
    (hpart : ∀ V : Valuation ℤ, ∃ f : Forecast V, f.subject = subject ∧ f.truth = truth ∧
      ∀ n m, f.Kept m → f.Kept (V.exec n t m).2) : body.AlwaysEvaluates subject.id truth := by
  intro V n σ
  obtain ⟨f, rfl, rfl, hkept⟩ := hpart V
  exact Forecast.kept_exec_of_part hbody hunshared ht hkind hsubject (hkept n)
    fun e he => absurd he List.not_mem_nil

end Runs

/-- The nodes inside of a body are those of its listing, without the block itself. -/
theorem SourceUnit.interior_eq (u : SourceUnit) (b : Tree) :
    u.interior b = (b.subtrees.drop (if b.isBlock then 1 else 0)).map u.placeOf := by
  unfold interior span
  split <;> simp

/-- What follows the body of an `if` in a block is the else branch and the statements behind the `if`. -/
theorem SourceUnit.IsUnshared.restOf_if {u : SourceUnit} (h : u.IsUnshared) {l : Label}
    {before behind : List Tree} {t c a : Tree} (hblock : node l (before ++ t :: behind) ∈ u.listing)
    (hif : t.isIf = true) (hc : t.condition? = some c) (ha : t.body? = some a) :
    u.restOf a (node l (before ++ t :: behind)) =
      ((t.operands.drop 2 ++ behind).flatMap subtrees).map u.placeOf := by
  have hwhole := h.isWhole hblock
  have ht : t.IsWhole := hwhole.operand (by simp)
  obtain ⟨l', es, rfl⟩ := exists_of_if hif hc ha
  have hsplit : (node l (before ++ node l' (c :: a :: es) :: behind)).subtrees =
      node l (before ++ node l' (c :: a :: es) :: behind) ::
          (before.flatMap subtrees ++ node l' (c :: a :: es) :: c.subtrees) ++
        a.subtrees ++ (es ++ behind).flatMap subtrees := by
    rw [hwhole.subtrees_node, List.flatMap_append, List.flatMap_cons, ht.subtrees_node]
    simp
  exact h.restOf_eq hblock hsplit

section Reports

variable {u : SourceUnit} (hu : u.IsUnshared) {p : Tree → Bool} {body : Tree} (hstart : body ∈ u.starts)
  (hbody : body.Statement p) {t c b : Tree} {d : Dependence} (hc : t.condition? = some c)
  (hb : t.body? = some b) (hd : c.dependence? = some d)
  (hpure : t ∈ body.subtrees → c.modifiesState = false) {s : Tree} {truth : Bool}
include hu hstart hbody hc hb hd hpure

/-- A condition that is tested in the body of a statement has, in every run, the truth value that follows
from the condition of the statement. -/
theorem alwaysEvaluates_inside {inner : Tree} (ht : t ∈ u.listing) (hguards : (u.placeOf t).guardsBody = true)
    (htested : (s, inner) ∈ u.testedWhile c d (u.scopeOf b) (u.interior b))
    (hright : c.Pure p → c.IsWhole → inner.Expression p → inner.IsWhole → inner.Spares c.Reads →
      ∀ (V : Valuation ℤ) (m : Machine), (V.under m.vars).isTrue c = true →
        ((V.evaluate inner m).1 != 0) = truth) :
    body.AlwaysEvaluates inner.id truth := by
  have hunshared := hu.isUnshared ht
  have hwhole := hunshared.whole
  have hcmem := hwhole.mem_of_operand (mem_operands_of_condition? hc)
  have hbmem := hwhole.mem_of_operand (mem_operands_of_body? hb)
  rw [u.interior_eq] at htested
  obtain ⟨hreached, hinner, hspares⟩ :=
    SourceUnit.of_mem_testedWhile (SourceUnit.vars_of_dependence? hd) htested
  have hs : s ∈ b.subtrees := List.mem_of_mem_drop hreached.mem
  have hinnermem : inner ∈ s.subtrees :=
    ((hwhole.of_mem hbmem).of_mem hs).mem_of_operand (mem_operands_of_tested? hinner)
  have hsubject : inner ∈ b.subtrees := mem_subtrees_trans hinnermem hs
  have hsubjectt : inner ∈ t.subtrees := mem_subtrees_trans hsubject hbmem
  by_cases hid : inner.id ∈ body.ids
  · have htbody := hu.mem_of_common hstart ht hsubjectt hid
    have hstatement := hbody.of_mem htbody
    have hbstatement := hstatement.operand (mem_operands_of_body? hb)
    have hcpure := (hstatement.condition hc).isPure_of_modifiesState (hwhole.of_mem hcmem) (hpure htbody)
    have hright := hright hcpure (hwhole.of_mem hcmem) ((hbstatement.of_mem hs).tested hinner)
      (hwhole.of_mem hsubjectt) hspares
    have hnot : ¬t.Expression p := fun h => by simp [condition?, h.kind_spec.1] at hc
    refine alwaysEvaluates_of_part hbody (hu.isUnshared (SourceUnit.mem_listing_of_mem_starts hstart)) htbody
      hnot hsubjectt fun V => ?_
    refine ⟨.ofCondition V hcpure (hwhole.of_mem hcmem) true inner truth (hright V), rfl, rfl,
      fun n m hm => ?_⟩
    refine Forecast.kept_exec_guard (q := u.placeOf t) hstatement hunshared hguards hc hb hcpure
      (fun σ h => h) hsubject (fun m hm => ?_) hm
    exact Forecast.kept_exec_interior ⟨hinner, hspares, mem_subtrees_self inner⟩ hbstatement
      (hunshared.of_mem hbmem) hreached hm
  · exact alwaysEvaluates_of_not_mem hbody (hu.whole body hstart) hid

/-- An operand of a condition behind an early exit has, in every run, the truth value that follows from the
condition of the exit being false. -/
theorem alwaysEvaluates_behind {block second leaf : Tree} (hblock : block ∈ u.listing)
    (hoperand : t ∈ block.operands) (hkind : block.isBlock = true) (hif : t.isIf = true)
    (hleaves : b.leavesAtOnce = true)
    (htested : (s, second) ∈ u.testedWhile c d (u.scopeOf t) (u.restOf b block))
    (hleaf : leaf ∈ second.leaves fun _ => true)
    (hright : c.Pure p → leaf.Expression p → ∀ (V : Valuation ℤ) (m : Machine),
      (V.under m.vars).isTrue c = false → ((V.evaluate leaf m).1 != 0) = truth) :
    body.AlwaysEvaluates leaf.id truth := by
  obtain ⟨l, ts⟩ := block
  obtain ⟨before, behind, rfl⟩ : ∃ before behind, ts = before ++ t :: behind := List.append_of_mem hoperand
  have hunshared := hu.isUnshared hblock
  have hwhole := hunshared.whole
  have htmem := hwhole.mem_of_operand hoperand
  have htwhole := hwhole.of_mem htmem
  have hcwhole := htwhole.of_mem (htwhole.mem_of_operand (mem_operands_of_condition? hc))
  rw [hu.restOf_if hblock hif hc hb] at htested
  obtain ⟨hreached, hsecond, hspares⟩ :=
    SourceUnit.of_mem_testedWhile (SourceUnit.vars_of_dependence? hd) htested
  have hs : s ∈ (node l (before ++ t :: behind)).subtrees := by
    obtain ⟨x, hx, hs⟩ := List.mem_flatMap.mp hreached.mem
    rcases List.mem_append.mp hx with hx | hx
    · have hxmem := htwhole.mem_of_operand (List.mem_of_mem_drop hx)
      exact mem_subtrees_trans (mem_subtrees_trans hs hxmem) htmem
    · exact mem_subtrees_trans hs (hwhole.mem_of_operand (by simp [operands, hx]))
  have hsecondmem := (hwhole.of_mem hs).mem_of_operand (mem_operands_of_tested? hsecond)
  have hleafmem : leaf ∈ second.subtrees :=
    mem_subtrees_of_mem_leaves ((hwhole.of_mem hs).of_mem hsecondmem) hleaf
  have hsubject := mem_subtrees_trans hleafmem (mem_subtrees_trans hsecondmem hs)
  by_cases hid : leaf.id ∈ body.ids
  · have hblockbody := hu.mem_of_common hstart hblock hsubject hid
    have hstatement := hbody.of_mem hblockbody
    have hcpure := ((hstatement.operand hoperand).condition hc).isPure_of_modifiesState hcwhole
      (hpure (mem_subtrees_trans htmem hblockbody))
    have hright := hright hcpure (((hstatement.of_mem hs).tested hsecond).of_mem hleafmem)
    have hnot : ¬(node l (before ++ t :: behind)).Expression p :=
      fun h => h.kind_spec.2.1 (of_decide_eq_true hkind)
    refine alwaysEvaluates_of_part hbody (hu.isUnshared (SourceUnit.mem_listing_of_mem_starts hstart))
      hblockbody hnot hsubject fun V => ?_
    refine ⟨.ofCondition V hcpure hcwhole false leaf truth (hright V), rfl, rfl, fun n m hm => ?_⟩
    exact Forecast.kept_exec_behind hstatement (of_decide_eq_true hkind) hunshared hif hc hb hleaves hcpure
      (fun σ h => h) ⟨hsecond, hspares, hleafmem⟩ hreached hm
  · exact alwaysEvaluates_of_not_mem hbody (hu.whole body hstart) hid

end Reports

section Rules

variable {u : SourceUnit} (hu : u.IsUnshared) {body : Tree} (hstart : body ∈ u.starts)
  (hbody : body.Statement isPlainInteger) {t c b : Tree} {d : Dependence} (ht : t ∈ u.listing)
  (hc : t.condition? = some c) (hb : t.body? = some b) (hd : c.dependence? = some d)
  (hpure : t ∈ body.subtrees → c.modifiesState = false) {s inner conjunct : Tree}
include hu hstart hbody ht hc hb hd hpure

/-- In a body under a condition, what a conjunct of the condition excludes is always false. -/
theorem alwaysEvaluates_of_exclusive (hguards : (u.placeOf t).guardsBody = true)
    (htested : (s, inner) ∈ u.testedWhile c d (u.scopeOf b) (u.interior b))
    (hconjunct : conjunct ∈ c.chain (.logic .and)) (h : exclusive conjunct inner = true) :
    body.AlwaysEvaluates inner.id false := by
  refine alwaysEvaluates_inside hu hstart hbody hc hb hd hpure ht hguards htested
    fun hcpure hcwhole hinner hwhole hspares V m hm => ?_
  have hstable := (Knowledge.ofCondition V hcpure hcwhole true).stable V hwhole hspares
  have hfalse := Valuation.evaluate_of_exclusive hstable
    (fun m hm => (V.under m.vars).isTrue_of_mem_chain hm conjunct hconjunct)
    (hcpure.of_mem_chain _ conjunct hconjunct) hinner h hm
  simp [hfalse]

/-- In a body under a condition, what is the same as a conjunct of the condition is always true. -/
theorem alwaysEvaluates_of_same (hguards : (u.placeOf t).guardsBody = true)
    (htested : (s, inner) ∈ u.testedWhile c d (u.scopeOf b) (u.interior b))
    (hconjunct : conjunct ∈ c.chain (.logic .and)) (h : Tree.same conjunct inner = true) :
    body.AlwaysEvaluates inner.id true := by
  refine alwaysEvaluates_inside hu hstart hbody hc hb hd hpure ht hguards htested
    fun hcpure _ hinner _ _ V m hm => ?_
  rw [Valuation.evaluate_of_same single_of_isPlainInteger (hcpure.of_mem_chain _ conjunct hconjunct) hinner h]
  exact (V.under m.vars).isTrue_of_mem_chain hm conjunct hconjunct

end Rules

/-- The findings of the check are made inside of the body of a statement, or behind it. -/
theorem Place.of_mem_innerConditions {u : SourceUnit} {q : Place} {f : Finding}
    (h : f ∈ q.innerConditions u) :
    ∃ c b d, q.guardsBody = true ∧ q.tree.condition? = some c ∧ q.tree.body? = some b ∧
      c.dependence? = some d ∧ (f ∈ u.findingsInside c b d ∨ q.findingBehind? u c b d = some f) := by
  unfold innerConditions at h
  split at h
  · next c b hcondition hb =>
    split at h
    · next d hd =>
      split at hcondition
      · next hguards =>
        refine ⟨c, b, d, hguards, hcondition, hb, hd, ?_⟩
        simpa using h
      · contradiction
    · contradiction
  · contradiction

/-- Over programs with integer variables, the reports on inner conditions are right in every run. Each is
about two conditions, and when the outer one stands in a condition without side effects, the inner one is
false whenever it is evaluated if it is reported as opposite, true if it is reported as identical, and false
if it is reported as repeating the condition of an early exit. -/
theorem inner_reports_right {u : SourceUnit} (hu : u.IsUnshared) {body : Tree} (hstart : body ∈ u.starts)
    (hbody : body.Statement isPlainInteger) {o : Options} {l : Ledger} {f : Finding}
    (hf : f ∈ Check.innerCondition.reports o u l) :
    ∃ outer inner, f.subjects = [outer, inner] ∧
      ((∀ s ∈ body.subtrees, ∀ c, s.condition? = some c → outer.tree ∈ c.subtrees → c.modifiesState = false) →
        ((f.diagnostic u).rule = "oppositeInnerCondition" → body.AlwaysEvaluates inner.id false) ∧
          ((f.diagnostic u).rule = "identicalInnerCondition" → body.AlwaysEvaluates inner.id true) ∧
          ((f.diagnostic u).rule = "identicalConditionAfterEarlyExit" →
            body.AlwaysEvaluates inner.id false)) := by
  obtain ⟨_, q, hq, hf⟩ := Check.exists_of_mem_reports hf
  obtain ⟨t, ht, rfl⟩ := SourceUnit.exists_of_mem_scanned hq
  obtain ⟨c, b, d, hguards, hc, hb, hd, hcases⟩ := Place.of_mem_innerConditions hf
  have hwhole := (hu.isUnshared ht).whole
  have hcwhole := hwhole.of_mem (hwhole.mem_of_operand (mem_operands_of_condition? hc))
  rcases hcases with hinside | hbehind
  · obtain ⟨s, inner, conjunct, htested, hconjunct, hfinding⟩ := SourceUnit.of_mem_findingsInside hinside
    have houter : conjunct ∈ c.subtrees := mem_subtrees_of_mem_leaves hcwhole (leaves_and c ▸ hconjunct)
    rcases hfinding with ⟨rfl, hexclusive⟩ | ⟨rfl, hsame⟩
    · refine ⟨u.placeOf conjunct, u.placeOf inner, rfl, fun hpure => ?_⟩
      have hfalse := alwaysEvaluates_of_exclusive hu hstart hbody ht hc hb hd
        (fun htbody => hpure t htbody c hc houter) hguards htested hconjunct hexclusive
      exact ⟨fun _ => hfalse, fun h => by simp [Finding.diagnostic, Finding.rule] at h, fun _ => hfalse⟩
    · refine ⟨u.placeOf conjunct, u.placeOf inner, rfl, fun hpure => ?_⟩
      have htrue := alwaysEvaluates_of_same hu hstart hbody ht hc hb hd
        (fun htbody => hpure t htbody c hc houter) hguards htested hconjunct hsame
      exact ⟨fun h => by simp [Finding.diagnostic, Finding.rule] at h, fun _ => htrue,
        fun h => by simp [Finding.diagnostic, Finding.rule] at h⟩
  · obtain ⟨block, s, second, leaf, hif, hleaves, hparent, hblock, htested, hleaf, hsame, rfl⟩ :=
      SourceUnit.of_findingBehind? hbehind
    refine ⟨u.placeOf c, u.placeOf leaf, rfl, fun hpure => ?_⟩
    obtain ⟨hlisted, hoperand⟩ := hu.of_parent? ht hparent
    have hfalse : body.AlwaysEvaluates leaf.id false := by
      refine alwaysEvaluates_behind hu hstart hbody hc hb hd
        (fun htbody => hpure t htbody c hc (mem_subtrees_self c)) hlisted hoperand hblock hif hleaves htested
        hleaf fun hcpure hexpression V m hm => ?_
      rw [Valuation.evaluate_of_same single_of_isPlainInteger hcpure hexpression hsame, hm]
    exact ⟨fun _ => hfalse, fun h => by simp [Finding.diagnostic, Finding.rule] at h, fun _ => hfalse⟩

/-- A statement that stands by itself in the source. -/
def Tree.ofStatement (id : NodeId) (kind : Kind) (ts : List Tree) : Tree :=
  node { id := id, kind := kind, location := ⟨"", 1, id⟩ } ts

/-- An `if` without an else branch. -/
def Tree.ofIf (id : NodeId) (condition body : Tree) : Tree :=
  ofStatement id (.keyword (.ifStmt false)) [condition, body]

/-- A variable on the stack. -/
def Variable.onStack (id : VarId) (name : String) (ctype : CType) : Variable :=
  ⟨id, name, ctype, { isLocal := true, isPointer := ctype.isPointer }⟩

/-- A comparison of `x` with a constant. -/
def Tree.compareX (id : NodeId) (order : Order) (k : Int) : Tree :=
  ofOperator id (.compare order) (ofVariable (id + 1) (.onStack 0 "x" .int)) (ofInt (id + 2) k)

/-- `while (x > 0) { if (x <= 0) break; if (y == 2) continue; x -= 1; if (y == 2) break; }` -/
def countdown : Tree :=
  let x : Variable := ⟨0, "x", .int, { isLocal := true }⟩
  let y : Variable := ⟨1, "y", .int, { isLocal := true }⟩
  let test (id : NodeId) (v : Variable) (o : Order) (k : Int) : Tree :=
    ofOperator id (.compare o) (ofVariable (id + 1) v) (ofInt (id + 2) k)
  let leaveIf (id : NodeId) (condition : Tree) (word : Keyword) : Tree :=
    ofStatement id (.keyword (.ifStmt false)) [condition, ofStatement (id + 1) (.keyword word) []]
  ofStatement 0 (.keyword .whileStmt)
    [test 1 x .gt 0,
      ofStatement 4 .block
        [leaveIf 5 (test 7 x .le 0) .breakStmt,
          leaveIf 10 (test 12 y .eq 2) .continueStmt,
          plain 15 (.binary (.update .sub)) .int none [ofVariable 16 x, ofInt 17 1],
          leaveIf 18 (test 20 y .eq 2) .breakStmt]]

/-- In the loop, `x <= 0` is reported as opposite to `x > 0`, and the second `y == 2` as repeating the first
one, behind which the loop goes on. Both are evaluated, and never true. -/
theorem inner_reports_right_countdown :
    (∃ f ∈ Check.innerCondition.reports {} (.ofTree countdown) {},
        (f.diagnostic (.ofTree countdown)).rule = "oppositeInnerCondition" ∧
          countdown.AlwaysEvaluates 7 false) ∧
      (∃ f ∈ Check.innerCondition.reports {} (.ofTree countdown) {},
        (f.diagnostic (.ofTree countdown)).rule = "identicalConditionAfterEarlyExit" ∧
          countdown.AlwaysEvaluates 20 false) ∧
      let run := (Valuation.constant 0).exec 2 countdown ⟨fun _ => 1, []⟩
      (7, 0) ∈ run.2.log ∧ (20, 0) ∈ run.2.log := by
  have hu : (SourceUnit.ofTree countdown).IsUnshared := SourceUnit.isUnshared_ofTree (by decide) (by decide)
  have hstart : countdown ∈ (SourceUnit.ofTree countdown).starts := List.mem_singleton_self countdown
  have hbody : countdown.Statement isPlainInteger := by decide
  have hpure : ∀ s ∈ countdown.subtrees, s.condition?.all (fun c => !c.modifiesState) = true := by decide
  have hnone (outer : Place) : ∀ s ∈ countdown.subtrees, ∀ c, s.condition? = some c →
      outer.tree ∈ c.subtrees → c.modifiesState = false := by
    intro s hs c hc _
    simpa [hc] using hpure s hs
  obtain ⟨outer, inner, first, second, hreports, hinner, hsecond⟩ : ∃ outer inner first second : Place,
      Check.innerCondition.reports {} (.ofTree countdown) {} =
          [.oppositeInner outer inner, .repeatedAfterExit first second] ∧
        inner.id = 7 ∧ second.id = 20 := ⟨_, _, _, _, rfl, rfl, rfl⟩
  have hopposite : .oppositeInner outer inner ∈ Check.innerCondition.reports {} (.ofTree countdown) {} := by
    simp [hreports]
  have hrepeated : .repeatedAfterExit first second ∈ Check.innerCondition.reports {} (.ofTree countdown) {} := by
    simp [hreports]
  refine ⟨⟨_, hopposite, rfl, ?_⟩, ⟨_, hrepeated, rfl, ?_⟩, by decide⟩
  · obtain ⟨outer', inner', hsubjects, hright⟩ := inner_reports_right hu hstart hbody hopposite
    obtain ⟨rfl, rfl⟩ : outer = outer' ∧ inner = inner' := by simpa [Finding.subjects] using hsubjects
    exact hinner ▸ (hright (hnone outer)).1 rfl
  · obtain ⟨first', second', hsubjects, hright⟩ := inner_reports_right hu hstart hbody hrepeated
    obtain ⟨rfl, rfl⟩ : first = first' ∧ second = second' := by simpa [Finding.subjects] using hsubjects
    exact hsecond ▸ (hright (hnone first)).2.2 rfl

end ConditionLint
