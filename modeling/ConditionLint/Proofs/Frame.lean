import ConditionLint.Proofs.InnerCondition

/-!
# Statements that leave an expression as it is

A pure expression depends on the variables that it reads and on nothing else. A statement in which no node may
change the expression stores into none of these variables. However the execution of the statement goes and ends,
the expression then has the value that it had before.
-/

namespace ConditionLint

open ConditionLint.Tree

namespace Valuation

variable (V : Valuation ℤ) {p : Tree → Bool} {t : Tree}

/-- A statement that stores into none of some variables leaves their values as they were. -/
theorem vars_exec_of_spares (ht : t.Statement p) (hwhole : t.IsWhole) {reads : VarId → Prop}
    (hspares : t.Spares reads) (n : Nat) (m : Machine) {x : VarId} (hx : reads x) :
    (V.exec n t m).2.vars x = m.vars x := by
  let k : Knowledge :=
    { reads := reads
      known := fun σ => ∀ x, reads x → σ x = m.vars x
      known_congr := fun σ τ hagree hσ x hx => (hagree x hx).symm.trans (hσ x hx) }
  exact (k.stable V hwhole hspares).exec ht (fun _ _ => rfl) x hx

/-- The value of a pure expression depends on the variables that it reads only. -/
theorem evaluate_pure_congr (ht : t.Pure p) (hwhole : t.IsWhole) {m m' : Machine}
    (hagree : ∀ x, t.Reads x → m.vars x = m'.vars x) : (V.evaluate t m).1 = (V.evaluate t m').1 := by
  calc (V.evaluate t m).1
      = (V.under m.vars).eval t := (V.evaluate_pure ht m).1
    _ = (V.under m'.vars).eval t := V.eval_under_congr ht hwhole hagree
    _ = (V.evaluate t m').1 := (V.evaluate_pure ht m').1.symm

end Valuation

/-- When no node of a statement may change a pure expression, every execution of the statement, also one that
ends with a jump, leaves the value of the expression as it was. -/
theorem unchanged_expression_keeps_value (V : Valuation ℤ) {u : SourceUnit} {p q : Tree → Bool} {e s : Tree}
    (he : e.Pure q) (hewhole : e.IsWhole) (hs : s.Statement p) (hswhole : s.IsWhole)
    (hunchanged : u.changesWithin e s = false) (n : Nat) (m : Machine) :
    (V.evaluate e (V.exec n s m).2).1 = (V.evaluate e m).1 := by
  have hspares : s.Spares e.Reads := SourceUnit.spares_of_changesWithin hunchanged
  exact V.evaluate_pure_congr he hewhole fun _ hx => V.vars_exec_of_spares hs hswhole hspares n m hx

/-- The loop counts `x` down, which may change `x > 3`, and leaves `y == 2` as it is. -/
theorem unchanged_expression_keeps_value_countdown :
    let V := Valuation.constant 0
    let y := ofOperator 23 (.compare .eq) (ofVariable 24 (.onStack 1 "y" .int)) (ofInt 25 2)
    let m : Machine := ⟨fun _ => 1, []⟩
    (V.evaluate y (V.exec 2 countdown m).2).1 = (V.evaluate y m).1 ∧
      (V.exec 2 countdown m).2.vars 0 ≠ m.vars 0 ∧
      (SourceUnit.ofTree countdown).changesWithin (compareX 23 .gt 3) countdown = true := by
  intro V y m
  have hy : y.Pure isPlainInteger := by decide
  have hcountdown : countdown.Statement isPlainInteger := by decide
  have hunchanged : (SourceUnit.ofTree countdown).changesWithin y countdown = false := by decide
  exact ⟨unchanged_expression_keeps_value V hy (by decide) hcountdown (by decide) hunchanged 2 m, by decide,
    by decide⟩

end ConditionLint
