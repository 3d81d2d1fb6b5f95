import ConditionLint.Proofs.InnerChange

/-!
# Increments and assignments to one target

An assignment stores into the variable that its target designates and, through a pointer, into memory that any
expression may depend on. An increment stores in the same way, but only the variable at the root of its operand
is taken to change. So the two are taken for the same change exactly where the target is reached through no
pointer.
-/

namespace ConditionLint

/-- The label without what a copy of the node need not share: its number, where it stands, what is known about
its value and how it is marked. -/
def Label.bare (l : Label) : Label :=
  { id := 0, kind := l.kind, location := ⟨"", 0, 0⟩, ctype := l.ctype, referent := l.referent }

namespace Tree

/-- Whether the second expression is written like the first, with the same types and variables. -/
def IsCopy (t u : Tree) : Prop := t.mapLabels Label.bare = u.mapLabels Label.bare

/-- Whether the value of the expression may depend on memory that is reached through pointers: it reads from
there, or it names a variable that does not live on the stack only. -/
def dependsOnMemory (t : Tree) : Bool := t.readsMemory || t.vars.any fun v => !v.isLocalStorage

/-- The variable that an expression designates depends on kinds and references. -/
theorem designated?_bare (t : Tree) : (t.mapLabels Label.bare).designated? = t.designated? := by
  induction t using induction_operands with
  | step l ts ih =>
    rw [mapLabels, designated?.eq_def, designated?.eq_def (node l ts)]
    cases ts with
    | nil => rfl
    | cons t ts =>
      have hfirst := ih t List.mem_cons_self
      cases hkind : l.kind with
      | member name arrow => cases arrow <;> simp [Label.bare, hkind, mapLabelsOf, hfirst]
      | _ => simp [Label.bare, hkind, mapLabelsOf, hfirst]

/-- Copies designate the same variable. -/
theorem IsCopy.designates_eq {t u : Tree} (h : t.IsCopy u) (v : Variable) :
    u.designates v = t.designates v := by
  rw [designates, designates, ← designated?_bare u, ← designated?_bare t, h]

end Tree

namespace Place

open ConditionLint.Tree

variable {q : Place} {target : Tree} (htarget : q.tree.operands.head? = some target)
include htarget

/-- An increment is taken to change the variables that its operand designates. -/
theorem changes_of_isIncrement (h : q.tree.isIncrement = true) (e : Tree) :
    q.changes e = e.vars.any fun v => target.designates v := by
  obtain ⟨op, hop, hincrement⟩ := (Option.any_eq_true _ _).mp h
  have hkind := kind_of_unaryOp? hop
  have hstores : q.tree.storesMemory = false := by simp [storesMemory, hkind]
  have hvariable (v : Variable) : q.changesVariable v = target.designates v := by
    rw [changesVariable, Place.kind, hkind]
    cases op <;> simp_all [UnaryOp.isIncrement]
  simp only [changes, hvariable, hstores, Bool.and_false, Bool.or_false]

/-- An assignment is taken to change these variables too and, through a pointer, whatever depends on memory. -/
theorem changes_of_isAssignment (h : q.tree.isAssignment = true) (e : Tree) :
    q.changes e = ((e.vars.any fun v => target.designates v) || (target.isIndirect && e.dependsOnMemory)) := by
  obtain ⟨op, hop, hassigns⟩ := (Option.any_eq_true _ _).mp h
  have hkind := kind_of_binaryOp? hop
  have hstores : q.tree.storesMemory = target.isIndirect := by
    simp [storesMemory, hkind, hassigns, htarget]
  have hvariable (v : Variable) :
      q.changesVariable v = (target.designates v || (!v.isLocalStorage && target.isIndirect)) := by
    rw [changesVariable_of_isAssignment hkind hassigns, htarget, Option.any_some]
  simp only [changes, hvariable, hstores, dependsOnMemory]
  cases target.isIndirect with
  | false => simp
  | true =>
    rw [Bool.eq_iff_iff]
    simp only [Bool.and_true, Bool.or_eq_true, List.any_eq_true, Bool.true_and]
    grind

end Place

/-- `f()`, for a function that may modify state. -/
def Tree.modifyingCall : Tree := .plain 0 (.call { name := "f" }) .int none []

open ConditionLint.Tree in
/-- What an assignment is taken to change, an increment of a copy of its target is taken to change as well or
the target is reached through a pointer and the expression depends on memory. So the two are taken for the same
change of all expressions exactly when the target is not reached through a pointer. -/
theorem assignment_changes_as_increment {n m : Place} {target copy : Tree}
    (hassigns : n.tree.isAssignment = true) (htarget : n.tree.operands.head? = some target)
    (hincrements : m.tree.isIncrement = true) (hoperand : m.tree.operands.head? = some copy)
    (hcopy : target.IsCopy copy) :
    (∀ e, n.changes e = (m.changes e || (target.isIndirect && e.dependsOnMemory))) ∧
      ((∀ e, n.changes e = true → m.changes e = true) ↔ target.isIndirect = false) := by
  have heq (e : Tree) : n.changes e = (m.changes e || (target.isIndirect && e.dependsOnMemory)) := by
    rw [Place.changes_of_isAssignment htarget hassigns, Place.changes_of_isIncrement hoperand hincrements]
    simp only [hcopy.designates_eq]
  refine ⟨heq, fun hall => ?_, fun hdirect e hchanges => ?_⟩
  · -- A call depends on memory and names no variable, so no increment is taken to change it.
    have hspared : m.changes modifyingCall = false := by
      rw [Place.changes_of_isIncrement hoperand hincrements]
      rfl
    by_contra hindirect
    rw [Bool.not_eq_false] at hindirect
    refine absurd (hall modifyingCall ?_) (by simp [hspared])
    rw [heq, hindirect]
    exact Bool.or_true _
  · rwa [heq, hdirect, Bool.false_and, Bool.or_false] at hchanges

/-- `*p += 1`, `++*p` and `*p > 0`: the assignment is taken to change the comparison and the increment is not. -/
theorem assignment_changes_as_increment_pointee :
    let e := Tree.ofOperator 0 (.compare .gt) (.pointee 1) (.ofInt 3 0)
    let n : Place := ⟨.plain 4 (.binary (.update .add)) .int none [.pointee 5, .ofInt 7 1], []⟩
    let m : Place := ⟨.plain 8 (.unary .preInc) .int none [.pointee 9], []⟩
    n.changes e = true ∧ m.changes e = false ∧ ¬∀ e, n.changes e = true → m.changes e = true := by
  intro e n m
  obtain ⟨heq, hall⟩ := assignment_changes_as_increment (n := n) (m := m) rfl rfl rfl rfl rfl
  have hspared : m.changes e = false := by decide
  refine ⟨?_, hspared, ?_⟩
  · rw [heq, hspared]
    rfl
  · rw [hall]
    decide

end ConditionLint
