import ConditionLint.Draft
import Mathlib.Logic.Relation

/-!
# What the steps in making a unit do

However many actions there are, they do few things to the nodes and the variables of a draft. A property of
drafts that each of these things keeps holds after all actions.
-/

namespace ConditionLint

/-- Changing labels changes the operands one by one. -/
theorem Tree.mapLabelsOf_eq (f : Label → Label) (ts : List Tree) :
    mapLabelsOf f ts = ts.map (mapLabels f) := by
  induction ts with
  | nil => rfl
  | cons t ts ih => simp [mapLabelsOf, ih]

/-- How many operands a node has, for the kinds that settle it. -/
def Kind.arity? : Kind → Option Nat
  | literal _ => some 0
  | identifier _ _ => some 0
  | unary _ => some 1
  | binary _ => some 2
  | member _ _ => some 1
  | subscript => some 2
  | cast => some 1
  | ternary => some 3
  | empty => some 0
  | _ => none

namespace Draft

/-- What can happen to the nodes and the variables of a draft. -/
inductive Step : Draft → Draft → Prop
  /-- Nodes and variables stay as they are. -/
  | other {d d' : Draft} (nodes : d'.nodes = d.nodes) (vars : d'.vars = d.vars) : Step d d'
  /-- A node is made from earlier ones, and it may be the name of a declared variable. -/
  | add {d : Draft} (kind : Kind) {operands : List Tree} (ctype : Option CType) {referent : Option Variable}
      (made : ∀ t ∈ operands, t ∈ d.nodes)
      (declared : ∀ v ∈ referent, v ∈ d.vars ∧ kind = .identifier v.name none)
      (arity : ∀ n ∈ kind.arity?, operands.length = n) :
      Step d (d.addReferring kind operands ctype referent)
  /-- A node changes, but not its number, its kind, its reference, where it is listed or whose body it is. -/
  | update {d : Draft} (id : NodeId) {f : Label → Label} (number : ∀ l, (f l).id = l.id)
      (kind : ∀ l, (f l).kind = l.kind) (referent : ∀ l, (f l).referent = l.referent)
      (listed : ∀ l, (f l).elsewhere = l.elsewhere) (owner : ∀ l, (f l).owner = l.owner) :
      Step d (d.update id f)
  | declare {d : Draft} (name : String) (ctype : CType) (storage : Storage) :
      Step d (d.declare name ctype storage)
  | restore {d : Draft} (var : VarId) (change : Storage → Storage) : Step d (d.restore var change)

variable {d d' : Draft}

/-- What is found in a list with a new last entry is found in the list, or it is that entry. -/
theorem of_getElem?_concat {α : Type} {xs : List α} {x y : α} {i : Nat} (h : (xs ++ [x])[i]? = some y) :
    xs[i]? = some y ∨ i = xs.length ∧ x = y := by
  rw [List.getElem?_append] at h
  split at h
  · exact Or.inl h
  · next hbehind =>
    obtain ⟨hbound, rfl⟩ := List.getElem?_eq_some_iff.mp h
    rw [List.length_singleton] at hbound
    exact Or.inr ⟨by omega, by simp⟩

/-- As many nodes are found as there are numbers, and they are nodes of the list. -/
theorem of_mapM {nodes operands : List Tree} {ids : List NodeId}
    (h : (ids.mapM fun id => nodes[id]?) = some operands) :
    operands.length = ids.length ∧ ∀ t ∈ operands, t ∈ nodes := by
  induction ids generalizing operands with
  | nil =>
    obtain rfl : [] = operands := by simpa using h
    exact ⟨rfl, fun t ht => absurd ht List.not_mem_nil⟩
  | cons id ids ih =>
    simp only [List.mapM_cons, Option.bind_eq_bind, Option.bind_eq_some_iff, Option.pure_def,
      Option.some.injEq] at h
    obtain ⟨t, ht, ts, hts, rfl⟩ := h
    obtain ⟨hlength, hmem⟩ := ih hts
    exact ⟨congrArg Nat.succ hlength, List.forall_mem_cons.mpr ⟨List.mem_of_getElem? ht, hmem⟩⟩

/-- A node without a reference and without operands is made. -/
theorem step_add (d : Draft) {kind : Kind} (ctype : Option CType) (harity : kind.arity? = some 0) :
    d.Step (d.add kind [] ctype) :=
  .add kind ctype (by simp) (by simp) (by simp [harity])

/-- A node is made from operands by their numbers. -/
theorem step_addFrom? {kind : Kind} {ids : List NodeId} {ctype : List Tree → Option CType}
    (harity : ∀ n ∈ kind.arity?, ids.length = n) (h : d.addFrom? kind ids ctype = some d') : d.Step d' := by
  obtain ⟨operands, hoperands, rfl⟩ := Option.map_eq_some_iff.mp h
  obtain ⟨hlength, hmem⟩ := of_mapM hoperands
  exact .add kind _ hmem (by simp) (hlength ▸ harity)

/-- An empty node is made for a clause that is left out, and nothing is done for another. -/
theorem step_clause (d : Draft) (id : Option NodeId) : d.Step (d.clause id).2 := by
  cases id with
  | none => exact d.step_add none rfl
  | some id => exact .other rfl rfl

/-- Each action does such things, one after the other. -/
theorem steps_of_perform? {action : Action} (h : d.perform? action = some d') :
    Relation.ReflTransGen Step d d' := by
  have hsome {e : Draft} (he : some e = some d') (hstep : d.Step e) : Relation.ReflTransGen Step d d' :=
    Option.some.inj he ▸ .single hstep
  cases action with
  | line number => exact hsome h (.other rfl rfl)
  | declare name ctype storage => exact hsome h (.declare name ctype storage)
  | restore var change => exact hsome h (.restore var change)
  | literal value ctype => exact hsome h (d.step_add _ rfl)
  | reference var =>
    obtain ⟨v, hv, rfl⟩ := Option.map_eq_some_iff.mp h
    refine .single (.add _ _ (by simp) (fun w hw => ?_) (by simp [Kind.arity?]))
    obtain rfl := Option.some.inj hw
    exact ⟨List.mem_of_getElem? hv, rfl⟩
  | enumerator name value => exact hsome h (d.step_add _ rfl)
  | name name => exact hsome h (d.step_add _ rfl)
  | unary op operand => exact .single (step_addFrom? (by simp [Kind.arity?]) h)
  | binary op lhs rhs => exact .single (step_addFrom? (by simp [Kind.arity?]) h)
  | call callee operands => exact .single (step_addFrom? (by simp [Kind.arity?]) h)
  | member object name arrow => exact .single (step_addFrom? (by simp [Kind.arity?]) h)
  | subscript array index => exact .single (step_addFrom? (by simp [Kind.arity?]) h)
  | cast ctype operand => exact .single (step_addFrom? (by simp [Kind.arity?]) h)
  | ternary condition yes no => exact .single (step_addFrom? (by simp [Kind.arity?]) h)
  | empty => exact hsome h (d.step_add _ rfl)
  | block statements => exact .single (step_addFrom? (by simp [Kind.arity?]) h)
  | statement word operands => exact .single (step_addFrom? (by simp [Kind.arity?]) h)
  | forLoop init condition step body =>
    exact .head (d.step_clause init) (.head (step_clause _ condition)
      (.head (step_clause _ step) (.single (step_addFrom? (by simp [Kind.arity?]) h))))
  | retype node ctype =>
    exact hsome h (.update node (fun _ => rfl) (fun _ => rfl) (fun _ => rfl) (fun _ => rfl) fun _ => rfl)
  | mark node origin =>
    cases origin <;>
      exact hsome h (.update node (fun _ => rfl) (fun _ => rfl) (fun _ => rfl) (fun _ => rfl) fun _ => rfl)
  | attach node fact =>
    exact hsome h (.update node (fun _ => rfl) (fun _ => rfl) (fun _ => rfl) (fun _ => rfl) fun _ => rfl)
  | function name params returns body => exact hsome h (.other rfl rfl)

/-- What every step keeps holds after all actions. -/
theorem of_performAll? {P : Draft → Prop} (hstep : ∀ {d d' : Draft}, P d → d.Step d' → P d')
    {actions : List Action} (hd : P d) (h : d.performAll? actions = some d') : P d' := by
  induction actions generalizing d with
  | nil => exact Option.some.inj h ▸ hd
  | cons action rest ih =>
    obtain ⟨next, hnext, hrest⟩ := Option.bind_eq_some_iff.mp h
    refine ih ?_ hrest
    have hsteps := steps_of_perform? hnext
    clear hnext hrest
    induction hsteps with
    | refl => exact hd
    | tail _ hlast ihsteps => exact hstep ihsteps hlast

end Draft

end ConditionLint
