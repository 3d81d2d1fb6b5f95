import ConditionLint.Proofs.Draft
import ConditionLint.Proofs.Listing

/-!
# References and declarations

A reference carries the variable that it refers to. In a unit that was made from a draft, the references to
one variable agree on it: every step keeps each reference equal to the declaration, also a step that changes
the storage of the variable later, and laying out the trees changes no reference.
-/

namespace ConditionLint

open ConditionLint.Tree

namespace Tree

/-- A tree has the same number after it was laid out. -/
theorem id_layOut (laid : List Tree) (t : Tree) : (layOut laid t).1.id = t.id := by
  obtain ⟨l, ts⟩ := t
  rw [layOut]
  split
  · next s hs =>
    obtain ⟨m, us⟩ := s
    have hid : (node m us).id = l.id := by simpa using List.find?_some hs
    exact hid
  · rfl

/-- So have several trees. -/
theorem map_id_layOutAll (laid ts : List Tree) : (layOutAll laid ts).1.map id = ts.map id := by
  induction ts generalizing laid with
  | nil => rfl
  | cons t ts ih => exact congrArg₂ List.cons (id_layOut laid t) (ih _)

/-- A property of trees that is kept where they are laid out. Operands have it too, it does not depend on whose
body a node is and where it is listed, and the operands may become others with the same numbers and the property. -/
structure IsKept (P : Tree → Prop) : Prop where
  operand {t a : Tree} (h : P t) (ha : a ∈ t.operands) : P a
  relabel {l : Label} {ts : List Tree} (h : P (node l ts)) (owner : Option FunctionId) (elsewhere : Bool) :
    P (node { l with owner := owner, elsewhere := elsewhere } ts)
  rebuild {l : Label} {ts us : List Tree} (h : P (node l ts)) (hids : us.map id = ts.map id)
    (hus : ∀ u ∈ us, P u) : P (node l us)

namespace IsKept

variable {P : Tree → Prop} {s t : Tree} {ts : List Tree}

/-- Laying out several trees keeps a property when laying out each of them does. -/
theorem layOutAll {laid : List Tree} (hlaid : ∀ s ∈ laid, P s)
    (hts : ∀ t ∈ ts, ∀ laid : List Tree, (∀ s ∈ laid, P s) →
      P (layOut laid t).1 ∧ ∀ s ∈ (layOut laid t).2, P s) :
    (∀ t ∈ (Tree.layOutAll laid ts).1, P t) ∧ ∀ s ∈ (Tree.layOutAll laid ts).2, P s := by
  induction ts generalizing laid with
  | nil => exact ⟨fun t ht => absurd ht List.not_mem_nil, hlaid⟩
  | cons t ts ih =>
    obtain ⟨hfirst, hlaid⟩ := hts t List.mem_cons_self laid hlaid
    obtain ⟨hrest, hlaid⟩ := ih hlaid fun t ht => hts t (List.mem_cons_of_mem _ ht)
    exact ⟨List.forall_mem_cons.mpr ⟨hfirst, hrest⟩, hlaid⟩

variable (hP : IsKept P)
include hP

/-- Laying out a tree keeps the property. -/
theorem layOut (h : P t) (laid : List Tree) (hlaid : ∀ s ∈ laid, P s) :
    P (Tree.layOut laid t).1 ∧ ∀ s ∈ (Tree.layOut laid t).2, P s := by
  induction t using induction_operands generalizing laid with
  | step l ts ih =>
    rw [Tree.layOut]
    split
    · next s hs =>
      obtain ⟨m, us⟩ := s
      exact ⟨hP.relabel (hlaid _ (List.mem_of_find?_eq_some hs)) m.owner true, hlaid⟩
    · obtain ⟨hts, hlaid⟩ := layOutAll hlaid fun t ht => ih t ht (hP.operand h ht)
      have hnode := hP.rebuild h (map_id_layOutAll laid ts) hts
      exact ⟨hnode, List.forall_mem_cons.mpr ⟨hnode, hlaid⟩⟩

/-- The trees at which the source order begins are like the trees that are laid out. -/
theorem of_mem_starts (h : ∀ t ∈ ts, P t) (hs : s ∈ starts ts) : P s :=
  (layOutAll (fun _ hs => absurd hs List.not_mem_nil) fun t ht => hP.layOut (h t ht)).1 s
    (List.mem_filter.mp hs).1

/-- The nodes that are listed in a unit are like the nodes of the draft that it was made from. -/
theorem of_mem_listing {d : Draft} (h : ∀ t ∈ d.nodes, P t) (hs : s ∈ d.finish.listing) : P s := by
  obtain ⟨start, hstart, hs⟩ := List.mem_flatMap.mp hs
  refine of_mem_subtrees (fun _ ht _ => hP.operand ht) (hP.of_mem_starts (fun t ht => ?_) hstart) hs
  rcases List.mem_append.mp ht with ht | ht
  · obtain ⟨f, -, hf⟩ := List.mem_filterMap.mp ht
    obtain ⟨⟨l, ts⟩, hbody, rfl⟩ := Option.map_eq_some_iff.mp hf
    exact hP.relabel (h _ (List.mem_of_getElem? hbody)) (Draft.ownerOf? d.functions f.body) l.elsewhere
  · exact h t (List.mem_filter.mp ht).1

end IsKept

/-- Every node of the tree has a property of labels, wherever the node is listed. -/
inductive Everywhere (P : Label → Prop) : Tree → Prop
  | node {l : Label} {ts : List Tree} (here : P l) (below : ∀ t ∈ ts, Everywhere P t) :
      Everywhere P (node l ts)

/-- What holds everywhere holds at the node and everywhere below it. -/
theorem everywhere_node_iff {P : Label → Prop} {l : Label} {ts : List Tree} :
    (node l ts).Everywhere P ↔ P l ∧ ∀ t ∈ ts, t.Everywhere P :=
  ⟨fun ⟨here, below⟩ => ⟨here, below⟩, fun ⟨here, below⟩ => .node here below⟩

/-- Every node of the tree refers to nothing, or it is the name of a variable as it is declared. -/
def RefersTo (vars : List Variable) : Tree → Prop :=
  Everywhere fun l => ∀ v ∈ l.referent, vars[v.id]? = some v ∧ l.kind = .identifier v.name none

namespace Everywhere

variable {P Q : Label → Prop} {s t : Tree} {l : Label} {ts : List Tree}

/-- The topmost node has the property. -/
theorem label (h : t.Everywhere P) : P t.label := by
  obtain ⟨here, -⟩ := h
  exact here

/-- Everything below an operand has the property. -/
theorem operand (h : t.Everywhere P) {a : Tree} (ha : a ∈ t.operands) : a.Everywhere P := by
  obtain ⟨-, below⟩ := h
  exact below a ha

/-- All nodes of a subtree have the property. -/
theorem of_mem (h : t.Everywhere P) (hs : s ∈ t.subtrees) : s.Everywhere P :=
  of_mem_subtrees (P := Everywhere P) (fun _ ht _ ha => ht.operand ha) h hs

/-- Changing the labels everywhere gives what it gives at each label. -/
theorem mapLabels (h : t.Everywhere P) {f : Label → Label} (hf : ∀ l, P l → Q (f l)) :
    (t.mapLabels f).Everywhere Q := by
  induction h with
  | @node l ts here _ ih =>
    refine node (hf l here) fun t ht => ?_
    rw [mapLabelsOf_eq] at ht
    obtain ⟨s, hs, rfl⟩ := List.mem_map.mp ht
    exact ih s hs

/-- A weaker property holds as well. -/
theorem imp (h : t.Everywhere P) (himp : ∀ l, P l → Q l) : t.Everywhere Q := by
  induction h with
  | @node l ts here _ ih => exact node (himp l here) ih

/-- What does not depend on whose body a node is and where it is listed is kept where trees are laid out. -/
theorem isKept (hkept : ∀ (l : Label) (owner : Option FunctionId) (elsewhere : Bool), P l →
    P { l with owner := owner, elsewhere := elsewhere }) : IsKept (Everywhere P) where
  operand h ha := h.operand ha
  relabel h owner elsewhere := node (hkept _ owner elsewhere h.label) fun _ ha => h.operand ha
  rebuild h _ hus := node h.label hus

/-- The nodes that are listed in a unit are like the nodes of the draft that it was made from. -/
theorem of_mem_listing (hkept : ∀ l m : Label, m.kind = l.kind → m.referent = l.referent → P l → P m)
    {d : Draft} (h : ∀ t ∈ d.nodes, t.Everywhere P) (hs : s ∈ d.finish.listing) : s.Everywhere P :=
  (isKept fun l _ _ => hkept l _ rfl rfl).of_mem_listing h hs

end Everywhere

/-- More declarations do no harm. -/
theorem RefersTo.append {vars : List Variable} {t : Tree} (h : t.RefersTo vars) (ws : List Variable) :
    t.RefersTo (vars ++ ws) := by
  refine Everywhere.imp h fun l here v hv => ⟨?_, (here v hv).2⟩
  rw [List.getElem?_append_left (List.getElem?_eq_some_iff.mp (here v hv).1).1]
  exact (here v hv).1

end Tree

/-- Variables are numbered in the order of declaration, and references are to declared variables. -/
structure Draft.IsResolved (d : Draft) : Prop where
  numbered : ∀ (i : Nat) (v : Variable), d.vars[i]? = some v → v.id = i
  resolved : ∀ t ∈ d.nodes, t.RefersTo d.vars

/-- References to one variable agree on what it is. -/
def SourceUnit.IsResolved (u : SourceUnit) : Prop :=
  ∀ s ∈ u.listing, ∀ t ∈ u.listing, s.varId? = t.varId? → s.referent = t.referent

instance (u : SourceUnit) : Decidable u.IsResolved :=
  inferInstanceAs (Decidable (∀ s ∈ u.listing, ∀ t ∈ u.listing, s.varId? = t.varId? → s.referent = t.referent))

namespace Draft

namespace IsResolved

variable {d d' : Draft} (h : d.IsResolved)
include h

/-- A declared variable is found by its number. -/
theorem getElem?_of_mem {v : Variable} (hv : v ∈ d.vars) : d.vars[v.id]? = some v := by
  obtain ⟨i, hi⟩ := List.mem_iff_getElem?.mp hv
  rwa [h.numbered i v hi]

/-- Making a node from earlier ones keeps references and declarations together. -/
theorem addReferring {kind : Kind} {operands : List Tree} {ctype : Option CType} {referent : Option Variable}
    (hoperands : ∀ t ∈ operands, t ∈ d.nodes)
    (hreferent : ∀ v ∈ referent, v ∈ d.vars ∧ kind = .identifier v.name none) :
    (d.addReferring kind operands ctype referent).IsResolved where
  numbered := h.numbered
  resolved t ht := by
    rcases List.mem_append.mp ht with ht | ht
    · exact h.resolved t ht
    · rw [List.mem_singleton.mp ht]
      refine .node (fun v hv => ?_) fun a ha => h.resolved a (hoperands a ha)
      exact ⟨h.getElem?_of_mem (hreferent v hv).1, (hreferent v hv).2⟩

/-- So does changing anything else on a node. -/
theorem update (id : NodeId) {f : Label → Label} (hkind : ∀ l, (f l).kind = l.kind)
    (hreferent : ∀ l, (f l).referent = l.referent) : (d.update id f).IsResolved where
  numbered := h.numbered
  resolved t ht := by
    rw [Draft.update, relabel, mapLabelsOf_eq] at ht
    obtain ⟨s, hs, rfl⟩ := List.mem_map.mp ht
    refine (h.resolved s hs).mapLabels fun l hl => ?_
    split
    · rwa [hkind l, hreferent l]
    · exact hl

/-- A new variable has the next number, and nothing refers to it yet. -/
theorem declare (name : String) (ctype : CType) (storage : Storage) :
    (d.declare name ctype storage).IsResolved where
  numbered i v hv := by
    rcases of_getElem?_concat hv with hv | ⟨rfl, rfl⟩
    · exact h.numbered i v hv
    · rfl
  resolved t ht := (h.resolved t ht).append _

/-- A change of the storage of a variable shows in its declaration and in all references to it. -/
theorem restore (var : VarId) (change : Storage → Storage) : (d.restore var change).IsResolved where
  numbered i v hv := by
    rw [Draft.restore, List.getElem?_map] at hv
    obtain ⟨w, hw, rfl⟩ := Option.map_eq_some_iff.mp hv
    have hid := h.numbered i w hw
    split <;> exact hid
  resolved t ht := by
    rw [Draft.restore, relabel, mapLabelsOf_eq] at ht
    obtain ⟨s, hs, rfl⟩ := List.mem_map.mp ht
    refine (h.resolved s hs).mapLabels fun l hl v hv => ?_
    obtain ⟨w, hw, rfl⟩ := Option.map_eq_some_iff.mp hv
    have hsame : (if w.id = var then { w with storage := change w.storage } else w).id = w.id ∧
        (if w.id = var then { w with storage := change w.storage } else w).name = w.name := by
      split <;> exact ⟨rfl, rfl⟩
    constructor
    · rw [Draft.restore, List.getElem?_map, hsame.1, (hl w hw).1, Option.map_some]
    · rw [hsame.2]
      exact (hl w hw).2

/-- Every step keeps references and declarations together. -/
theorem step (hstep : d.Step d') : d'.IsResolved := by
  cases hstep with
  | other nodes vars => exact ⟨vars ▸ h.numbered, nodes ▸ vars ▸ h.resolved⟩
  | add kind ctype made declared => exact h.addReferring made declared
  | update id number kind referent listed owner => exact h.update id kind referent
  | declare name ctype storage => exact h.declare name ctype storage
  | restore var change => exact h.restore var change

/-- Laying out the nodes keeps references and declarations together. -/
theorem refersTo_of_mem_listing {t : Tree} (ht : t ∈ d.finish.listing) : t.RefersTo d.vars := by
  refine Everywhere.of_mem_listing (fun l m hkind hreferent hl => ?_) h.resolved ht
  rwa [hkind, hreferent]

/-- In the unit that a draft settles into, references to one variable agree. -/
theorem finish : d.finish.IsResolved := by
  intro s hs t ht hvar
  have hdeclared {r : Tree} (hr : r ∈ d.finish.listing) : r.referent = r.varId?.bind fun x => d.vars[x]? := by
    cases hv : r.referent with
    | none => simp [varId?, hv]
    | some v => simp [varId?, hv, ((h.refersTo_of_mem_listing hr).label v hv).1]
  rw [hdeclared hs, hdeclared ht, hvar]

end IsResolved

/-- Whatever actions are taken, references and declarations stay together. -/
theorem isResolved_of_performAll? {file : String} {actions : List Action} {d : Draft}
    (h : Draft.performAll? { file := file } actions = some d) : d.IsResolved :=
  of_performAll? IsResolved.step (P := IsResolved) ⟨by simp, by simp⟩ h

/-- Whatever actions made a unit, references to one variable agree in it. -/
theorem isResolved_finish {file : String} {actions : List Action} {d : Draft}
    (h : Draft.performAll? { file := file } actions = some d) : d.finish.IsResolved :=
  (isResolved_of_performAll? h).finish

end Draft

end ConditionLint
