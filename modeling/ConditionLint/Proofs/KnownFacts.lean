import ConditionLint.Proofs.Sharing
import ConditionLint.Tree.Traits

/-!
# What becomes of attached facts

A definite fact says what an integer or floating value is known to be. A node keeps at most one definite fact of each
domain: a new one takes the place of the old one. All other facts are put behind those that are there. So after any
number of facts a node has, of each domain, the definite fact that was attached last, at the place of the first one,
and it has all other facts in the order in which they were attached.

Which facts were attached to a node is read off the actions. No other action changes the facts of a node, and neither
does settling the source order, so a node that is listed has the facts that its attachments lead to.
-/

namespace ConditionLint

/-- The domain of a value. -/
inductive Domain where
  | int
  | float
  deriving DecidableEq, Repr

namespace Fact

/-- The domain in which a fact says what the value is. -/
def domain? (f : Fact) : Option Domain :=
  match f.payload with
  | .int _ => if f.isDefinite then some .int else none
  | .float _ => if f.isDefinite then some .float else none
  | _ => none

/-- The definite facts of a domain, or the other facts. -/
def ofDomain (dom : Option Domain) (facts : List Fact) : List Fact := facts.filter fun f => f.domain? = dom

/-- Put a domain behind others, unless it is one of them. Facts without a domain are not told apart. -/
def openDomain (seen : List (Option Domain)) (dom : Option Domain) : List (Option Domain) :=
  if dom ≠ none ∧ dom ∈ seen then seen else seen ++ [dom]

/-- The domains of facts, each at its first fact, and the facts without one. -/
def openings (facts : List Fact) : List (Option Domain) := (facts.map domain?).foldl openDomain []

/-- The facts that a node has after some were attached. -/
structure Arranges (attached facts : List Fact) : Prop where
  /-- Of each domain there is at most one definite fact, the one that was attached last. -/
  last : ∀ dom, ofDomain (some dom) facts = (ofDomain (some dom) attached).getLast?.toList
  /-- The other facts are kept in their order. -/
  rest : ofDomain none facts = ofDomain none attached
  /-- The definite fact of a domain stands where the first one of the domain was attached. -/
  place : facts.map domain? = openings attached

variable {f g : Fact} {attached before after facts : List Fact} {dom : Option Domain}

/-- No facts have no domain. -/
@[simp] theorem ofDomain_nil (dom : Option Domain) : ofDomain dom [] = [] := rfl

/-- The facts of a domain, cut at one fact. -/
theorem ofDomain_append_cons (dom : Option Domain) (before after : List Fact) (f : Fact) :
    ofDomain dom (before ++ f :: after) =
      ofDomain dom before ++ if f.domain? = dom then f :: ofDomain dom after else ofDomain dom after := by
  simp [ofDomain, List.filter_cons]

/-- A domain opens at the last fact unless it did before. -/
theorem openings_concat (attached : List Fact) (f : Fact) :
    openings (attached ++ [f]) = openDomain (openings attached) f.domain? := by
  rw [openings, List.map_append, List.foldl_append]
  rfl

/-- A fact takes the place of another if both are definite facts of one domain. -/
theorem replaces_iff : f.replaces g = true ↔ f.domain? ≠ none ∧ g.domain? = f.domain? := by
  unfold replaces domain? sameDomain
  cases f.payload <;> cases g.payload <;> cases f.isDefinite <;> cases g.isDefinite <;> simp

/-- A new fact takes the place of one that is there, or it is put behind all of them. -/
theorem attach_cases (f : Fact) (facts : List Fact) :
    (∃ before g after, facts = before ++ g :: after ∧ f.replaces g = true ∧ f.attach facts = before ++ f :: after) ∨
      (∀ g ∈ facts, ¬f.replaces g = true) ∧ f.attach facts = facts ++ [f] := by
  induction facts with
  | nil => exact Or.inr ⟨by simp, rfl⟩
  | cons g rest ih =>
    by_cases hg : f.replaces g = true
    · exact Or.inl ⟨[], g, rest, rfl, hg, by simp [attach, hg]⟩
    · rcases ih with ⟨before, g', after, rfl, hreplaces, hattach⟩ | ⟨hnone, hattach⟩
      · exact Or.inl ⟨g :: before, g', after, rfl, hreplaces, by simp [attach, hg, hattach]⟩
      · exact Or.inr ⟨List.forall_mem_cons.mpr ⟨hg, hnone⟩, by simp [attach, hg, hattach]⟩

/-- Where there is at most one entry, nothing stands around it. -/
theorem eq_nil_of_append_cons_eq_toList {α : Type} {before after : List α} {x : α} {entry : Option α}
    (h : before ++ x :: after = entry.toList) : before = [] ∧ after = [] := by
  cases entry with
  | none => simp at h
  | some y =>
    obtain ⟨hbefore, -, hafter⟩ : before = [] ∧ x = y ∧ after = [] := by
      simpa [List.append_eq_singleton_iff] using h
    exact ⟨hbefore, hafter⟩

namespace Arranges

/-- Nothing was attached, and there are no facts. -/
theorem nil : Arranges [] [] := ⟨fun _ => rfl, rfl, rfl⟩

/-- A definite fact takes the place of the only one of its domain. -/
theorem replaced (h : Arranges attached (before ++ g :: after)) (hdefinite : f.domain? ≠ none)
    (hdomain : g.domain? = f.domain?) : Arranges (attached ++ [f]) (before ++ f :: after) where
  last dom := by
    have hlast := h.last dom
    rw [ofDomain_append_cons, hdomain] at hlast
    rw [ofDomain_append_cons, ofDomain_append_cons]
    split
    · next heq =>
      rw [if_pos heq] at hlast
      obtain ⟨hbefore, hafter⟩ := eq_nil_of_append_cons_eq_toList hlast
      simp [hbefore, hafter]
    · next hne =>
      rw [if_neg hne] at hlast
      simpa using hlast
  rest := by
    have hrest := h.rest
    rw [ofDomain_append_cons, hdomain, if_neg hdefinite] at hrest
    rw [ofDomain_append_cons, ofDomain_append_cons, if_neg hdefinite, if_neg hdefinite, hrest]
    simp
  place := by
    have hplace := h.place
    rw [List.map_append, List.map_cons, hdomain] at hplace
    rw [openings_concat, ← hplace, openDomain, if_pos ⟨hdefinite, by simp⟩, List.map_append, List.map_cons]

/-- A fact is put behind others that are not definite facts of its domain. -/
theorem appended (h : Arranges attached facts) (hnew : f.domain? ≠ none → ∀ g ∈ facts, g.domain? ≠ f.domain?) :
    Arranges (attached ++ [f]) (facts ++ [f]) where
  last dom := by
    rw [ofDomain_append_cons, ofDomain_append_cons, h.last dom]
    split
    · next heq =>
      have hnone : ofDomain (some dom) facts = [] := by
        refine List.filter_eq_nil_iff.mpr fun g hg => ?_
        simpa [heq] using hnew (by simp [heq]) g hg
      rw [← h.last dom, hnone]
      simp
    · simp
  rest := by rw [ofDomain_append_cons, ofDomain_append_cons, h.rest]
  place := by
    rw [openings_concat, ← h.place, openDomain, if_neg, List.map_append, List.map_singleton]
    rintro ⟨hdefinite, hmem⟩
    obtain ⟨g, hg, hdomain⟩ := List.mem_map.mp hmem
    exact hnew hdefinite g hg hdomain

/-- Attaching a fact gives what the facts attached before lead to together with the new one. -/
theorem attach (h : Arranges attached facts) (f : Fact) : Arranges (attached ++ [f]) (f.attach facts) := by
  rcases attach_cases f facts with ⟨before, g, after, rfl, hreplaces, hattach⟩ | ⟨hnone, hattach⟩
  · obtain ⟨hdefinite, hdomain⟩ := replaces_iff.mp hreplaces
    exact hattach ▸ h.replaced hdefinite hdomain
  · exact hattach ▸ h.appended fun hdefinite g hg hdomain => hnone g hg (replaces_iff.mpr ⟨hdefinite, hdomain⟩)

/-- So does attaching any number of facts. -/
theorem attachAll (h : Arranges attached facts) (fs : List Fact) :
    Arranges (attached ++ fs) (fs.foldl (fun facts f => f.attach facts) facts) := by
  induction fs generalizing attached facts with
  | nil => rwa [List.append_nil]
  | cons f fs ih =>
    rw [List.append_cons]
    exact ih (h.attach f)

end Arranges

end Fact

/-- The fact that an action attaches to a node. -/
def Action.factFor (i : NodeId) : Action → Option Fact
  | .attach j fact => if j = i then some fact else none
  | _ => none

namespace Draft

open ConditionLint.Tree

/-- The facts of a node. -/
def factsOf (d : Draft) (i : NodeId) : List Fact := (d.nodes[i]?.map fun t => t.label.facts).getD []

/-- The facts that actions attach to a node, in their order. A node that is not made yet gets none. -/
def attached (d : Draft) (i : NodeId) : List Action → List Fact
  | [] => []
  | action :: rest =>
    (if i < d.nodes.length then (action.factFor i).toList else []) ++
      ((d.perform? action).map fun d' => d'.attached i rest).getD []

variable {d d' : Draft} {i : NodeId}

/-- A node that is made has no facts. -/
theorem factsOf_addReferring (d : Draft) (kind : Kind) (operands : List Tree) (ctype : Option CType)
    (referent : Option Variable) : (d.addReferring kind operands ctype referent).factsOf i = d.factsOf i := by
  simp only [factsOf, addReferring, List.getElem?_append]
  split
  · rfl
  · next hnew =>
    rw [List.getElem?_eq_none (Nat.not_lt.mp hnew)]
    cases i - d.nodes.length <;> rfl

/-- Making a node from others attaches no fact. -/
theorem factsOf_addFrom? {kind : Kind} {ids : List NodeId} {ctype : List Tree → Option CType}
    (h : d.addFrom? kind ids ctype = some d') : d'.factsOf i = d.factsOf i := by
  obtain ⟨operands, -, rfl⟩ := Option.map_eq_some_iff.mp h
  exact d.factsOf_addReferring ..

/-- Neither does filling in a clause that is left out. -/
theorem factsOf_clause (d : Draft) (id : Option NodeId) : (d.clause id).2.factsOf i = d.factsOf i := by
  cases id with
  | none => exact d.factsOf_addReferring ..
  | some id => rfl

/-- Changing labels changes the facts of a node as it changes those of its label. -/
theorem factsOf_relabel (d : Draft) (f : Label → Label) :
    (d.relabel f).factsOf i = (d.nodes[i]?.map fun t => (f t.label).facts).getD [] := by
  have hlabel (t : Tree) : (t.mapLabels f).label = f t.label := by
    obtain ⟨l, ts⟩ := t
    rfl
  rw [factsOf, relabel, mapLabelsOf_eq, List.getElem?_map, Option.map_map]
  simp only [Function.comp_def, hlabel]

/-- Changing one node leaves the facts of the others. -/
theorem factsOf_update (h : d.IsNumbered) (j : NodeId) (f : Label → Label) : (d.update j f).factsOf i =
    if j = i then (d.nodes[i]?.map fun t => (f t.label).facts).getD [] else d.factsOf i := by
  rw [update, factsOf_relabel, factsOf]
  cases hnode : d.nodes[i]? with
  | none => simp
  | some t =>
    have hid : t.label.id = i := h.numbered i t hnode
    by_cases heq : j = i
    · simp [heq, hid]
    · simp [heq, hid, Ne.symm heq]

/-- Changing a node in something else leaves all facts. -/
theorem factsOf_update_of_facts (h : d.IsNumbered) (j : NodeId) {f : Label → Label}
    (hfacts : ∀ l, (f l).facts = l.facts) : (d.update j f).factsOf i = d.factsOf i := by
  rw [factsOf_update h, factsOf]
  simp only [hfacts, ite_self]

/-- Attaching a fact to a node that is made adds it to the facts of the node. -/
theorem factsOf_attach (h : d.IsNumbered) (j : NodeId) (fact : Fact) :
    (d.update j fun l => { l with facts := fact.attach l.facts }).factsOf i =
      if j = i ∧ i < d.nodes.length then fact.attach (d.factsOf i) else d.factsOf i := by
  rw [factsOf_update h, factsOf]
  by_cases hmade : i < d.nodes.length <;> simp [hmade]

/-- An action attaches its fact to a node that is made, and changes no other facts. -/
theorem factsOf_perform? (h : d.IsNumbered) {action : Action} (hnext : d.perform? action = some d') :
    d'.factsOf i = (if i < d.nodes.length then (action.factFor i).toList else []).foldl
      (fun facts f => f.attach facts) (d.factsOf i) := by
  have hkept (hsame : d'.factsOf i = d.factsOf i) (hnone : action.factFor i = none) :
      d'.factsOf i = (if i < d.nodes.length then (action.factFor i).toList else []).foldl
        (fun facts f => f.attach facts) (d.factsOf i) := by
    rw [hsame, hnone, Option.toList_none, ite_self, List.foldl_nil]
  have hsome {e : Draft} (he : some e = some d') (hsame : e.factsOf i = d.factsOf i) :
      d'.factsOf i = d.factsOf i := Option.some.inj he ▸ hsame
  cases action with
  | line number => exact hkept (hsome hnext rfl) rfl
  | declare name ctype storage => exact hkept (hsome hnext rfl) rfl
  | restore var change => exact hkept (hsome hnext (d.factsOf_relabel _)) rfl
  | literal value ctype => exact hkept (hsome hnext (d.factsOf_addReferring ..)) rfl
  | reference var =>
    obtain ⟨v, -, rfl⟩ := Option.map_eq_some_iff.mp hnext
    exact hkept (d.factsOf_addReferring ..) rfl
  | enumerator name value => exact hkept (hsome hnext (d.factsOf_addReferring ..)) rfl
  | name name => exact hkept (hsome hnext (d.factsOf_addReferring ..)) rfl
  | unary op operand => exact hkept (factsOf_addFrom? hnext) rfl
  | binary op lhs rhs => exact hkept (factsOf_addFrom? hnext) rfl
  | call callee operands => exact hkept (factsOf_addFrom? hnext) rfl
  | member object name arrow => exact hkept (factsOf_addFrom? hnext) rfl
  | subscript array index => exact hkept (factsOf_addFrom? hnext) rfl
  | cast ctype operand => exact hkept (factsOf_addFrom? hnext) rfl
  | ternary condition yes no => exact hkept (factsOf_addFrom? hnext) rfl
  | empty => exact hkept (hsome hnext (d.factsOf_addReferring ..)) rfl
  | block statements => exact hkept (factsOf_addFrom? hnext) rfl
  | statement word operands => exact hkept (factsOf_addFrom? hnext) rfl
  | forLoop init condition step body =>
    have hclauses : (((d.clause init).2.clause condition).2.clause step).2.factsOf i = d.factsOf i := by
      rw [factsOf_clause, factsOf_clause, factsOf_clause]
    exact hkept ((factsOf_addFrom? hnext).trans hclauses) rfl
  | retype node ctype => exact hkept (hsome hnext (factsOf_update_of_facts h node fun _ => rfl)) rfl
  | mark node origin =>
    exact hkept (hsome hnext (factsOf_update_of_facts h node fun _ => by cases origin <;> rfl)) rfl
  | attach node fact =>
    obtain rfl := Option.some.inj hnext
    rw [factsOf_attach h, Action.factFor]
    by_cases heq : node = i <;> by_cases hmade : i < d.nodes.length <;> simp [heq, hmade]
  | function name params returns body => exact hkept (hsome hnext rfl) rfl

/-- The facts of a node after any actions are those before with what the actions attach. -/
theorem factsOf_performAll? (h : d.IsNumbered) {actions : List Action} (hrun : d.performAll? actions = some d') :
    d'.factsOf i = (d.attached i actions).foldl (fun facts f => f.attach facts) (d.factsOf i) := by
  induction actions generalizing d with
  | nil => rw [attached, ← Option.some.inj hrun, List.foldl_nil]
  | cons action rest ih =>
    obtain ⟨next, hnext, hrest⟩ := Option.bind_eq_some_iff.mp hrun
    have hone : d.performAll? [action] = some next := by simp [performAll?, hnext]
    rw [attached, hnext, Option.map_some, Option.getD_some, List.foldl_append, ← factsOf_perform? h hnext]
    exact ih (of_performAll? IsNumbered.step h hone) hrest

/-- A node that is listed has the facts of the node that was made. -/
theorem facts_eq_factsOf {file : String} {actions : List Action}
    (h : Draft.performAll? { file := file } actions = some d) {t : Tree} (ht : t ∈ d.finish.listing) :
    t.label.facts = d.factsOf t.id := by
  obtain ⟨n, hn, hlabel, -⟩ := (copies_of_mem_listing h ht).exists_made
  obtain ⟨k, hk⟩ := List.mem_iff_getElem?.mp hn
  have hid : t.id = k := (congrArg Label.id hlabel).trans ((isNumbered_of_performAll? h).numbered k n hk)
  have hfacts := congrArg Label.facts hlabel
  rw [factsOf, hid, hk, Option.map_some, Option.getD_some]
  exact hfacts

/-- Whatever actions made a unit, the facts of each of its nodes are arranged as they were attached to it: of each
domain only the last definite fact, at the place of the first one, and all other facts in their order. The integer
that a node is known to have is the last one. -/
theorem facts_arranged {file : String} {actions : List Action}
    (h : Draft.performAll? { file := file } actions = some d) {t : Tree} (ht : t ∈ d.finish.listing) :
    Fact.Arranges (attached { file := file } t.id actions) t.label.facts ∧
      t.valueFact? = (Fact.ofDomain (some .int) (attached { file := file } t.id actions)).getLast? := by
  have harranges : Fact.Arranges (attached { file := file } t.id actions) t.label.facts := by
    rw [facts_eq_factsOf h ht, factsOf_performAll? ⟨by simp, by simp, by simp, by simp⟩ h]
    exact Fact.Arranges.nil.attachAll _
  refine ⟨harranges, ?_⟩
  have hvalue (f : Fact) : f.value?.isSome = decide (f.domain? = some .int) := by
    unfold Fact.value? Fact.domain?
    cases f.payload <;> cases f.isDefinite <;> simp
  simp only [valueFact?, hvalue]
  rw [← List.head?_filter, ← Fact.ofDomain, harranges.last .int]
  cases (Fact.ofDomain (some .int) (attached { file := file } t.id actions)).getLast? <;> rfl

/-- `!x`, with facts about both nodes. The integer that `x` is known to be comes up twice, with a possible integer, a
floating value and an excluded integer in between. -/
def attachedTwice : List Action :=
  [.name "x", .attach 0 (.ofValue 1), .attach 0 { payload := .int 3 }, .unary .not 0, .attach 1 (.ofValue 0),
    .attach 0 { payload := .float 2, known := true },
    .attach 0 { payload := .int 0, known := true, impossible := true }, .attach 0 (.ofValue 5)]

/-- The second known integer stands at the place of the first one, and the other facts stand behind it. -/
theorem facts_arranged_attachedTwice :
    ∃ d, Draft.performAll? { file := "a.c" } attachedTwice = some d ∧ ∃ t, d.finish.listing[1]? = some t ∧
      t.valueFact? = some (.ofValue 5) ∧ Fact.ofDomain (some .int) t.label.facts = [.ofValue 5] ∧
      Fact.ofDomain (some .float) t.label.facts = [{ payload := .float 2, known := true }] ∧
      Fact.ofDomain none t.label.facts =
        [{ payload := .int 3 }, { payload := .int 0, known := true, impossible := true }] ∧
      t.label.facts.map Fact.domain? = [some .int, none, some .float, none] := by
  obtain ⟨d, t, hd, ht, hid⟩ : ∃ d t, Draft.performAll? { file := "a.c" } attachedTwice = some d ∧
      d.finish.listing[1]? = some t ∧ t.id = 0 := ⟨_, _, rfl, rfl, rfl⟩
  obtain ⟨⟨hlast, hrest, hplace⟩, hvalue⟩ := facts_arranged hd (List.mem_of_getElem? ht)
  rw [hid] at hlast hrest hplace hvalue
  exact ⟨d, hd, t, ht, hvalue, hlast .int, hlast .float, hrest, hplace⟩

end Draft

end ConditionLint
