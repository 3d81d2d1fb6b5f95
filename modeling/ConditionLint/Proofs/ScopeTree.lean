import ConditionLint.Proofs.Scope
import ConditionLint.Proofs.SourceOrder

/-!
# The tree of scopes

In a unit without shared nodes, a node lies in the scope that is opened by the innermost node around it that opens
one. Every scope but the global one has a body of its own, and lies in the scope of the node under which its body
stands, which was opened before. A node belongs to the function whose body it lies in; when several functions have
the same body, this is the last of them.
-/

namespace ConditionLint

open ConditionLint.Tree

/-- An operand of a node opens a scope when it is the body or the else branch of a statement, or a block in a
block. -/
theorem Tree.IsUnshared.isSome_opens? {t a : Tree} (h : t.IsUnshared) {i : Nat} (ha : t.operands[i]? = some a) :
    (a.opens? t.kind i).isSome = (t.body?.any (fun b => b.id == a.id) ||
      t.elseBranch?.any (fun b => b.id == a.id) || t.isBlock && a.isBlock) := by
  have hindex (j : Nat) : (t.operand? j).any (fun b => b.id == a.id) = (j == i) := by
    by_cases hij : j = i
    · simp [operand?, hij, ha]
    · rw [beq_eq_false_iff_ne.mpr hij, operand?]
      cases hb : t.operands[j]? with
      | none => rfl
      | some b =>
        refine beq_eq_false_iff_ne.mpr fun hid => ?_
        have hdisjoint := h.disjoint_operands hij hb ha
        exact hdisjoint (id_mem_ids (mem_subtrees_self b)) (hid ▸ id_mem_ids (mem_subtrees_self a))
  have hbody : t.body?.any (fun b => b.id == a.id) = (t.keyword?.bind Keyword.bodyIndex?).any (· == i) := by
    rw [body?]
    cases t.keyword?.bind Keyword.bodyIndex? with
    | none => rfl
    | some j => exact hindex j
  have helse : t.elseBranch?.any (fun b => b.id == a.id) = (t.isIf && 2 == i) := by
    rw [elseBranch?]
    cases t.isIf with
    | false => rfl
    | true => exact hindex 2
  rw [hbody, helse, isBlock]
  unfold keyword? isIf opens?
  cases t.kind with
  | keyword k => cases k <;> rcases i with _ | _ | _ | _ | i <;> rfl
  | block => cases a.isBlock <;> rfl
  | _ => rfl

namespace Draft

variable (functions : List Function) (f : Function) (body : NodeId)

/-- The function declared last comes first. -/
theorem ownerOf?_concat : ownerOf? (functions ++ [f]) body =
    if f.body = body then some functions.length else ownerOf? functions body := by
  by_cases hbody : f.body = body <;> simp [ownerOf?, List.zipIdx_append, hbody]

/-- The owner of a body is the last function with that body. -/
theorem ownerOf?_eq_some_iff {functions : List Function} {k : FunctionId} : ownerOf? functions body = some k ↔
    ∃ f, functions[k]? = some f ∧ f.body = body ∧
      ∀ (j : Nat) (g : Function), k < j → functions[j]? = some g → g.body ≠ body := by
  induction functions using List.reverseRecOn with
  | nil => simp [ownerOf?]
  | append_singleton functions f ih =>
    have hlast : (functions ++ [f])[functions.length]? = some f := List.getElem?_concat_length
    have hearlier {j : Nat} {g : Function} (hg : functions[j]? = some g) : (functions ++ [f])[j]? = some g := by
      rw [List.getElem?_append_left (List.getElem?_eq_some_iff.mp hg).1, hg]
    rw [ownerOf?_concat]
    by_cases hbody : f.body = body
    · rw [if_pos hbody, Option.some.injEq]
      constructor
      · rintro rfl
        refine ⟨f, hlast, hbody, fun j g hj hg => ?_⟩
        rw [List.getElem?_eq_none (by simpa using Nat.succ_le_of_lt hj)] at hg
        contradiction
      · rintro ⟨g, hg, -, hlater⟩
        rcases of_getElem?_concat hg with hg | ⟨rfl, -⟩
        · exact absurd hbody (hlater _ f (List.getElem?_eq_some_iff.mp hg).1 hlast)
        · rfl
    · rw [if_neg hbody, ih]
      constructor
      · rintro ⟨g, hg, hgbody, hlater⟩
        refine ⟨g, hearlier hg, hgbody, fun j g' hj hg' => ?_⟩
        rcases of_getElem?_concat hg' with hg' | ⟨-, rfl⟩
        · exact hlater j g' hj hg'
        · exact hbody
      · rintro ⟨g, hg, hgbody, hlater⟩
        rcases of_getElem?_concat hg with hg | ⟨-, rfl⟩
        · exact ⟨g, hg, hgbody, fun j g' hj hg' => hlater j g' hj (hearlier hg')⟩
        · exact absurd hgbody hbody

/-- A body has an owner when some function has it. -/
theorem isSome_ownerOf? : (ownerOf? functions body).isSome = functions.any fun f => f.body == body := by
  induction functions using List.reverseRecOn with
  | nil => rfl
  | append_singleton functions f ih =>
    rw [ownerOf?_concat, List.any_append, ← ih]
    by_cases hbody : f.body = body <;> simp [hbody]

end Draft

namespace SourceUnit

/-- The body of a function knows its function, and no operand is the body of a function. -/
structure KnowsOwners (u : SourceUnit) : Prop where
  owner : ∀ t ∈ u.listing, t.label.owner = Draft.ownerOf? u.functions t.id
  operand : ∀ t ∈ u.listing, ∀ a ∈ t.operands, a.label.owner = none

/-- Whether a node opens a scope: the body of a function, the body or the else branch of a statement, and a block
directly inside a block. -/
def opensScope (u : SourceUnit) (t : Tree) : Bool :=
  (u.functions.any fun f => f.body == t.id) ||
    (u.placeOf t).parent?.any fun s => s.body?.any (fun b => b.id == t.id) ||
      s.elseBranch?.any (fun b => b.id == t.id) || s.isBlock && t.isBlock

/-- The innermost of a node and the nodes above it that opens a scope. -/
def opener? (u : SourceUnit) (t : Tree) : Option Tree := (t :: (u.placeOf t).above).find? u.opensScope

/-- The scope around the node under which a node stands; the global one when it stands under none. -/
def outerScope (u : SourceUnit) (t : Tree) : Nat := (u.placeOf t).parent?.elim 0 u.scopeOf

/-- A node lies in the scope of its opener, or in the global one when it has none. -/
def LiesWithOpener (u : SourceUnit) (t : Tree) : Prop :=
  (u.opener? t).elim (u.scopeOf t = 0) fun b =>
    ∃ s, u.scopes.scopes[u.scopeOf t]? = some s ∧ s.body = some b.id

/-- What the scopes of a unit promise. -/
structure HasScopeTree (u : SourceUnit) : Prop where
  /-- The scope with the number 0 is the global one. -/
  global : u.scopes.scopes[0]? = some ⟨.global, none, none, none⟩
  /-- A node lies in the scope whose body is the innermost of the node and those above it that opens one, or in the
  global scope when none does. -/
  innermost : ∀ t ∈ u.listing, u.LiesWithOpener t
  /-- Different scopes have different bodies. -/
  distinct : ∀ (i j : Nat) (r s : Scope), u.scopes.scopes[i]? = some r → u.scopes.scopes[j]? = some s →
    r.body = s.body → i = j
  /-- A scope other than the global one has a body that opens it, and lies in the scope around the body, which has a
  smaller number. -/
  nested : ∀ (k : Nat) (s : Scope), u.scopes.scopes[k]? = some s → k ≠ 0 → ∃ b ∈ u.listing, s.body = some b.id ∧
    u.opensScope b = true ∧ u.scopeOf b = k ∧ s.parent = some (u.outerScope b) ∧ u.outerScope b < k
  /-- A node belongs to the last function with a body that the node lies in. -/
  function : ∀ t ∈ u.listing, ∀ k, u.function? t = some k ↔ ∃ f, u.functions[k]? = some f ∧
    (∃ b ∈ u.listing, b.id = f.body ∧ u.contains b t = true) ∧
      ∀ (j : Nat) (g : Function), k < j → u.functions[j]? = some g → g.body ≠ f.body

/-- The global scope comes first. -/
theorem getElem?_global (u : SourceUnit) : u.scopes.scopes[0]? = some ⟨.global, none, none, none⟩ :=
  (ScopeTable.start.extends_foldl_addStart u.starts).getElem?_scopes Nat.zero_lt_one

/-- A scope other than the global one has a listed node as its body, which lies in it. -/
theorem IsUnshared.exists_body {u : SourceUnit} (h : u.IsUnshared) {k : Nat} {s : Scope}
    (hs : u.scopes.scopes[k]? = some s) (hk : k ≠ 0) :
    ∃ b ∈ u.listing, s.body = some b.id ∧ u.scopeOf b = k := by
  have hext := ScopeTable.start.extends_foldl_addStart u.starts
  obtain ⟨id, hbody, hid⟩ := hext.bodies k s (Nat.one_le_iff_ne_zero.mpr hk) hs
  obtain ⟨added, hentries, hids⟩ := hext.entries
  have hmem : id ∈ u.listing.map Tree.id := by
    rw [← List.mem_reverse, listing, ← hids]
    rw [hentries, ScopeTable.start, List.append_nil] at hid
    exact List.mem_map_of_mem hid
  obtain ⟨b, hb, rfl⟩ := List.mem_map.mp hmem
  exact ⟨b, hb, hbody, ScopeTable.scopeOf_eq h.nodup_entries hid⟩

/-- Only the global scope has no body. -/
theorem IsUnshared.body_eq_none_iff {u : SourceUnit} (h : u.IsUnshared) {k : Nat} {s : Scope}
    (hs : u.scopes.scopes[k]? = some s) : s.body = none ↔ k = 0 := by
  constructor
  · intro hnone
    by_contra hk
    obtain ⟨b, -, hbody, -⟩ := h.exists_body hs hk
    rw [hnone] at hbody
    contradiction
  · rintro rfl
    rw [u.getElem?_global, Option.some.injEq] at hs
    rw [← hs]

/-- Different scopes have different bodies, since a body lies in its scope. -/
theorem IsUnshared.eq_of_body_eq {u : SourceUnit} (h : u.IsUnshared) {i j : Nat} {r s : Scope}
    (hr : u.scopes.scopes[i]? = some r) (hs : u.scopes.scopes[j]? = some s) (hbody : r.body = s.body) : i = j := by
  by_cases hi : i = 0
  · rw [hi, eq_comm, ← h.body_eq_none_iff hs, ← hbody, h.body_eq_none_iff hr, hi]
  · have hj : j ≠ 0 := by rwa [Ne, ← h.body_eq_none_iff hs, ← hbody, h.body_eq_none_iff hr]
    obtain ⟨b, hb, hrbody, hscope⟩ := h.exists_body hr hi
    obtain ⟨c, hc, hsbody, hscope'⟩ := h.exists_body hs hj
    have hid : b.id = c.id := by rw [← Option.some.injEq, ← hrbody, ← hsbody, hbody]
    rw [← hscope, ← hscope', h.eq_of_id_eq hb hc hid]

/-- A node that opens no scope has the opener of the node under which it stands. -/
theorem opener?_eq {u : SourceUnit} (hl : u.IsLinked) (h : u.IsUnshared) {t : Tree} (ht : t ∈ u.listing) :
    u.opener? t = if u.opensScope t then some t else (u.placeOf t).parent?.bind u.opener? := by
  rw [opener?, List.find?_cons]
  cases u.opensScope t with
  | true => rfl
  | false =>
    rw [hl.above_eq h ht]
    cases (u.placeOf t).parent? <;> rfl

section Owners

variable {u : SourceUnit} (hl : u.IsLinked) (h : u.IsUnshared) (ho : u.KnowsOwners) {s t : Tree}
include hl h ho

/-- A node is taken up in the scope around the node under which it stands, and opens a scope when it is meant to. -/
theorem exists_enters (ht : t ∈ u.listing) : ∃ opens, opens.isSome = u.opensScope t ∧
    u.scopes.Enters (u.outerScope t) t opens (u.scopeOf t) := by
  have howner : (u.functions.any fun f => f.body == t.id) = t.label.owner.isSome := by
    rw [ho.owner t ht, Draft.isSome_ownerOf?]
  rw [opensScope, howner, outerScope]
  rcases h.mem_starts_or_operand ht with hstart | ⟨s, hs, hmem⟩
  · rw [Place.parent?, hl.start t hstart]
    refine ⟨_, ?_, h.enters_start hstart⟩
    cases t.label.owner <;> rfl
  · obtain ⟨i, hi⟩ := List.mem_iff_getElem?.mp hmem
    rw [(hl.parent?_eq_some_iff h hs ht).mpr hmem]
    refine ⟨_, ?_, h.enters_operand hs hi⟩
    rw [(h.isUnshared hs).isSome_opens? hi, ho.operand s hs t hmem]
    rfl

/-- A node that opens no scope lies in the one around it. -/
theorem scopeOf_eq_outerScope (ht : t ∈ u.listing) (hopens : u.opensScope t = false) :
    u.scopeOf t = u.outerScope t := by
  obtain ⟨opens, hsome, henters⟩ := exists_enters hl h ho ht
  rw [hopens] at hsome
  generalize u.scopeOf t = scope at henters
  cases henters with
  | inside entered => rfl
  | opening entered later opened => contradiction

/-- A node that opens a scope is its body, and lies in it. -/
theorem getElem?_scopeOf (ht : t ∈ u.listing) (hopens : u.opensScope t = true) :
    u.outerScope t < u.scopeOf t ∧ ∃ kind, u.scopes.scopes[u.scopeOf t]? =
      some ⟨kind, some t.id, some (u.outerScope t), t.label.owner <|> u.scopes.function? (u.outerScope t)⟩ := by
  obtain ⟨opens, hsome, henters⟩ := exists_enters hl h ho ht
  rw [hopens] at hsome
  generalize u.scopeOf t = scope at henters
  cases henters with
  | inside entered => contradiction
  | opening entered later opened => exact ⟨later, _, opened⟩

/-- A node lies in the scope of its opener when the node under which it stands does. -/
theorem liesWithOpener_of_parent? (ht : t ∈ u.listing)
    (hparent : ∀ s, (u.placeOf t).parent? = some s → u.LiesWithOpener s) : u.LiesWithOpener t := by
  rw [LiesWithOpener, opener?_eq hl h ht]
  by_cases hopens : u.opensScope t = true
  · rw [if_pos hopens]
    obtain ⟨-, kind, hscope⟩ := getElem?_scopeOf hl h ho ht hopens
    exact ⟨_, hscope, rfl⟩
  · rw [if_neg hopens, scopeOf_eq_outerScope hl h ho ht (Bool.eq_false_iff.mpr hopens), outerScope]
    cases hs : (u.placeOf t).parent? with
    | none => rfl
    | some s => exact hparent s hs

/-- Every node lies in the scope of its opener. -/
theorem liesWithOpener (ht : t ∈ u.listing) : u.LiesWithOpener t := by
  refine h.of_mem_listing (P := u.LiesWithOpener) (fun t ht => ?_) (fun t ht ih a ha => ?_) ht
  · refine liesWithOpener_of_parent? hl h ho (mem_listing_of_mem_starts ht) fun s hs => ?_
    rw [Place.parent?, hl.start t ht] at hs
    contradiction
  · have halisted := h.operand_listed ht ha
    refine liesWithOpener_of_parent? hl h ho halisted fun s hs => ?_
    rw [(hl.parent?_eq_some_iff h ht halisted).mpr ha, Option.some.injEq] at hs
    exact hs ▸ ih

/-- The body of a scope opens it: the opener of the body has the number of the body, so it is the body. -/
theorem opensScope_body {k : Nat} {s : Scope} {b : Tree} (hs : u.scopes.scopes[k]? = some s)
    (hb : b ∈ u.listing) (hbody : s.body = some b.id) (hscope : u.scopeOf b = k) (hk : k ≠ 0) :
    u.opensScope b = true := by
  have hopener := liesWithOpener hl h ho hb
  rw [LiesWithOpener] at hopener
  cases hfind : u.opener? b with
  | none =>
    rw [hfind] at hopener
    exact absurd (hscope.symm.trans hopener) hk
  | some o =>
    rw [hfind] at hopener
    obtain ⟨s', hs', hbody'⟩ := hopener
    rw [hscope, hs, Option.some.injEq] at hs'
    have hid : o.id = b.id := by rw [← Option.some.injEq, ← hbody', ← hs', hbody]
    have ho : o ∈ u.listing := by
      rcases List.mem_cons.mp (List.mem_of_find?_eq_some hfind) with rfl | habove
      · exact hb
      · exact (hl.of_mem_above h hb habove).1
    exact h.eq_of_id_eq ho hb hid ▸ List.find?_some hfind

/-- A node belongs to the function that it is the body of, or else to the one of the scope around it. -/
theorem function?_eq (ht : t ∈ u.listing) :
    u.function? t = (t.label.owner <|> u.scopes.function? (u.outerScope t)) := by
  by_cases hopens : u.opensScope t = true
  · obtain ⟨-, kind, hscope⟩ := getElem?_scopeOf hl h ho ht hopens
    have hfunction : u.function? t = u.scopes.scopes[u.scopeOf t]?.bind Scope.function := rfl
    rw [hfunction, hscope]
    rfl
  · have howner : t.label.owner = none := by
      rw [ho.owner t ht, ← Option.not_isSome_iff_eq_none, Draft.isSome_ownerOf?]
      exact fun hany => hopens (by rw [opensScope, hany, Bool.true_or])
    have hfunction : u.function? t = u.scopes.function? (u.scopeOf t) := rfl
    rw [hfunction, scopeOf_eq_outerScope hl h ho ht (Bool.eq_false_iff.mpr hopens), howner]
    rfl

/-- A tree at which the source order begins belongs to the function that it is the body of. -/
theorem function?_start (ht : t ∈ u.starts) : u.function? t = Draft.ownerOf? u.functions t.id := by
  have hlisted := mem_listing_of_mem_starts ht
  have houter : u.outerScope t = 0 := by
    rw [outerScope, Place.parent?, hl.start t ht]
    rfl
  have hglobal : u.scopes.function? 0 = none := by
    rw [ScopeTable.function?, u.getElem?_global]
    rfl
  rw [function?_eq hl h ho hlisted, houter, hglobal, ho.owner t hlisted]
  cases Draft.ownerOf? u.functions t.id <;> rfl

/-- Everything below a node belongs to the function of the node. -/
theorem function?_of_mem_subtrees (ht : t ∈ u.listing) (hs : s ∈ t.subtrees) : u.function? s = u.function? t := by
  refine (of_mem_subtrees (P := fun s => s ∈ u.listing ∧ u.function? s = u.function? t) (fun s hs a ha => ?_)
    ⟨ht, rfl⟩ hs).2
  have halisted := h.operand_listed hs.1 ha
  refine ⟨halisted, ?_⟩
  rw [function?_eq hl h ho halisted, outerScope, (hl.parent?_eq_some_iff h hs.1 halisted).mpr ha,
    ho.operand s hs.1 a ha, ← hs.2]
  rfl

/-- A node belongs to the last function with a body that the node lies in. -/
theorem function?_eq_some_iff (ht : t ∈ u.listing) {k : FunctionId} : u.function? t = some k ↔
    ∃ b ∈ u.listing, t ∈ b.subtrees ∧ Draft.ownerOf? u.functions b.id = some k := by
  constructor
  · intro hfunction
    obtain ⟨start, hstart, hmem⟩ := List.mem_flatMap.mp ht
    have hlisted := mem_listing_of_mem_starts hstart
    rw [function?_of_mem_subtrees hl h ho hlisted hmem, function?_start hl h ho hstart] at hfunction
    exact ⟨start, hlisted, hmem, hfunction⟩
  · rintro ⟨b, hb, hmem, howner⟩
    rw [function?_of_mem_subtrees hl h ho hb hmem]
    rcases h.mem_starts_or_operand hb with hstart | ⟨s, hs, hoperand⟩
    · rw [function?_start hl h ho hstart, howner]
    · rw [← ho.owner b hb, ho.operand s hs b hoperand] at howner
      contradiction

/-- The scopes of a unit without shared nodes form a tree. -/
theorem hasScopeTree : u.HasScopeTree where
  global := u.getElem?_global
  innermost t ht := liesWithOpener hl h ho ht
  distinct i j r s hr hs hbody := h.eq_of_body_eq hr hs hbody
  nested k s hs hk := by
    obtain ⟨b, hb, hbody, hscope⟩ := h.exists_body hs hk
    have hopens := opensScope_body hl h ho hs hb hbody hscope hk
    obtain ⟨hlt, kind, hrecord⟩ := getElem?_scopeOf hl h ho hb hopens
    rw [hscope, hs, Option.some.injEq] at hrecord
    exact ⟨b, hb, hbody, hopens, hscope, by rw [hrecord], hscope ▸ hlt⟩
  function t ht k := by
    rw [function?_eq_some_iff hl h ho ht]
    constructor
    · rintro ⟨b, hb, hmem, howner⟩
      obtain ⟨f, hf, hbody, hlast⟩ := (Draft.ownerOf?_eq_some_iff b.id).mp howner
      exact ⟨f, hf, ⟨b, hb, hbody.symm, (h.contains_iff hb ht).mpr hmem⟩, hbody ▸ hlast⟩
    · rintro ⟨f, hf, ⟨b, hb, hbody, hcontains⟩, hlast⟩
      refine ⟨b, hb, (h.contains_iff hb ht).mp hcontains, (Draft.ownerOf?_eq_some_iff b.id).mpr ?_⟩
      exact ⟨f, hf, hbody.symm, hbody ▸ hlast⟩

end Owners

end SourceUnit

namespace Draft

section Finish

variable {file : String} {actions : List Action} {d : Draft}
  (h : Draft.performAll? { file := file } actions = some d) (hu : d.IsUnshared)
include h hu

/-- In the unit that a draft without shared nodes settles into, the bodies of functions know their functions. -/
theorem knowsOwners_finish : d.finish.KnowsOwners := by
  have hnumbered := isNumbered_of_performAll? h
  have hfree {t : Tree} (hbody : ∀ f ∈ d.functions, f.body ≠ t.id) : ownerOf? d.functions t.id = none := by
    rw [← Option.not_isSome_iff_eq_none, isSome_ownerOf?]
    simpa using hbody
  have hoperand {t a : Tree} (ht : t ∈ d.finish.listing) (ha : a ∈ t.operands) :
      a.label.owner = none ∧ ownerOf? d.functions a.id = none := by
    obtain ⟨n, hn, -, hoperands⟩ := exists_node_of_mem_listing h hu ht
    rw [← hoperands] at ha
    refine ⟨hnumbered.unowned a (hnumbered.ordered n hn a ha).1, hfree fun f hf hbody => hu.apart f hf ?_⟩
    exact List.mem_flatMap.mpr ⟨n, hn, List.mem_map.mpr ⟨a, ha, hbody.symm⟩⟩
  refine ⟨fun t ht => ?_, fun t ht a ha => (hoperand ht ha).1⟩
  rcases (isUnshared_finish h hu).mem_starts_or_operand ht with hstart | ⟨s, hs, hmem⟩
  · rcases List.mem_append.mp ((mem_starts_finish h hu).mp hstart) with hbody | hstart
    · obtain ⟨f, -, -, hnode⟩ := hnumbered.exists_of_mem_bodies hbody
      obtain ⟨⟨l, ts⟩, -, hrelabel⟩ := Option.map_eq_some_iff.mp hnode
      exact congrArg (fun t : Tree => t.label.owner) hrelabel.symm
    · obtain ⟨hn, hisFree⟩ := List.mem_filter.mp hstart
      exact (hnumbered.unowned t hn).trans (hfree (of_isFree hisFree).2).symm
  · exact (hoperand hs hmem).1.trans (hoperand hs hmem).2.symm

/-- A draft in which no node is an operand twice, and no function body is an operand, settles into a unit that has
all its nodes in a tree of scopes. -/
theorem hasScopeTree_finish :
    (d.finish.listing.map Tree.id).Perm (List.range d.nodes.length) ∧ d.finish.HasScopeTree :=
  ⟨perm_finish h hu,
    SourceUnit.hasScopeTree (isLinked_finish h hu) (isUnshared_finish h hu) (knowsOwners_finish h hu)⟩

end Finish

/-- The common body of two functions opens a scope, which belongs to the second of them, and the empty block under
the `if` opens another one inside it. -/
theorem hasScopeTree_finish_sharedBody : ∃ d, Draft.performAll? { file := "a.c" } sharedBody = some d ∧
    d.IsUnshared ∧ d.finish.scopes.scopes = [⟨.global, none, none, none⟩, ⟨.function, some 5, some 0, some 1⟩,
      ⟨.ifBranch, some 3, some 1, some 1⟩] ∧ d.finish.HasScopeTree := by
  refine ⟨_, rfl, by decide, by decide +kernel, ?_⟩
  have hd : Draft.performAll? { file := "a.c" } sharedBody = some _ := rfl
  exact (hasScopeTree_finish hd (by decide)).2

end Draft

end ConditionLint
