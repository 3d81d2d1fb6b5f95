import ConditionLint.Proofs.Layout
import ConditionLint.Proofs.Likeness
import ConditionLint.Proofs.Resolution

/-!
# Likeness as a partial equivalence

Two expressions are the same when what is left of them at the top is alike: leaves that agree, binary nodes
whose operands are the same in order or exchanged, or nodes with the same operands one by one. All of these
can be read from either side, so likeness is symmetric. It is transitive as long as no name that stands for
nothing known is spelled like an enumerator: such a name agrees with the enumerator by spelling and with no
constant by value. It is not reflexive, since assignments, increments and calls that may modify state are
not the same as themselves.
-/

namespace ConditionLint

/-- Turning an operator around twice changes nothing. -/
theorem BinaryOp.flip_flip (op : BinaryOp) : op.flip.flip = op := by
  cases op with
  | compare o => rw [flip, flip, Order.swap_swap]
  | _ => rfl

/-- Whether a node of this kind is compared as a leaf. -/
def Kind.isLeaf : Kind → Bool
  | literal _ => true
  | identifier _ _ => true
  | _ => false

/-- A name that refers to no variable is an enumerator exactly when it is spelled like one. A reference is no
enumerator. -/
def Label.IsNamed (enumerators : String → Prop) (l : Label) : Prop :=
  ∀ name e, l.kind = .identifier name e →
    match l.referent with
    | none => e ≠ none ↔ enumerators name
    | some _ => e = none

namespace Tree

/-! ## Operators and labels -/

/-- Operands may be exchanged under operators that commute and under comparisons, which are then turned
around. -/
theorem agreeSwapped_iff {op op' : BinaryOp} : agreeSwapped op op' = true ↔
    (op.isCommutative = true ∨ op.isComparison = true) ∧ op.flip = op' := by
  unfold agreeSwapped
  by_cases hcomm : op.isCommutative = true
  · have hflip : op.flip = op := by
      cases op with
      | compare o => cases o <;> simp_all [BinaryOp.isCommutative, Order.isEquality, BinaryOp.flip, Order.swap]
      | _ => rfl
    simp [hcomm, hflip]
  · simp [hcomm]

/-- An assignment never has its operands exchanged. -/
theorem isAssignment_of_agreeSwapped {op op' : BinaryOp} (h : agreeSwapped op op' = true) :
    op.isAssignment = false ∧ op'.isAssignment = false := by
  obtain ⟨hop, rfl⟩ := agreeSwapped_iff.mp h
  cases op <;>
    simp_all [BinaryOp.isCommutative, BinaryOp.isComparison, BinaryOp.flip, BinaryOp.isAssignment]

/-- Exchanging operands goes both ways. -/
theorem agreeSwapped_symm {op op' : BinaryOp} (h : agreeSwapped op op' = true) :
    agreeSwapped op' op = true := by
  obtain ⟨hop, rfl⟩ := agreeSwapped_iff.mp h
  refine agreeSwapped_iff.mpr ⟨?_, op.flip_flip⟩
  cases op with
  | compare o => exact Or.inr rfl
  | _ => exact hop

/-- Exchanging operands twice leads back to the operator. -/
theorem eq_of_agreeSwapped_agreeSwapped {op op' op'' : BinaryOp} (h : agreeSwapped op op' = true)
    (h' : agreeSwapped op' op'' = true) : op = op'' := by
  rw [← (agreeSwapped_iff.mp h').2, ← (agreeSwapped_iff.mp h).2, op.flip_flip]

/-- Labels agree whichever comes first. -/
theorem labelsAgree_comm (l m : Label) : labelsAgree l m = labelsAgree m l := by
  unfold labelsAgree
  cases l.kind <;> cases m.kind <;> grind

/-- Labels that agree with a third one agree. -/
theorem labelsAgree_trans {l m n : Label} (h : labelsAgree l m = true) (h' : labelsAgree m n = true) :
    labelsAgree l n = true := by
  unfold labelsAgree at h h' ⊢
  split at h <;> grind

/-- The operands of leaves and of binary nodes are not compared one by one. -/
theorem of_labelsAgree {l m : Label} (h : labelsAgree l m = true) :
    l.kind.isLeaf = false ∧ ∀ op, l.kind ≠ .binary op := by
  unfold labelsAgree at h
  split at h <;> simp_all [Kind.isLeaf]

/-! ## Floating numbers -/

section Floating

open Float.Model (UnpackedFloat)

/-- What floating numbers are compared by: sign, mantissa and exponent, where an infinite number has the sign only
and both zeros are the same. What is not a number is not the same as anything. -/
def compared? : UnpackedFloat → Option (Option (UnpackedFloat.Sign × Option (ℕ × ℤ)))
  | .notANumber => none
  | .zero _ => some none
  | .infinity s => some (some (s, none))
  | .finite s m e _ => some (some (s, some (m, e)))

/-- Floating numbers are the same when what they are compared by is. -/
theorem beq_unpacked_iff (a b : UnpackedFloat) :
    a.beq b = true ↔ (compared? a).isSome ∧ compared? a = compared? b := by
  have hsign (s : UnpackedFloat.Sign) : compare s s = .eq := by cases s <;> rfl
  have hthen (m n : ℕ) (i j : ℤ) : ((compare i j).then (compare m n)) = .eq ↔ m = n ∧ i = j := by
    rw [Ordering.then_eq_eq, compare_eq_iff_eq, compare_eq_iff_eq, and_comm]
  delta UnpackedFloat.beq UnpackedFloat.compare
  rcases a with ⟨_ | _⟩ | _ | ⟨_⟩ | ⟨_ | _, m, i, hm⟩ <;> rcases b with ⟨_ | _⟩ | _ | ⟨_⟩ | ⟨_ | _, n, j, hn⟩ <;>
    dsimp only [compared?] <;> simp [hsign, hthen]

/-- Equality of floating numbers is symmetric. -/
theorem float_beq_comm (x y : Float) : (x == y) = (y == x) := by
  have hxy := beq_unpacked_iff x.toModel.unpack y.toModel.unpack
  have hyx := beq_unpacked_iff y.toModel.unpack x.toModel.unpack
  change x.toModel.unpack.beq y.toModel.unpack = y.toModel.unpack.beq x.toModel.unpack
  rw [Bool.eq_iff_iff, hxy, hyx]
  grind

/-- Equality of floating numbers is transitive. -/
theorem float_beq_trans {x y z : Float} (hxy : (x == y) = true) (hyz : (y == z) = true) : (x == z) = true := by
  obtain ⟨hsome, hxy⟩ := (beq_unpacked_iff x.toModel.unpack y.toModel.unpack).mp hxy
  obtain ⟨-, hyz⟩ := (beq_unpacked_iff y.toModel.unpack z.toModel.unpack).mp hyz
  exact (beq_unpacked_iff x.toModel.unpack z.toModel.unpack).mpr ⟨hsome, hxy.trans hyz⟩

end Floating

/-! ## Leaves -/

/-- Leaves agree whichever comes first. -/
theorem leavesAgree_comm (t u : Tree) : leavesAgree t u = leavesAgree u t := by
  unfold leavesAgree
  cases t.spelledValue? <;> cases u.spelledValue? <;> grind [float_beq_comm]

/-- Only leaves agree as leaves. -/
theorem isLeaf_of_leavesAgree {t u : Tree} (h : leavesAgree t u = true) : t.kind.isLeaf = true := by
  unfold leavesAgree spelledValue? at h
  split at h <;> grind [Kind.isLeaf]

section Names

variable {enumerators : String → Prop} {r s t : Tree}

/-- Leaves that agree spell the same integer, or none. Without the condition on names an enumerator agrees
with a name that spells none. -/
theorem spelledValue?_eq_of_leavesAgree (hs : s.label.IsNamed enumerators)
    (ht : t.label.IsNamed enumerators) (h : leavesAgree s t = true) :
    s.spelledValue? = t.spelledValue? := by
  unfold leavesAgree at h
  split at h
  · next hv hw => rw [hv, hw, of_decide_eq_true h]
  · next hspelled =>
    split at h
    · next hkind hkind' => simp [spelledValue?, hkind, hkind', Literal.int?]
    · next hkind hkind' => simp [spelledValue?, hkind, hkind', Literal.int?]
    · next name e name' e' hkind hkind' =>
      have hname := hs name e hkind
      have hname' := ht name' e' hkind'
      rw [spelledValue?, spelledValue?, hkind, hkind'] at hspelled ⊢
      cases hv : s.label.referent <;> cases hw : t.label.referent <;> simp_all [varId?, referent]
      cases e <;> cases e' <;> simp_all
    · contradiction

/-- Leaves that agree with a third one agree, if enumerators are told by their names. -/
theorem leavesAgree_trans (hr : r.label.IsNamed enumerators) (hs : s.label.IsNamed enumerators)
    (ht : t.label.IsNamed enumerators) (hrs : leavesAgree r s = true) (hst : leavesAgree s t = true) :
    leavesAgree r t = true := by
  have hleft := spelledValue?_eq_of_leavesAgree hr hs hrs
  have hright := spelledValue?_eq_of_leavesAgree hs ht hst
  unfold leavesAgree at hrs hst ⊢
  cases hspelled : s.spelledValue? <;>
    simp only [hleft, ← hright, hspelled, decide_true] at hrs hst ⊢
  split at hrs <;> grind [float_beq_trans]

end Names

/-! ## One step of likeness -/

/-- How two nodes from whose tops nothing is dropped are the same. -/
inductive Alike : Tree → Tree → Prop
  | leaf {t u : Tree} (agree : leavesAgree t u = true) : Alike t u
  | inOrder {l m : Label} {op : BinaryOp} {a b c d : Tree} (left : l.kind = .binary op)
      (right : m.kind = .binary op) (effectless : op.isAssignment = false) (first : same a c = true)
      (second : same b d = true) : Alike (node l [a, b]) (node m [c, d])
  | exchanged {l m : Label} {op op' : BinaryOp} {a b c d : Tree} (left : l.kind = .binary op)
      (right : m.kind = .binary op') (swap : agreeSwapped op op' = true) (first : same a d = true)
      (second : same b c = true) : Alike (node l [a, b]) (node m [c, d])
  | oneByOne {l m : Label} {ts us : List Tree} (agree : labelsAgree l m = true)
      (all : sameAll ts us = true) : Alike (node l ts) (node m us)

/-- A leaf is like another node when they agree as leaves. -/
theorem alike_leaf_iff {t u : Tree} (ht : t.kind.isLeaf = true) :
    Alike t u ↔ leavesAgree t u = true := by
  refine ⟨fun h => ?_, .leaf⟩
  cases h with
  | leaf agree => exact agree
  | inOrder left => simp [kind, label, left, Kind.isLeaf] at ht
  | exchanged left => simp [kind, label, left, Kind.isLeaf] at ht
  | oneByOne agree => simp [kind, label, of_labelsAgree agree] at ht

/-- A binary operator is like the same one with its operands in order, or like the one turned around with the operands
exchanged. -/
theorem alike_pair_iff {l : Label} {op : BinaryOp} {a b u : Tree} (hl : l.kind = .binary op) :
    Alike (node l [a, b]) u ↔ ∃ op' c d, u.binary? = some (op', c, d) ∧
      op.isAssignment = false ∧ op'.isAssignment = false ∧
        (op = op' ∧ same a c = true ∧ same b d = true ∨
          agreeSwapped op op' = true ∧ same a d = true ∧ same b c = true) := by
  constructor
  · intro h
    cases h with
    | leaf agree =>
      exact absurd (isLeaf_of_leavesAgree agree) (by simp [kind, label, hl, Kind.isLeaf])
    | @inOrder _ m op' _ _ c d left right effectless first second =>
      obtain rfl : op = op' := by simpa [hl] using left
      exact ⟨op, c, d, by simp [binary?, right], effectless, effectless, Or.inl ⟨rfl, first, second⟩⟩
    | @exchanged _ m op₁ op' _ _ c d left right swap first second =>
      obtain rfl : op = op₁ := by simpa [hl] using left
      obtain ⟨hop, hop'⟩ := isAssignment_of_agreeSwapped swap
      exact ⟨op', c, d, by simp [binary?, right], hop, hop', Or.inr ⟨swap, first, second⟩⟩
    | oneByOne agree all => exact absurd hl ((of_labelsAgree agree).2 op)
  · rintro ⟨op', c, d, hu, hop, hop', hoperands⟩
    obtain ⟨m, rfl, hm⟩ := eq_node_of_binary? hu
    rcases hoperands with ⟨rfl, hac, hbd⟩ | ⟨hswap, had, hbc⟩
    · exact .inOrder hl hm hop hac hbd
    · exact .exchanged hl hm hswap had hbc

/-- Any other node is like one whose label agrees and whose operands are the same one by one. -/
theorem alike_other_iff {l : Label} {ts : List Tree} {u : Tree} (hl : l.kind.isLeaf = false)
    (hpair : ∀ op a b, l.kind = .binary op → ts ≠ [a, b]) :
    Alike (node l ts) u ↔ labelsAgree l u.label = true ∧ sameAll ts u.operands = true := by
  constructor
  · intro h
    cases h with
    | leaf agree => exact absurd (isLeaf_of_leavesAgree agree) (by simp [kind, label, hl])
    | inOrder left => exact absurd rfl (hpair _ _ _ left)
    | exchanged left => exact absurd rfl (hpair _ _ _ left)
    | oneByOne agree all => exact ⟨agree, all⟩
  · rintro ⟨agree, all⟩
    cases u
    exact .oneByOne agree all

/-- A single operand is compared with a single operand. -/
theorem alike_single_iff {l : Label} {t u : Tree} (hl : l.kind.isLeaf = false) :
    Alike (node l [t]) u ↔ ∃ m v, u = node m [v] ∧ labelsAgree l m = true ∧ same t v = true := by
  rw [alike_other_iff hl (by simp)]
  rcases u with ⟨m, _ | ⟨v, _ | ⟨w, rest⟩⟩⟩ <;> simp [sameAll, operands, label]

/-- Expressions are the same exactly when what is left of them at the top is alike. -/
theorem same_iff_alike {t u : Tree} : same t u = true ↔ Alike t.core u.core := by
  fun_induction core t with
  | case1 l l' inner hkind hkind' ih => simpa [same, hkind, hkind'] using ih
  | case2 l l' inner hkind hkind' =>
    rw [alike_single_iff (by simp [hkind, Kind.isLeaf])]
    rw [same.eq_def]
    simp only [hkind, if_neg hkind']
    split <;> simp_all
  | case3 l callee object hkind hcallee ih => simpa [same, hkind, hcallee] using ih
  | case4 l callee object hkind hcallee =>
    rw [alike_single_iff (by simp [hkind, Kind.isLeaf])]
    rw [same.eq_def]
    simp only [hkind, if_neg hcallee]
    split <;> simp_all
  | case5 l ts hnot hcall =>
    rw [same.eq_def]
    simp only
    split
    · next hl => exact absurd rfl (hnot _ _ hl)
    · next hl => exact absurd rfl (hcall _ _ hl)
    · next hl =>
      rw [alike_pair_iff hl]
      split <;> simp_all [and_assoc]
    · next hl => rw [alike_leaf_iff (by simp [kind, label, hl, Kind.isLeaf])]
    · next hl => rw [alike_leaf_iff (by simp [kind, label, hl, Kind.isLeaf])]
    · next hliteral hname _ _ hpair =>
      rw [alike_other_iff (by grind [Kind.isLeaf]) hpair, Bool.and_eq_true]

/-- A leaf is its own core. -/
@[simp] theorem core_leaf (l : Label) : (node l []).core = node l [] := by
  simp [core]

/-- So is a binary operator. -/
@[simp] theorem core_pair (l : Label) (a b : Tree) : (node l [a, b]).core = node l [a, b] := by
  simp [core]

/-- Two leaves are the same when they agree. -/
theorem same_leaves {l m : Label} (hl : l.kind.isLeaf = true) :
    same (node l []) (node m []) = leavesAgree (node l []) (node m []) := by
  rw [Bool.eq_iff_iff, same_iff_alike, core_leaf, core_leaf]
  exact alike_leaf_iff hl

/-- Induction over what likeness goes on with: the operands of what is left at the top. -/
theorem induction_core {P : Tree → Prop} (step : ∀ t : Tree, (∀ a ∈ t.core.operands, P a) → P t)
    (t : Tree) : P t := by
  apply step
  induction t using induction_two_levels with
  | step l ts ih =>
    have hself : ∀ a ∈ (node l ts).operands, P a := fun a ha => step a (ih a ha).1
    rw [core.eq_def]
    simp only
    split
    · next l' inner hkind =>
      split
      · exact (ih (node l' [inner]) List.mem_cons_self).2 inner List.mem_cons_self
      · exact hself
    · next callee object hkind =>
      split
      · exact (ih object List.mem_cons_self).1
      · exact hself
    · exact hself

/-! ## Symmetry -/

/-- Likeness of lists is symmetric where likeness of their entries is. -/
theorem sameAll_symm {ts us : List Tree} (hts : ∀ t ∈ ts, ∀ u, same t u = true → same u t = true)
    (h : sameAll ts us = true) : sameAll us ts = true := by
  induction ts generalizing us with
  | nil =>
    rw [eq_nil_of_sameAll h]
    rfl
  | cons t ts ih =>
    obtain ⟨u, rest, rfl, hu, hrest⟩ := eq_cons_of_sameAll h
    rw [sameAll, Bool.and_eq_true]
    exact ⟨hts t List.mem_cons_self u hu, ih (fun t ht => hts t (List.mem_cons_of_mem _ ht)) hrest⟩

/-- Being alike is symmetric where likeness of the operands is. -/
theorem Alike.symm {t u : Tree} (hts : ∀ a ∈ t.operands, ∀ u, same a u = true → same u a = true)
    (h : Alike t u) : Alike u t := by
  cases h with
  | leaf agree =>
    apply leaf
    rwa [leavesAgree_comm]
  | @inOrder _ _ _ a b c d left right effectless first second =>
    apply inOrder right left effectless
    · exact hts a (by simp [operands]) c first
    · exact hts b (by simp [operands]) d second
  | @exchanged _ _ _ _ a b c d left right swap first second =>
    apply exchanged right left (agreeSwapped_symm swap)
    · exact hts b (by simp [operands]) c second
    · exact hts a (by simp [operands]) d first
  | oneByOne agree all =>
    apply oneByOne
    · rwa [labelsAgree_comm]
    · exact sameAll_symm hts all

/-- Being the same is symmetric. -/
theorem same_symm {t u : Tree} (h : same t u = true) : same u t = true := by
  induction t using induction_core generalizing u with
  | step t ih =>
    rw [same_iff_alike] at h ⊢
    exact h.symm fun a ha u => ih a ha

/-- Whether two expressions are the same does not depend on which one comes first. -/
theorem same_comm (t u : Tree) : same t u = same u t :=
  Bool.eq_iff_iff.mpr ⟨same_symm, same_symm⟩

/-! ## Transitivity -/

/-- Likeness of lists is transitive where likeness of their entries is. -/
theorem sameAll_trans {rs ss ts : List Tree}
    (hall : ∀ r ∈ rs, ∀ s ∈ ss, ∀ t ∈ ts, same r s = true → same s t = true → same r t = true)
    (h : sameAll rs ss = true) (h' : sameAll ss ts = true) : sameAll rs ts = true := by
  induction rs generalizing ss ts with
  | nil =>
    obtain rfl := eq_nil_of_sameAll h
    exact h'
  | cons r rs ih =>
    obtain ⟨s, ss, rfl, hs, h⟩ := eq_cons_of_sameAll h
    obtain ⟨t, ts, rfl, ht, h'⟩ := eq_cons_of_sameAll h'
    rw [sameAll, Bool.and_eq_true]
    constructor
    · exact hall r List.mem_cons_self s List.mem_cons_self t List.mem_cons_self hs ht
    · refine ih (fun r hr s hs t ht => ?_) h h'
      exact hall r (List.mem_cons_of_mem _ hr) s (List.mem_cons_of_mem _ hs) t (List.mem_cons_of_mem _ ht)

/-- Being alike is transitive where agreement of leaves and likeness of operands are. The node in the middle
is compared in the same way with both others. -/
theorem Alike.trans {r s t : Tree}
    (hleaves : leavesAgree r s = true → leavesAgree s t = true → leavesAgree r t = true)
    (hall : ∀ a ∈ r.operands, ∀ b ∈ s.operands, ∀ c ∈ t.operands,
      same a b = true → same b c = true → same a c = true)
    (h : Alike r s) (h' : Alike s t) : Alike r t := by
  cases h with
  | leaf agree =>
    have hleaf : s.kind.isLeaf = true := isLeaf_of_leavesAgree (leavesAgree_comm r s ▸ agree)
    exact .leaf (hleaves agree ((alike_leaf_iff hleaf).mp h'))
  | @inOrder _ _ _ a b c d left right effectless first second =>
    obtain ⟨op', e, f, ht, -, -, hoperands⟩ := (alike_pair_iff right).mp h'
    obtain ⟨n, rfl, hn⟩ := eq_node_of_binary? ht
    rcases hoperands with ⟨rfl, hce, hdf⟩ | ⟨hswap, hcf, hde⟩
    · apply inOrder left hn effectless
      · exact hall a (by simp [operands]) c (by simp [operands]) e (by simp [operands]) first hce
      · exact hall b (by simp [operands]) d (by simp [operands]) f (by simp [operands]) second hdf
    · apply exchanged left hn hswap
      · exact hall a (by simp [operands]) c (by simp [operands]) f (by simp [operands]) first hcf
      · exact hall b (by simp [operands]) d (by simp [operands]) e (by simp [operands]) second hde
  | @exchanged _ _ _ _ a b c d left right swap first second =>
    obtain ⟨op', e, f, ht, -, -, hoperands⟩ := (alike_pair_iff right).mp h'
    obtain ⟨n, rfl, hn⟩ := eq_node_of_binary? ht
    rcases hoperands with ⟨rfl, hce, hdf⟩ | ⟨hswap, hcf, hde⟩
    · apply exchanged left hn swap
      · exact hall a (by simp [operands]) d (by simp [operands]) f (by simp [operands]) first hdf
      · exact hall b (by simp [operands]) c (by simp [operands]) e (by simp [operands]) second hce
    · obtain rfl := eq_of_agreeSwapped_agreeSwapped swap hswap
      apply inOrder left hn (isAssignment_of_agreeSwapped swap).1
      · exact hall a (by simp [operands]) d (by simp [operands]) e (by simp [operands]) first hde
      · exact hall b (by simp [operands]) c (by simp [operands]) f (by simp [operands]) second hcf
  | oneByOne agree all =>
    have hback := of_labelsAgree (labelsAgree_comm _ _ ▸ agree)
    obtain ⟨agree', all'⟩ := (alike_other_iff hback.1 fun op a b hop => absurd hop (hback.2 op)).mp h'
    rcases t with ⟨n, ts⟩
    exact .oneByOne (labelsAgree_trans agree agree') (sameAll_trans hall all all')

/-- What operands inherit from a node holds for what is left of an expression at the top. -/
theorem of_core {P : Tree → Prop} (hoperand : ∀ t, P t → ∀ a ∈ t.operands, P a) {t : Tree} (h : P t) :
    P t.core := by
  fun_induction core t with
  | case1 l l' inner _ _ ih =>
    have hnegated := hoperand _ h _ (List.mem_singleton_self (Tree.node l' [inner]))
    exact ih (hoperand _ hnegated _ (List.mem_singleton_self inner))
  | case3 l callee object _ _ ih => exact ih (hoperand _ h _ (List.mem_singleton_self object))
  | _ => exact h

/-- What is left of an expression at the top has the properties of the expression. -/
theorem Everywhere.core {P : Label → Prop} {t : Tree} (h : t.Everywhere P) : t.core.Everywhere P :=
  of_core (fun _ ht _ => ht.operand) h

/-- Likeness is transitive among expressions with the same enumerators. -/
theorem same_trans {enumerators : String → Prop} {r s t : Tree}
    (hr : r.Everywhere (Label.IsNamed enumerators)) (hs : s.Everywhere (Label.IsNamed enumerators))
    (ht : t.Everywhere (Label.IsNamed enumerators)) (hrs : same r s = true) (hst : same s t = true) :
    same r t = true := by
  induction r using induction_core generalizing s t with
  | step r ih =>
    rw [same_iff_alike] at hrs hst ⊢
    apply Alike.trans _ _ hrs hst
    · exact leavesAgree_trans hr.core.label hs.core.label ht.core.label
    · intro a ha b hb c hc
      exact ih a ha (hr.core.operand ha) (hs.core.operand hb) (ht.core.operand hc)

/-- The spelling of a name that is neither a variable nor an enumerator. -/
def unresolvedName? (t : Tree) : Option String :=
  match t.kind, t.referent with
  | .identifier name none, none => some name
  | _, _ => none

/-- The spelling of an enumerator. -/
def enumeratorName? (t : Tree) : Option String :=
  match t.kind with
  | .identifier name (some _) => some name
  | _ => none

end Tree

namespace Draft

open ConditionLint.Tree

/-- No name that is neither a variable nor an enumerator is spelled like an enumerator. -/
def NamesApart (d : Draft) : Prop :=
  ∀ s ∈ d.nodes, ∀ t ∈ d.nodes, ∀ name ∈ s.unresolvedName?, t.enumeratorName? ≠ some name

instance (d : Draft) : Decidable d.NamesApart :=
  inferInstanceAs (Decidable (∀ s ∈ d.nodes, ∀ t ∈ d.nodes, ∀ name ∈ s.unresolvedName?,
    t.enumeratorName? ≠ some name))

/-- All that stands below a node is a node, so what holds at the top of every node holds everywhere in it. -/
theorem IsNumbered.everywhere {d : Draft} (h : d.IsNumbered) {P : Label → Prop}
    (hP : ∀ t ∈ d.nodes, P t.label) {t : Tree} (ht : t ∈ d.nodes) : t.Everywhere P := by
  induction t using induction_operands with
  | step l ts ih => exact .node (hP _ ht) fun a ha => ih a ha (h.ordered _ ht a ha).1

/-- The enumerators of a draft. -/
def IsEnumerator (d : Draft) (name : String) : Prop := ∃ t ∈ d.nodes, t.enumeratorName? = some name

/-- Where names are apart, a name without a variable is an enumerator exactly when it is spelled like one. -/
theorem NamesApart.isNamed {d : Draft} (h : d.NamesApart) (hresolved : d.IsResolved) {t : Tree}
    (ht : t ∈ d.nodes) : t.label.IsNamed d.IsEnumerator := by
  intro name e hkind
  split
  · next hreferent =>
    constructor
    · intro he
      obtain ⟨v, rfl⟩ := Option.ne_none_iff_exists'.mp he
      exact ⟨t, ht, by simp [enumeratorName?, kind, hkind]⟩
    · rintro ⟨s, hs, hname⟩ rfl
      exact h t ht s hs name (by simp [unresolvedName?, kind, hkind, referent, hreferent]) hname
  · next v hreferent =>
    have hname := ((hresolved.resolved t ht).label v hreferent).2
    simp_all

end Draft

open ConditionLint.Tree in
/-- Likeness is symmetric. Among the nodes of a unit it is transitive where no name that is neither a variable
nor an enumerator is spelled like an enumerator. -/
theorem same_partialEquivalence {file : String} {actions : List Action} {d : Draft}
    (h : Draft.performAll? { file := file } actions = some d) :
    (∀ s t : Tree, same s t = same t s) ∧
      (d.NamesApart → ∀ r ∈ d.finish.listing, ∀ s ∈ d.finish.listing, ∀ t ∈ d.finish.listing,
        same r s = true → same s t = true → same r t = true) := by
  refine ⟨same_comm, fun hapart => ?_⟩
  have hnamed : ∀ t ∈ d.finish.listing, t.Everywhere (Label.IsNamed d.IsEnumerator) := by
    intro t ht
    apply Everywhere.of_mem_listing _ _ ht
    · intro l m hkind hreferent hl
      unfold Label.IsNamed at hl ⊢
      rwa [hkind, hreferent]
    · intro t ht
      apply (Draft.isNumbered_of_performAll? h).everywhere _ ht
      intro t ht
      exact hapart.isNamed (Draft.isResolved_of_performAll? h) ht
  intro r hr s hs t ht
  exact same_trans (hnamed r hr) (hnamed s hs) (hnamed t ht)

/-- For a name `w` that is declared nowhere and an enumerator `A` that is three: `w < 3`, `A > w` and
`!!(w < A)`. -/
def threeWordings : List Action :=
  [.name "w", .literal (.int 3 "3") .int, .binary (.compare .lt) 0 1,
    .enumerator "A" 3, .name "w", .binary (.compare .gt) 3 4,
    .name "w", .enumerator "A" 3, .binary (.compare .lt) 6 7, .unary .not 8, .unary .not 9]

/-- The first wording is the same as the second and the second as the third, so the first is the same as the
third. -/
theorem same_partialEquivalence_threeWordings :
    ∃ d, Draft.performAll? { file := "main.c" } threeWordings = some d ∧ d.NamesApart ∧
      ∃ r s t, d.finish.listing[0]? = some r ∧ d.finish.listing[3]? = some s ∧
        d.finish.listing[6]? = some t ∧ Tree.same r s = true ∧ Tree.same s t = true ∧
          Tree.same r t = true ∧ Tree.same s r = true := by
  have hd : Draft.performAll? { file := "main.c" } threeWordings = some _ := rfl
  obtain ⟨hsymmetric, htransitive⟩ := same_partialEquivalence hd
  refine ⟨_, hd, by decide, _, _, _, rfl, rfl, rfl, by decide, by decide, ?_, ?_⟩
  · exact htransitive (by decide) _ (List.mem_of_getElem? (i := 0) rfl) _ (List.mem_of_getElem? (i := 3) rfl)
      _ (List.mem_of_getElem? (i := 6) rfl) (by decide) (by decide)
  · rw [hsymmetric]
    decide

end ConditionLint
