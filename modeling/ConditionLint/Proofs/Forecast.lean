import ConditionLint.Check.InnerCondition
import ConditionLint.Proofs.Execution

/-!
# Conditions whose truth is known in advance

A forecast says that a condition, its subject, has a certain truth value whenever something is known about
the variables. It is kept by a run in which every logged evaluation of the subject had that truth value.

A scan of the source order finds a statement that tests the subject, and sees only nodes before it that
store nothing the knowledge depends on, among them no loop that does so anywhere. Such a scan is right for
every run: when the knowledge holds before a statement, every evaluation of the subject in it is as forecast.
On its way to the test a run either stays in what was scanned, or in a branch that does not hold the test,
or it goes round a loop that leaves the knowledge as it is.
-/

namespace ConditionLint

namespace Tree

/-- A tree is reached in a list through trees that satisfy a condition. -/
def Reached (ok : Tree → Prop) (s : Tree) : List Tree → Prop
  | [] => False
  | r :: rs => r = s ∨ ok r ∧ Reached ok s rs

/-- What is reached without a condition is what is in the list. -/
theorem reached_true_iff {s : Tree} {rs : List Tree} : Reached (fun _ => True) s rs ↔ s ∈ rs := by
  induction rs with
  | nil => simp [Reached]
  | cons r rs ih => simp [Reached, ih, eq_comm]

/-- What is reached is in the list. -/
theorem Reached.mem {ok : Tree → Prop} {s : Tree} {rs : List Tree} (h : Reached ok s rs) : s ∈ rs := by
  induction rs with
  | nil => exact h.elim
  | cons r rs ih =>
    rcases h with rfl | ⟨-, h⟩
    · exact List.mem_cons_self
    · exact List.mem_cons_of_mem r (ih h)

/-- A tree in a list is reached when all the trees in front of it satisfy the condition. -/
theorem Reached.of_getElem? {ok : Tree → Prop} {s : Tree} {rs : List Tree} {m : Nat} (hs : rs[m]? = some s)
    (hok : ∀ k < m, ∀ r, rs[k]? = some r → ok r) : Reached ok s rs := by
  induction rs generalizing m with
  | nil => simp at hs
  | cons r rs ih =>
    cases m with
    | zero => exact Or.inl (by simpa using hs)
    | succ m =>
      refine Or.inr ⟨hok 0 (by omega) r rfl, ih (by simpa using hs) fun k hk r' hr' => ?_⟩
      exact hok (k + 1) (by omega) r' (by simpa using hr')

/-- A tree is reached in the first of two lists, or in the second through all of the first. -/
theorem Reached.of_append {ok : Tree → Prop} {s : Tree} {rs rs' : List Tree}
    (h : Reached ok s (rs ++ rs')) : Reached ok s rs ∨ (∀ r ∈ rs, ok r) ∧ Reached ok s rs' := by
  induction rs with
  | nil => exact Or.inr ⟨by simp, h⟩
  | cons r rs ih =>
    rcases h with rfl | ⟨hr, h⟩
    · exact Or.inl (Or.inl rfl)
    · rcases ih h with h | ⟨hrs, h⟩
      · exact Or.inl (Or.inr ⟨hr, h⟩)
      · exact Or.inr ⟨List.forall_mem_cons.mpr ⟨hr, hrs⟩, h⟩

/-- What is reached under a condition is reached under a weaker one. -/
theorem Reached.mono {ok ok' : Tree → Prop} {s : Tree} {rs : List Tree} (h : Reached ok s rs)
    (himp : ∀ r, ok r → ok' r) : Reached ok' s rs := by
  induction rs with
  | nil => exact h
  | cons r rs ih =>
    rcases h with heq | ⟨hr, h⟩
    · exact Or.inl heq
    · exact Or.inr ⟨himp r hr, ih h⟩

/-- In a row of trees, one tree holds what is reached, and the trees in front of it satisfy the condition. -/
theorem Reached.exists_split {ok : Tree → Prop} {s : Tree} {ts : List Tree}
    (h : Reached ok s (ts.flatMap subtrees)) :
    ∃ before t behind, ts = before ++ t :: behind ∧ (∀ a ∈ before, ∀ r ∈ a.subtrees, ok r) ∧
      Reached ok s t.subtrees := by
  induction ts with
  | nil => exact h.elim
  | cons t ts ih =>
    rw [List.flatMap_cons] at h
    rcases h.of_append with hhere | ⟨hall, hthere⟩
    · exact ⟨[], t, ts, rfl, by simp, hhere⟩
    · obtain ⟨before, s, behind, rfl, hbefore, hs⟩ := ih hthere
      exact ⟨t :: before, s, behind, rfl, List.forall_mem_cons.mpr ⟨hall, hbefore⟩, hs⟩

/-- In trees with distinct nodes, one tree holds what is reached, and the others hold nothing of it. -/
theorem Reached.operand {ok : Tree → Prop} {s r : Tree} {ts : List Tree}
    (h : Reached ok s (ts.flatMap subtrees)) (hdistinct : (ts.flatMap ids).Nodup) (hr : r ∈ s.subtrees)
    {a : Tree} (ha : a ∈ ts) : Reached ok s a.subtrees ∨ r.id ∉ a.ids := by
  obtain ⟨before, t, behind, rfl, -, hs⟩ := h.exists_split
  have hid : r.id ∈ t.ids := id_mem_ids (mem_subtrees_trans hr hs.mem)
  rcases List.mem_append.mp ha with ha | ha
  · exact Or.inr (not_mem_ids_beside hdistinct hid (Or.inl ha))
  · rcases List.mem_cons.mp ha with rfl | ha
    · exact Or.inl hs
    · exact Or.inr (not_mem_ids_beside hdistinct hid (Or.inr ha))

/-- The tree stores into none of the given variables. -/
def Spares (t : Tree) (vars : VarId → Prop) : Prop :=
  ∀ s ∈ t.subtrees, ∀ x, s.storedVar? = some x → ¬vars x

/-- A subtree stores no more than the tree. -/
theorem Spares.of_mem {s t : Tree} {vars : VarId → Prop} (h : t.Spares vars) (hs : s ∈ t.subtrees) :
    s.Spares vars :=
  fun r hr => h r (mem_subtrees_trans hr hs)

/-- The node stores into none of the given variables, nor does anything in it if it is a loop. -/
def Passable (vars : VarId → Prop) (r : Tree) : Prop :=
  (∀ x, r.storedVar? = some x → ¬vars x) ∧ (r.isLoop = true → r.Spares vars)

/-- A tree of passable nodes stores into none of the variables. -/
theorem spares_of_passable {t : Tree} {vars : VarId → Prop} (h : ∀ r ∈ t.subtrees, Passable vars r) :
    t.Spares vars :=
  fun r hr => (h r hr).1

/-- The condition that a statement tests is one of its operands. -/
theorem mem_operands_of_tested? {s c : Tree} (h : s.tested? = some c) : c ∈ s.operands := by
  unfold tested? at h
  split at h
  · exact mem_operands_of_condition? h
  · exact List.mem_of_getElem? h
  · contradiction

/-- The condition that an `if` tests is its first operand. -/
theorem eq_of_tested?_if {l : Label} {constexpr : Bool} {a c : Tree} {ts : List Tree}
    (hkind : l.kind = .keyword (.ifStmt constexpr)) (h : (node l (a :: ts)).tested? = some c) : a = c := by
  have hcondition : (node l (a :: ts)).condition? = some c := by
    simpa [tested?, keyword?, kind, label, hkind] using h
  exact Option.some.inj (of_condition? (t := node l (a :: ts)) hkind rfl hcondition).1

/-- No expression tests a condition. -/
theorem Expression.tested?_eq_none {p : Tree → Bool} {t : Tree} (h : t.Expression p) :
    t.tested? = none := by
  simp [tested?, h.kind_spec.1]

/-- The condition that a statement tests is an expression. -/
theorem Statement.tested {p : Tree → Bool} {t c : Tree} (h : t.Statement p) (hc : t.tested? = some c) :
    c.Expression p := by
  unfold tested? at hc
  split at hc
  · exact h.condition hc
  · next hkeyword =>
    cases h with
    | @returnValue l c' hkind hexpression =>
      obtain rfl : c' = c := by simpa [operand?, operands] using hc
      exact hexpression
    | expression h => simp [h.kind_spec.1] at hkeyword
    | _ => simp_all [keyword?, kind, label, operand?, operands]
  · contradiction

end Tree

open ConditionLint.Tree

/-- Something that is known about the variables, and the variables that it depends on. -/
structure Knowledge where
  reads : VarId → Prop
  known : (VarId → ℤ) → Prop
  known_congr : ∀ σ τ, (∀ x, reads x → σ x = τ x) → known σ → known τ

/-- A tree that stores nothing of it leaves the knowledge as it is. -/
theorem Knowledge.stable (k : Knowledge) (V : Valuation ℤ) {t : Tree} (hwhole : t.IsWhole)
    (hspares : t.Spares k.reads) : V.Stable (fun m => k.known m.vars) t where
  whole := hwhole
  record _ _ _ _ _ _ hm' _ := hm'
  store s hs x hx m v hm := by
    refine k.known_congr m.vars _ (fun y hy => ?_) hm
    have hne : y ≠ x := fun heq => hspares s hs x hx (heq ▸ hy)
    exact (Function.update_of_ne hne v m.vars).symm

/-- A pure condition has a truth value. -/
def Knowledge.ofCondition (V : Valuation ℤ) {p : Tree → Bool} {c : Tree} (hpure : c.Pure p)
    (hwhole : c.IsWhole) (held : Bool) : Knowledge where
  reads := c.Reads
  known σ := (V.under σ).isTrue c = held
  known_congr σ τ hagree h := by
    rw [Valuation.isTrue, ← V.eval_under_congr hpure hwhole hagree]
    exact h

/-- While something is known about the variables, the subject has a certain truth value. -/
structure Forecast (V : Valuation ℤ) extends Knowledge where
  subject : Tree
  truth : Bool
  right : ∀ m : Machine, known m.vars → ((V.evaluate subject m).1 != 0) = truth

/-- The truth value of a pure condition decides that of the subject. -/
def Forecast.ofCondition (V : Valuation ℤ) {p : Tree → Bool} {c : Tree} (hpure : c.Pure p)
    (hwhole : c.IsWhole) (held : Bool) (subject : Tree) (truth : Bool)
    (hright : ∀ m : Machine, (V.under m.vars).isTrue c = held → ((V.evaluate subject m).1 != 0) = truth) :
    Forecast V where
  toKnowledge := .ofCondition V hpure hwhole held
  subject := subject
  truth := truth
  right := hright

namespace Forecast

variable {V : Valuation ℤ} (f : Forecast V) {p : Tree → Bool} {n : Nat}

/-- All evaluations of the subject so far were as forecast. -/
def Kept (m : Machine) : Prop := m.Logs f.subject.id f.truth

/-- The forecast was kept so far, and the knowledge holds. -/
def Valid (m : Machine) : Prop := f.known m.vars ∧ f.Kept m

/-- The statement tests a condition that holds the subject and leaves the knowledge as it is. -/
structure TestedBy (s c : Tree) : Prop where
  tested : s.tested? = some c
  spares : c.Spares f.reads
  subject_mem : f.subject ∈ c.subtrees

variable {f} {l : Label} {ts : List Tree} {s t c : Tree} {m : Machine}

/-- A tree without the subject keeps the forecast. -/
theorem stable_kept (hwhole : t.IsWhole) (hid : f.subject.id ∉ t.ids) : V.Stable f.Kept t :=
  .logs hwhole hid f.truth

/-- A tree that stores nothing of the knowledge and in which only the subject has its number keeps the
forecast while the knowledge holds. -/
theorem stable_valid (hwhole : t.IsWhole) (hspares : t.Spares f.reads)
    (honly : ∀ r ∈ t.subtrees, r.id = f.subject.id → r = f.subject) : V.Stable f.Valid t where
  whole := hwhole
  record s hs m m' v hm hm' heq := by
    refine ⟨hm'.1, hm'.2.record fun hid => ?_⟩
    obtain rfl := honly s hs hid
    have hright := f.right m hm.1
    rwa [heq] at hright
  store s hs x hx m v hm := ⟨(f.stable V hwhole hspares).store s hs x hx m v hm.1, hm.2⟩

/-- A tree without the subject that stores nothing of the knowledge keeps both. -/
theorem stable_valid_of_not_mem (hwhole : t.IsWhole) (hspares : t.Spares f.reads)
    (hid : f.subject.id ∉ t.ids) : V.Stable f.Valid t :=
  stable_valid hwhole hspares fun _ hr heq => absurd (id_mem_ids hr) (heq ▸ hid)

namespace TestedBy

/-- The subject stands in the statement. -/
theorem mem_subtrees (h : f.TestedBy s c) (hwhole : s.IsWhole) : f.subject ∈ s.subtrees :=
  mem_subtrees_trans h.subject_mem (hwhole.mem_of_operand (mem_operands_of_tested? h.tested))

/-- The statement stands in no expression. -/
theorem not_mem_subtrees (h : f.TestedBy s c) {a : Tree} (ha : a.Expression p) : s ∉ a.subtrees := by
  intro hs
  have hnone := (ha.of_mem hs).tested?_eq_none
  simp [h.tested] at hnone

/-- Evaluating the tested condition keeps the forecast while the knowledge holds. -/
theorem stable_valid (h : f.TestedBy s c) (hs : s.IsUnshared) : V.Stable f.Valid c := by
  have hc := hs.whole.mem_of_operand (mem_operands_of_tested? h.tested)
  refine Forecast.stable_valid (hs.whole.of_mem hc) h.spares fun r hr hid => ?_
  exact hs.eq_of_id_eq (mem_subtrees_trans hr hc) (h.mem_subtrees hs.whole) hid

/-- A condition in front of the test is passed without a store. -/
theorem spares_of_reached (h : f.TestedBy s c) {rs : List Tree} {a : Tree} (ha : a.Expression p)
    (hreached : Reached (Passable f.reads) s (a.subtrees ++ rs)) : a.Spares f.reads := by
  rcases hreached.of_append with hin | ⟨hall, -⟩
  · exact absurd hin.mem (h.not_mem_subtrees ha)
  · exact spares_of_passable hall

/-- The statement that tests the subject keeps the forecast when the knowledge holds before it. -/
theorem kept_exec (h : f.TestedBy s c) (ht : s.Statement p) (hs : s.IsUnshared) (hm : f.Valid m) :
    f.Kept (V.exec n s m).2 := by
  have hcondition := (h.stable_valid hs).evaluate hm
  have hbranch {l : Label} {ts : List Tree} (hnode : s = node l (c :: ts)) {a : Tree} (ha : a ∈ ts)
      (hstatement : a.Statement p) {m : Machine} (hm : f.Valid m) : f.Kept (V.exec n a m).2 := by
    subst hnode
    have hid : f.subject.id ∉ a.ids := not_mem_ids_beside (List.nil_append (c :: ts) ▸ hs.operands_nodup)
      (id_mem_ids h.subject_mem) (Or.inr ha)
    exact (stable_kept (hs.whole.operand (List.mem_cons_of_mem c ha)) hid).exec hstatement hm.2
  have htested := h.tested
  cases ht with
  | @ifThen l _ c' a hkind hc ha =>
    obtain rfl : c' = c := eq_of_tested?_if hkind htested
    rw [V.exec_ifThen n m hkind]
    split
    · exact hcondition.2
    · exact hbranch rfl (by simp) ha hcondition
  | @ifElse l _ c' a b hkind hc ha hb =>
    obtain rfl : c' = c := eq_of_tested?_if hkind htested
    rw [V.exec_ifElse n m hkind]
    split
    · exact hbranch rfl (by simp) hb hcondition
    · exact hbranch rfl (by simp) ha hcondition
  | @returnValue l t hkind ht =>
    obtain rfl : t = c := by
      simpa [tested?, keyword?, kind, label, hkind, operand?, operands] using htested
    rw [V.exec_return n m hkind]
    exact hcondition.2
  -- The other statements test nothing.
  | expression ht => simp [ht.tested?_eq_none] at htested
  | _ => simp_all [tested?, keyword?, kind, label, operand?, operands]

end TestedBy

/-- Statements in a row keep the forecast when the one with the subject does. Those before it are passed with
the knowledge, those behind it do not matter. -/
theorem kept_execAll_around {before behind : List Tree}
    (hts : ∀ a ∈ before ++ t :: behind, a.Statement p ∧ a.IsWhole)
    (hdistinct : ((before ++ t :: behind).flatMap ids).Nodup) (hsubject : f.subject ∈ t.subtrees)
    (hknown : ∀ a ∈ before, ∀ m, f.known m.vars → (V.exec n a m).1 = .normal → f.known (V.exec n a m).2.vars)
    (hexec : ∀ m, f.Valid m → f.Kept (V.exec n t m).2) (hm : f.Valid m) :
    f.Kept (V.execAll n (before ++ t :: behind) m).2 := by
  have hkept (a : Tree) (ha : a ∈ before ∨ a ∈ behind) (m : Machine) (hm : f.Kept m) :
      f.Kept (V.exec n a m).2 := by
    obtain ⟨hstatement, hwhole⟩ := hts a (by simp; tauto)
    have hid := not_mem_ids_beside hdistinct (id_mem_ids hsubject) ha
    exact (stable_kept hwhole hid).exec hstatement hm
  have hvalid (a : Tree) (ha : a ∈ before) (m : Machine) (hm : f.Valid m) (hexit : (V.exec n a m).1 = .normal) :
      f.Valid (V.exec n a m).2 :=
    ⟨hknown a ha m hm.1 hexit, hkept a (Or.inl ha) m hm.2⟩
  rw [Valuation.execAll_append]
  refine andThen_of_normal (P := f.Valid) (Valuation.execAll_of (fun a ha => hkept a (Or.inl ha)) hm.2)
    (Valuation.execAll_of_normal hvalid hm) fun m hm => ?_
  refine andThen_of (hexec m hm) (fun h => h) fun m hm => ?_
  exact Valuation.execAll_of (fun a ha => hkept a (Or.inr ha)) hm

/-- Statements in a row keep the forecast when the one that holds the test does, and it is reached through
passable nodes. -/
theorem kept_execAll_of (hts : ∀ t ∈ ts, t.Statement p ∧ t.IsWhole) (hdistinct : (ts.flatMap ids).Nodup)
    (hsubject : f.subject ∈ s.subtrees) (hreached : Reached (Passable f.reads) s (ts.flatMap subtrees))
    (hexec : ∀ t ∈ ts, Reached (Passable f.reads) s t.subtrees → ∀ m, f.Valid m → f.Kept (V.exec n t m).2)
    (hm : f.Valid m) : f.Kept (V.execAll n ts m).2 := by
  obtain ⟨before, t, behind, rfl, hbefore, ht⟩ := hreached.exists_split
  refine kept_execAll_around hts hdistinct (mem_subtrees_trans hsubject ht.mem) (fun a ha m hm _ => ?_)
    (hexec t (by simp) ht) hm
  obtain ⟨hstatement, hwhole⟩ := hts a (by simp [ha])
  exact (f.toKnowledge.stable V hwhole (spares_of_passable (hbefore a ha))).exec hstatement hm

/-- A loop that stores nothing of the knowledge keeps the forecast when its parts do: each round begins
with the knowledge. -/
theorem kept_exec_loop (ht : t.Statement p) (hwhole : t.IsWhole) (hkeyword : t.keyword? ≠ none)
    (hspares : t.Spares f.reads)
    (heval : ∀ a ∈ t.operands, a.Expression p → f.subject.id ∉ a.ids)
    (hexec : ∀ a ∈ t.operands, a.Statement p → ∀ m, f.Valid m → f.Kept (V.exec n a m).2)
    (hm : f.Valid m) : f.Kept (V.exec n t m).2 := by
  have hoperand {a : Tree} (ha : a ∈ t.operands) : a.IsWhole ∧ a.Spares f.reads :=
    ⟨hwhole.of_mem (hwhole.mem_of_operand ha), hspares.of_mem (hwhole.mem_of_operand ha)⟩
  have hvalid : f.Valid (V.exec n t m).2 := by
    refine Valuation.exec_of_operands ht (fun h => absurd h.kind_spec.1 hkeyword)
      (fun a ha hexpression m hm => ?_) (fun a ha hstatement m hm => ?_) hm
    · obtain ⟨hwhole, hspares⟩ := hoperand ha
      exact (stable_valid_of_not_mem hwhole hspares (heval a ha hexpression)).evaluate hm
    · obtain ⟨hwhole, hspares⟩ := hoperand ha
      exact ⟨(f.stable V hwhole hspares).exec hstatement hm.1, hexec a ha hstatement m hm⟩
  exact hvalid.2

/-- A statement keeps the forecast when the knowledge holds before it and the test is reached in it. -/
theorem kept_exec (htest : f.TestedBy s c) (ht : t.Statement p) (hunshared : t.IsUnshared)
    (hreached : Reached (Passable f.reads) s t.subtrees) (hm : f.Valid m) : f.Kept (V.exec n t m).2 := by
  induction t using induction_operands generalizing m with
  | step l ts ih =>
    have hwhole := hunshared.whole
    have hsubject : f.subject ∈ s.subtrees := htest.mem_subtrees (hwhole.of_mem hreached.mem)
    rw [hwhole.subtrees_node] at hreached
    rcases hreached with rfl | ⟨hpassable, hreached⟩
    · exact htest.kept_exec ht hunshared hm
    -- An operand holds the test, or it has nothing to do with the subject; an expression has not.
    have hcases {a : Tree} (ha : a ∈ ts) := hreached.operand hunshared.operands_nodup hsubject ha
    have hnot {a : Tree} (ha : a ∈ ts) (hexpression : a.Expression p) : f.subject.id ∉ a.ids :=
      (hcases ha).resolve_left fun h => htest.not_mem_subtrees hexpression h.mem
    have hexec {a : Tree} (ha : a ∈ ts) (hstatement : a.Statement p) (m : Machine) (hm : f.Valid m) :
        f.Kept (V.exec n a m).2 := by
      rcases hcases ha with hhere | hid
      · exact ih a ha hstatement (hunshared.operand ha) hhere hm
      · exact (stable_kept (hwhole.operand ha) hid).exec hstatement hm.2
    have hloop (h : (node l ts).isLoop = true) : f.Kept (V.exec n (node l ts) m).2 := by
      have hkeyword : (node l ts).keyword? ≠ none := fun hnone => by simp [isLoop, hnone] at h
      exact kept_exec_loop ht hwhole hkeyword (hpassable.2 h) (fun _ => hnot) (fun _ => hexec) hm
    have hcondition {c' : Tree} (hmem : c' ∈ ts) (hc : c'.Expression p) (hspares : c'.Spares f.reads) :
        f.Valid (V.evaluate c' m).2 :=
      (stable_valid_of_not_mem (hwhole.operand hmem) hspares (hnot hmem hc)).evaluate hm
    cases ht with
    | block hkind hts =>
      rw [V.exec_block n m hkind]
      refine kept_execAll_of (fun a ha => ⟨hts a ha, hwhole.operand ha⟩) hunshared.operands_nodup hsubject
        hreached (fun a ha _ => hexec ha (hts a ha)) hm
    | @ifThen _ _ c' a hkind hc ha =>
      have hvalid := hcondition (by simp) hc (htest.spares_of_reached hc hreached)
      rw [V.exec_ifThen n m hkind]
      split
      · exact hvalid.2
      · exact hexec (by simp) ha _ hvalid
    | @ifElse _ _ c' a b hkind hc ha hb =>
      have hvalid := hcondition (by simp) hc (htest.spares_of_reached hc hreached)
      rw [V.exec_ifElse n m hkind]
      split
      · exact hexec (by simp) hb _ hvalid
      · exact hexec (by simp) ha _ hvalid
    | whileLoop hkind _ _ => exact hloop (by simp [isLoop, keyword?, kind, label, hkind, Keyword.isLoop])
    | doLoop hkind _ _ => exact hloop (by simp [isLoop, keyword?, kind, label, hkind, Keyword.isLoop])
    | forLoop hkind _ _ _ _ => exact hloop (by simp [isLoop, keyword?, kind, label, hkind, Keyword.isLoop])
    -- The other statements hold no statement in which the test could be.
    | expression ht =>
      obtain ⟨a, ha, hs⟩ := List.mem_flatMap.mp hreached.mem
      exact absurd hs (htest.not_mem_subtrees (ht.operand ha))
    | returnValue hkind ht =>
      exact absurd (by simpa using hreached.mem) (htest.not_mem_subtrees ht)
    | empty hkind => exact hreached.elim
    | returnNothing hkind => exact hreached.elim
    | breakLoop hkind => exact hreached.elim
    | continueLoop hkind => exact hreached.elim

/-- Statements in a row keep the forecast when the knowledge holds before them and the test is reached in
them. -/
theorem kept_execAll (htest : f.TestedBy s c) (hts : ∀ t ∈ ts, t.Statement p ∧ t.IsUnshared)
    (hdistinct : (ts.flatMap ids).Nodup) (hreached : Reached (Passable f.reads) s (ts.flatMap subtrees))
    (hm : f.Valid m) : f.Kept (V.execAll n ts m).2 := by
  obtain ⟨t, ht, hs⟩ := List.mem_flatMap.mp hreached.mem
  have hsubject := htest.mem_subtrees ((hts t ht).2.whole.of_mem hs)
  refine kept_execAll_of (fun a ha => ⟨(hts a ha).1, (hts a ha).2.whole⟩) hdistinct hsubject hreached ?_ hm
  exact fun a ha hreached m hm => kept_exec htest (hts a ha).1 (hts a ha).2 hreached hm

/-- A statement keeps the forecast when the part of it that holds the subject does. -/
theorem kept_exec_of_part (ht : t.Statement p) (hunshared : t.IsUnshared) (hs : s ∈ t.subtrees)
    (hkind : ¬s.Expression p) (hsubject : f.subject ∈ s.subtrees)
    (hpart : ∀ m, f.Kept m → f.Kept (V.exec n s m).2) (hm : f.Kept m) : f.Kept (V.exec n t m).2 := by
  induction t using induction_operands generalizing m with
  | step l ts ih =>
    have hwhole := hunshared.whole
    have hout {a : Tree} (ha : a.Expression p) : s ∉ a.subtrees := fun h => hkind (ha.of_mem h)
    have hreached : Reached (fun _ => True) s (node l ts).subtrees := reached_true_iff.mpr hs
    rw [hwhole.subtrees_node] at hreached
    rcases hreached with rfl | ⟨-, hreached⟩
    · exact hpart m hm
    have hcases {a : Tree} (ha : a ∈ ts) := hreached.operand hunshared.operands_nodup hsubject ha
    refine Valuation.exec_of_operands ht (fun h => absurd hs (hout h)) (fun a ha hexpression m hm => ?_)
      (fun a ha hstatement m hm => ?_) hm
    · have hid := (hcases ha).resolve_left fun h => hout hexpression h.mem
      exact (stable_kept (hwhole.operand ha) hid).evaluate hm
    · rcases hcases ha with hin | hid
      · exact ih a ha hstatement (hunshared.operand ha) hin.mem hm
      · exact (stable_kept (hwhole.operand ha) hid).exec hstatement hm

/-- A pure condition without the subject keeps the forecast, and gives the knowledge when it has the truth
value from which it follows. -/
theorem kept_evaluate {held : Bool} (hpure : c.Pure p) (hwhole : c.IsWhole)
    (hknown : ∀ σ, (V.under σ).isTrue c = held → f.known σ) (hid : f.subject.id ∉ c.ids) (hm : f.Kept m) :
    f.Kept (V.evaluate c m).2 ∧ (((V.evaluate c m).1 != 0) = held → f.Valid (V.evaluate c m).2) := by
  have hkept : f.Kept (V.evaluate c m).2 := (stable_kept hwhole hid).evaluate hm
  obtain ⟨hvalue, hvars⟩ := V.evaluate_pure hpure m
  refine ⟨hkept, fun hheld => ⟨hknown _ ?_, hkept⟩⟩
  rw [hvars, Valuation.isTrue, ← hvalue, hheld]

/-- A statement whose condition gives the knowledge keeps the forecast when its body does. -/
theorem kept_exec_guard {q : Place} {b : Tree} (ht : q.tree.Statement p) (hunshared : q.tree.IsUnshared)
    (hguards : q.guardsBody = true) (hc : q.tree.condition? = some c) (hb : q.tree.body? = some b)
    (hpure : c.Pure p) (hknown : ∀ σ, (V.under σ).isTrue c = true → f.known σ)
    (hsubject : f.subject ∈ b.subtrees) (hbody : ∀ m, f.Valid m → f.Kept (V.exec n b m).2)
    (hm : f.Kept m) : f.Kept (V.exec n q.tree m).2 := by
  obtain ⟨t, above⟩ := q
  dsimp only at *
  have hid := id_mem_ids hsubject
  have hcheck (m : Machine) (hm : f.Kept m) : f.Kept (V.evaluate c m).2 ∧
      ((V.evaluate c m).1 ≠ 0 → f.Valid (V.evaluate c m).2) := by
    have hwhole := (hunshared.whole.of_mem (hunshared.whole.mem_of_operand (mem_operands_of_condition? hc)))
    have hnot : f.subject.id ∉ c.ids := fun hmem => hunshared.disjoint_condition_body hc hb hmem hid
    simpa using kept_evaluate hpure hwhole hknown hnot hm
  -- Operands other than the condition and the body have nothing to do with the subject.
  have hother {i j : Nat} {a : Tree} (ha : t.operands[i]? = some a) (hbody : t.operands[j]? = some b)
      (hij : i ≠ j) : V.Stable f.Kept a := by
    have hwhole := hunshared.whole.of_mem (hunshared.whole.mem_of_operand (List.mem_of_getElem? ha))
    exact stable_kept hwhole fun hmem => hunshared.disjoint_operands hij ha hbody hmem hid
  cases ht with
  | @ifThen l _ c' b' hkind _ _ =>
    obtain rfl : c' = c := Option.some.inj (of_condition? (t := node l [c', b']) hkind rfl hc).1
    obtain rfl : b' = b := Option.some.inj (of_body? (t := node l [c', b']) hkind rfl hb)
    rw [V.exec_ifThen n m hkind]
    split
    · exact (hcheck m hm).1
    · next htrue => exact hbody _ ((hcheck m hm).2 htrue)
  | @ifElse l _ c' b' e hkind _ _ helse =>
    obtain rfl : c' = c := Option.some.inj (of_condition? (t := node l [c', b', e]) hkind rfl hc).1
    obtain rfl : b' = b := Option.some.inj (of_body? (t := node l [c', b', e]) hkind rfl hb)
    rw [V.exec_ifElse n m hkind]
    split
    · exact (hother (i := 2) (j := 1) rfl rfl (by decide)).exec helse (hcheck m hm).1
    · next htrue => exact hbody _ ((hcheck m hm).2 htrue)
  | @whileLoop l c' b' hkind _ _ =>
    obtain rfl : c' = c := Option.some.inj (of_condition? (t := node l [c', b']) hkind rfl hc).1
    obtain rfl : b' = b := Option.some.inj (of_body? (t := node l [c', b']) hkind rfl hb)
    rw [V.exec_while n m hkind]
    exact iterate_of (fun m hm => round_of hcheck hbody (fun m hm => hm) hm) n hm
  | @forLoop l start c' step b' hkind hstart _ hstep _ =>
    obtain ⟨hcondition, hempty⟩ := of_condition? (t := node l [start, c', step, b']) hkind rfl hc
    obtain rfl : c' = c := Option.some.inj hcondition
    obtain rfl : b' = b := Option.some.inj (of_body? (t := node l [start, c', step, b']) hkind rfl hb)
    have hstart (m : Machine) (hm : f.Kept m) : f.Kept (V.evaluateClause start m).2 :=
      Valuation.evaluateClause_of hstart
        (fun _ m hm => (hother (i := 0) (j := 3) rfl rfl (by decide)).evaluate hm) hm
    have hstep (m : Machine) (hm : f.Kept m) : f.Kept (V.evaluateClause step m).2 :=
      Valuation.evaluateClause_of hstep
        (fun _ m hm => (hother (i := 2) (j := 3) rfl rfl (by decide)).evaluate hm) hm
    have hcondition : V.evaluateClause c' = V.evaluate c' := by
      funext m
      exact if_neg hempty
    rw [V.exec_for n m hkind, hcondition]
    refine iterate_of (fun m hm => ?_) n (hstart m hm)
    refine round_of hcheck hbody (fun m hm => ?_) hm
    exact hstep m hm
  | expression ht => simp [Place.guardsBody, ht.kind_spec.1] at hguards
  | _ => simp_all [Place.guardsBody, keyword?, kind, label]

/-- A block keeps the forecast when it is about what comes behind an `if` in it that leaves when its
condition is true: the knowledge follows from the condition being false. -/
theorem kept_exec_behind {before behind : List Tree} {c' a : Tree}
    (hblock : (node l (before ++ t :: behind)).Statement p) (hkind : l.kind = .block)
    (hunshared : (node l (before ++ t :: behind)).IsUnshared) (hif : t.isIf = true)
    (hc : t.condition? = some c) (ha : t.body? = some a) (hleaves : a.leavesAtOnce = true)
    (hpure : c.Pure p) (hknown : ∀ σ, (V.under σ).isTrue c = false → f.known σ) (htest : f.TestedBy s c')
    (hreached : Reached (Passable f.reads) s ((t.operands.drop 2 ++ behind).flatMap subtrees))
    (hm : f.Kept m) : f.Kept (V.exec n (node l (before ++ t :: behind)) m).2 := by
  have hmem : t ∈ before ++ t :: behind := by simp
  have ht := hunshared.operand hmem
  obtain ⟨l', es, rfl⟩ : ∃ l' es, t = node l' (c :: a :: es) := exists_of_if hif hc ha
  have hdistinct : (before.flatMap ids ++ (c.ids ++ (a.ids ++ (es ++ behind).flatMap ids))).Nodup := by
    have hall := hunshared.operands_nodup
    rw [List.flatMap_append, List.flatMap_cons, ht.whole.ids_node] at hall
    refine hall.sublist ?_
    simp only [List.flatMap_cons, List.flatMap_append, List.cons_append, List.append_assoc]
    exact (List.sublist_cons_self _ _).append_left _
  simp only [List.nodup_append', List.disjoint_append_right] at hdistinct
  obtain ⟨-, ⟨-, ⟨-, hrest, hadisjoint⟩, -, hcdisjoint⟩, -, -, hbefore⟩ := hdistinct
  have hstatement := hblock.operand hmem
  have hmember : ∀ x ∈ es ++ behind, x.Statement p ∧ x.IsUnshared := by
    intro x hx
    rcases List.mem_append.mp hx with hx | hx
    · have hx : x ∈ c :: a :: es := by simp [hx]
      exact ⟨hstatement.operand hx, ht.operand hx⟩
    · have hx : x ∈ before ++ node l' (c :: a :: es) :: behind := by simp [hx]
      exact ⟨hblock.operand hx, hunshared.operand hx⟩
  have hid : f.subject.id ∈ (es ++ behind).flatMap ids := by
    obtain ⟨x, hx, hs⟩ := List.mem_flatMap.mp hreached.mem
    have hsubject := htest.mem_subtrees ((hmember x hx).2.whole.of_mem hs)
    exact List.mem_flatMap.mpr ⟨x, hx, id_mem_ids (mem_subtrees_trans hsubject hs)⟩
  have hfront : f.Kept (V.execAll n before m).2 := by
    refine Valuation.execAll_of (fun x hx m hm => ?_) hm
    have hx' : x ∈ before ++ node l' (c :: a :: es) :: behind := List.mem_append_left _ hx
    have hnot : f.subject.id ∉ x.ids := fun hmem => hbefore (List.mem_flatMap.mpr ⟨x, hx, hmem⟩) hid
    exact (stable_kept (hunshared.operand hx').whole hnot).exec (hblock.operand hx') hm
  rw [V.exec_block n m hkind, Valuation.execAll_append]
  refine andThen_of hfront (fun h => h) fun m hm => ?_
  rw [Valuation.execAll, Valuation.exec_if_leaving hstatement hif hc ha hleaves]
  obtain ⟨hkept, hvalid⟩ := kept_evaluate hpure (ht.operand (by simp)).whole hknown
    (fun hmem => hcdisjoint hmem hid) hm
  split
  · next hfalse => exact kept_execAll htest hmember hrest hreached (hvalid (by simp [hfalse]))
  · have hnot : f.subject.id ∉ a.ids := fun hmem => hadisjoint hmem hid
    exact (stable_kept (ht.operand (by simp)).whole hnot).exec (hstatement.operand (by simp [operands])) hkept

end Forecast

end ConditionLint
