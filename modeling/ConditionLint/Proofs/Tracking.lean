import ConditionLint.Proofs.Trail

/-!
# Runs along a trail

What is known about a variable at the start of a trail still holds when a run comes to a node on the trail. The
run has gone normally through the statements in front of the node, and a statement whose trail shows no change
leaves the variable as it was.

This fails in one case. The way ends in a nested block and in a loop other than `while`, so that a branch of an
`if` may go on with statements that nobody looks at, and still the way goes on behind the `if`. A block with a
change among such statements is said to hide it, and the results here ask that no block on the way does.
-/

namespace ConditionLint

open ConditionLint.Tree

namespace Tree

/-- Whether the way through statements ends in the statement: a block, or a loop other than `while`. -/
def endsWay (t : Tree) : Bool :=
  t.isBlock || t.keyword? = some .forStmt || t.keyword? = some .doWhile

/-- The statements behind the first one in which the way ends. -/
def beyondWay : List Tree → List Tree
  | [] => []
  | t :: ts => if t.endsWay then ts else beyondWay ts

end Tree

/-- Whether the tree is a block in which a variable may change behind a statement in which the way ends. -/
def SourceUnit.hidesChange (u : SourceUnit) (v : Variable) (t : Tree) : Bool :=
  t.isBlock && (beyondWay t.operands).any fun s => u.changesVariableWithin v s

/-- In a block that hides no change, nothing changes beyond the way. -/
theorem SourceUnit.unchanged_of_hidesChange {u : SourceUnit} {v : Variable} {l : Label} {ts : List Tree}
    (hkind : l.kind = .block) (h : u.hidesChange v (node l ts) = false) :
    ∀ t ∈ beyondWay ts, u.changesVariableWithin v t = false := by
  simpa [hidesChange, isBlock, kind, label, hkind, operands] using h

namespace Forecast

variable {V : Valuation ℤ} {f : Forecast V} {p : Tree → Bool} {n : Nat} {t : Tree} {m : Machine}

/-- Evaluating the subject keeps the forecast. -/
theorem kept_evaluate_subject (hunshared : f.subject.IsUnshared) (hm : f.Valid m) :
    f.Kept (V.evaluate f.subject m).2 := by
  obtain ⟨l, ts, hsubject⟩ : ∃ l ts, f.subject = node l ts := by
    cases f.subject with
    | node l ts => exact ⟨l, ts, rfl⟩
  have hright := f.right m hm.1
  rw [hsubject] at hunshared hright ⊢
  have hkept {a : Tree} (ha : a ∈ ts) : V.Stable f.Kept a := by
    refine stable_kept (hunshared.whole.operand ha) fun hmem => ?_
    rw [hsubject] at hmem
    exact hunshared.id_not_mem_operands (List.mem_flatMap.mpr ⟨a, ha, hmem⟩)
  obtain ⟨v, m', hvalue, hm'⟩ : ∃ v m', V.evaluate (node l ts) m = recorded l.id (v, m') ∧ f.Kept m' :=
    V.evaluate_of_operands (P := fun _ => f.Kept) (fun _ _ hm => hm)
      (fun i a ha m hm => (hkept (List.mem_of_getElem? ha)).evaluate hm) (fun _ _ _ _ hm => hm) hm.2
  rw [hvalue] at hright ⊢
  exact hm'.record fun _ => hright

/-- Evaluating an expression keeps the forecast when the subject is reached in it through nodes that store
nothing of the knowledge: what is evaluated before the subject also stands before it. -/
theorem kept_evaluate_of_reached (hunshared : t.IsUnshared)
    (hreached : Reached (fun r => ∀ x, r.storedVar? = some x → ¬f.reads x) f.subject t.subtrees)
    (hm : f.Valid m) : f.Kept (V.evaluate t m).2 := by
  induction t using induction_operands generalizing m with
  | step l ts ih =>
    have hwhole := hunshared.whole
    rw [hwhole.subtrees_node] at hreached
    rcases hreached with hsubject | ⟨-, hreached⟩
    · rw [hsubject]
      exact kept_evaluate_subject (hsubject ▸ hunshared) hm
    obtain ⟨before, a, behind, rfl, hbefore, ha⟩ := hreached.exists_split
    have hida : f.subject.id ∈ a.ids := id_mem_ids ha.mem
    have hbeside {b : Tree} (hb : b ∈ before ∨ b ∈ behind) : f.subject.id ∉ b.ids :=
      not_mem_ids_beside hunshared.operands_nodup hida hb
    -- The knowledge holds up to the operand with the subject; behind it only the log counts.
    let P (i : Nat) (m : Machine) : Prop := f.Kept m ∧ (i ≤ before.length → f.known m.vars)
    have heval (i : Nat) (b : Tree) (hb : (before ++ a :: behind)[i]? = some b) (m : Machine) (hm : P i m) :
        P (i + 1) (V.evaluate b m).2 := by
      have hbmem := List.mem_of_getElem? hb
      have hbwhole := hwhole.operand hbmem
      rcases Nat.lt_trichotomy i before.length with hi | hi | hi
      · rw [List.getElem?_append_left hi] at hb
        have hb := List.mem_of_getElem? hb
        have hvalid := (stable_valid_of_not_mem hbwhole (hbefore b hb) (hbeside (Or.inl hb))).evaluate
          ⟨hm.2 hi.le, hm.1⟩
        exact ⟨hvalid.2, fun _ => hvalid.1⟩
      · obtain rfl : a = b := by simpa [hi] using hb
        exact ⟨ih a hbmem (hunshared.operand hbmem) ha ⟨hm.2 hi.le, hm.1⟩, fun _ => by omega⟩
      · obtain ⟨j, hj⟩ : ∃ j, i - before.length = j + 1 := ⟨i - before.length - 1, by omega⟩
        rw [List.getElem?_append_right (by omega), hj, List.getElem?_cons_succ] at hb
        have hb := List.mem_of_getElem? hb
        exact ⟨(stable_kept hbwhole (hbeside (Or.inr hb))).evaluate hm.1, fun _ => by omega⟩
    obtain ⟨v, m', hvalue, hkept, -⟩ := V.evaluate_of_operands (P := P) (l := l)
      (fun i m hm => ⟨hm.1, fun hi => hm.2 (by omega)⟩) heval
      (fun x _ m v hm => ⟨hm.1, fun hi => by simp at hi⟩) ⟨hm.2, fun _ => hm.1⟩
    rw [hvalue]
    refine hkept.record fun hid => absurd hunshared.id_not_mem_operands ?_
    exact not_not_intro (List.mem_flatMap.mpr ⟨a, by simp, hid ▸ hida⟩)

end Forecast

namespace Trail

section Programs

variable {u : SourceUnit} {v : Variable} {p : Tree → Bool} {t c : Tree} {l : Label} {ts : List Tree}

/-- A trail through an expression goes along its nodes. -/
theorem through_expression (h : t.Expression p) : through u v t = along v false (u.span t) := by
  obtain ⟨l, ts⟩ := t
  obtain ⟨hkeyword, hblock, -, -⟩ := h.kind_spec
  rw [through.eq_def]
  dsimp only
  split <;> simp_all [keyword?, kind, label, alongPlain]

/-- A trail through an `if` goes along its condition and through its branches. -/
theorem through_if {constexpr : Bool} (hkind : l.kind = .keyword (.ifStmt constexpr)) (hc : c.Expression p) :
    through u v (node l (c :: ts)) = (along v true (u.span c)).andThen (throughBranches u v ts) := by
  have hcondition : (node l (c :: ts)).condition? = some c := by
    have hkeyword : (node l (c :: ts)).keyword? = some (.ifStmt constexpr) := by
      simp [keyword?, kind, label, hkind]
    have hindex : (Keyword.ifStmt constexpr).conditionIndex? = some 0 := rfl
    rw [condition?, hkeyword, Option.bind_some, hindex, Option.bind_some]
    exact Option.filter_eq_some_iff.mpr ⟨rfl, decide_eq_true hc.kind_spec.2.2.1⟩
  simp [through, hkind, alongCondition, hcondition]

/-- There is no way into a loop that may change the variable. -/
theorem through_loop (ht : t.Statement p) (hloop : t.isLoop = true)
    (hchanges : u.changesVariableWithin v t = true) : through u v t = cut := by
  cases ht with
  | whileLoop hkind _ _ => simp [through, hkind, hchanges]
  | doLoop hkind _ _ => simp [through, hkind, hchanges]
  | forLoop hkind _ _ _ _ => simp [through, hkind, hchanges]
  | expression ht => simp [isLoop, ht.kind_spec.1] at hloop
  | _ => simp_all [isLoop, keyword?, kind, label, Keyword.isLoop]

/-- Where a trail that shows no change ends, there is a jump, or the way has gone into a body. -/
theorem isLeaving_or_endsWay (ht : t.Statement p) (hended : (through u v t).ended = true)
    (hchanged : (through u v t).changed = false) : t.isLeaving = true ∨ t.endsWay = true := by
  have hdiffer : ¬(through u v t).ended = (through u v t).changed := by simp [hended, hchanged]
  cases ht with
  | expression ht =>
    rw [through_expression ht] at hdiffer
    exact absurd (ended_along _) hdiffer
  | empty hkind =>
    refine absurd ?_ hdiffer
    simpa [through, hkind, alongPlain, keyword?, kind, label] using ended_along _
  | ifThen hkind hc _ =>
    rw [through_if hkind hc] at hdiffer
    exact absurd (ended_andThen (ended_along _) (ended_throughBranches _)) hdiffer
  | ifElse hkind hc _ _ =>
    rw [through_if hkind hc] at hdiffer
    exact absurd (ended_andThen (ended_along _) (ended_throughBranches _)) hdiffer
  | @whileLoop l c b hkind _ _ =>
    refine absurd ?_ hdiffer
    simp only [through, hkind]
    split
    · rfl
    · split
      · exact ended_andThen (ended_alongCondition _) (ended_throughBranches _)
      · rfl
  | block hkind _ => exact Or.inr (by simp [endsWay, isBlock, kind, label, hkind])
  | doLoop hkind _ _ => exact Or.inr (by simp [endsWay, keyword?, kind, label, hkind])
  | forLoop hkind _ _ _ _ => exact Or.inr (by simp [endsWay, keyword?, kind, label, hkind])
  | returnValue hkind _ => exact Or.inl (by simp [isLeaving, keyword?, kind, label, hkind])
  | returnNothing hkind => exact Or.inl (by simp [isLeaving, keyword?, kind, label, hkind])
  | breakLoop hkind => exact Or.inl (by simp [isLeaving, keyword?, kind, label, hkind])
  | continueLoop hkind => exact Or.inl (by simp [isLeaving, keyword?, kind, label, hkind])

/-- The way ends in a block, and in a loop other than `while`. -/
theorem ended_of_endsWay (ht : t.Statement p) (h : t.endsWay = true) : (through u v t).ended = true := by
  cases ht with
  | block hkind _ => simp [through, hkind, close]
  | doLoop hkind _ _ =>
    simp only [through, hkind]
    split <;> rfl
  | forLoop hkind _ _ _ _ =>
    simp only [through, hkind]
    split <;> rfl
  | expression ht => simp [endsWay, isBlock, ht.kind_spec.1, ht.kind_spec.2.1] at h
  | _ => simp_all [endsWay, isBlock, keyword?, kind, label]

/-- Branches without a change have none in any of them. -/
theorem changed_of_throughBranches (h : (throughBranches u v ts).changed = false) {b : Tree} (hb : b ∈ ts) :
    (through u v b).changed = false := by
  induction ts with
  | nil => exact absurd hb List.not_mem_nil
  | cons t ts ih =>
    obtain ⟨ht, hts⟩ := Bool.or_eq_false_iff.mp h
    rcases List.mem_cons.mp hb with rfl | hb
    · exact ht
    · exact ih hts hb

/-- An `if` without a change has none in its condition and none in its branches. -/
theorem of_changed_if {constexpr : Bool} (hkind : l.kind = .keyword (.ifStmt constexpr)) (hc : c.Expression p)
    (h : (through u v (node l (c :: ts))).changed = false) :
    u.changesVariableWithin v c = false ∧ ∀ b ∈ ts, (through u v b).changed = false := by
  rw [through_if hkind hc] at h
  obtain ⟨hcondition, hbranches⟩ := of_changed_andThen (fun h => (ended_along _).trans h) h
  refine ⟨(changed_along _).symm.trans hcondition, fun b hb => ?_⟩
  exact changed_of_throughBranches (hbranches ((ended_along _).trans hcondition)) hb

/-- A tree in which a variable does not change stores into no variables other than those. -/
theorem spares_of_unchanged {vars : VarId → Prop} (hvars : ∀ x, vars x → x = v.id)
    (h : u.changesVariableWithin v t = false) : t.Spares vars := by
  intro s hs x hx hreads
  obtain rfl := hvars x hreads
  exact List.any_eq_false.mp h (u.placeOf s) (List.mem_map_of_mem hs) (Place.changesVariable_of_storedVar? hx)

end Programs

section Passing

variable {V : Valuation ℤ} {k : Knowledge} {u : SourceUnit} {v : Variable} (hreads : ∀ x, k.reads x → x = v.id)
  {p : Tree → Bool} {n : Nat} {t : Tree} {ts : List Tree} {m : Machine}
include hreads

/-- What is known about a variable holds behind a statement that does not change it. -/
theorem known_exec_of_unchanged (ht : t.Statement p) (hwhole : t.IsWhole)
    (h : u.changesVariableWithin v t = false) (hm : k.known m.vars) : k.known (V.exec n t m).2.vars :=
  (k.stable V hwhole (spares_of_unchanged hreads h)).exec ht hm

/-- What is known about a variable holds behind an expression that does not change it. -/
theorem known_evaluate_of_unchanged (hwhole : t.IsWhole) (h : u.changesVariableWithin v t = false)
    (hm : k.known m.vars) : k.known (V.evaluate t m).2.vars :=
  (k.stable V hwhole (spares_of_unchanged hreads h)).evaluate hm

/-- What is known about a variable holds behind a row of statements whose trail shows no change, if it does behind
each of them and nothing changes beyond the way. -/
theorem known_execAll (hts : ∀ t ∈ ts, t.Statement p ∧ t.IsWhole)
    (hexec : ∀ t ∈ ts, (through u v t).changed = false → ∀ m, k.known m.vars → (V.exec n t m).1 = .normal →
      k.known (V.exec n t m).2.vars)
    (hchanged : (throughAll u v ts).changed = false)
    (hbeyond : ∀ t ∈ beyondWay ts, u.changesVariableWithin v t = false) (hm : k.known m.vars)
    (hexit : (V.execAll n ts m).1 = .normal) : k.known (V.execAll n ts m).2.vars := by
  induction ts generalizing m with
  | nil => exact hm
  | cons t ts ih =>
    obtain ⟨⟨ht, -⟩, hrest⟩ := List.forall_mem_cons.mp hts
    obtain ⟨hhere, hthere⟩ := of_changed_andThen ended_of_changed hchanged
    obtain ⟨hnormal, hbehind⟩ := of_andThen_normal hexit
    have hknown := hexec t List.mem_cons_self hhere m hm hnormal
    rw [Valuation.execAll, hbehind] at hexit ⊢
    unfold beyondWay at hbeyond
    cases hended : (through u v t).ended with
    | false =>
      have hway : t.endsWay = false := by
        by_contra hway
        simp [ended_of_endsWay (u := u) (v := v) ht (by simpa using hway)] at hended
      rw [hway] at hbeyond
      exact ih hrest (fun s hs => hexec s (List.mem_cons_of_mem t hs)) (hthere hended) hbeyond hknown hexit
    | true =>
      -- A jump is not passed. Behind a body that was entered, all statements are beyond the way.
      rcases isLeaving_or_endsWay ht hended hhere with hleaving | hway
      · exact absurd hnormal (Valuation.exec_of_isLeaving ht hleaving)
      · rw [if_pos hway] at hbeyond
        refine Valuation.execAll_of (P := fun m => k.known m.vars) (fun s hs m hm => ?_) hknown
        exact known_exec_of_unchanged hreads (hrest s hs).1 (hrest s hs).2 (hbeyond s hs) hm

/-- What is known about a variable holds behind a statement whose trail shows no change, if the statement ends
normally and no block in it hides a change. -/
theorem known_exec (ht : t.Statement p) (hwhole : t.IsWhole) (hchanged : (through u v t).changed = false)
    (hopen : ∀ s ∈ t.subtrees, u.hidesChange v s = false) (hm : k.known m.vars)
    (hexit : (V.exec n t m).1 = .normal) : k.known (V.exec n t m).2.vars := by
  induction t using induction_operands generalizing m with
  | step l ts ih =>
    have hoperand {a : Tree} (ha : a ∈ ts) (hstatement : a.Statement p)
        (hchanged : (through u v a).changed = false) (m : Machine) (hm : k.known m.vars)
        (hexit : (V.exec n a m).1 = .normal) : k.known (V.exec n a m).2.vars :=
      ih a ha hstatement (hwhole.operand ha) hchanged
        (fun s hs => hopen s (mem_subtrees_trans hs (hwhole.mem_of_operand ha))) hm hexit
    have hloop (h : (node l ts).isLoop = true) : k.known (V.exec n (node l ts) m).2.vars := by
      refine known_exec_of_unchanged (u := u) hreads ht hwhole ?_ hm
      by_contra hchanges
      simp [through_loop ht h (by simpa using hchanges), cut] at hchanged
    -- The trail looks into blocks and branches, so that the run is split along them. A loop is taken as a whole.
    cases ht with
    | expression ht =>
      rw [through_expression ht, changed_along] at hchanged
      exact known_exec_of_unchanged (u := u) hreads (.expression ht) hwhole hchanged hm
    | empty hkind => simpa [Valuation.exec, hkind] using hm
    | block hkind hts =>
      have hbeyond := SourceUnit.unchanged_of_hidesChange hkind (hopen _ (mem_subtrees_self _))
      rw [V.exec_block n m hkind] at hexit ⊢
      simp only [through, hkind] at hchanged
      exact known_execAll hreads (fun a ha => ⟨hts a ha, hwhole.operand ha⟩) (fun a ha => hoperand ha (hts a ha))
        hchanged hbeyond hm hexit
    | @ifThen _ _ c a hkind hc ha =>
      obtain ⟨hcondition, hbranches⟩ := of_changed_if hkind hc hchanged
      have hknown := known_evaluate_of_unchanged (V := V) hreads (hwhole.operand (by simp)) hcondition hm
      rw [V.exec_ifThen n m hkind] at hexit ⊢
      split at hexit
      · next hfalse => rwa [if_pos hfalse]
      · next htrue =>
        rw [if_neg htrue]
        exact hoperand (by simp) ha (hbranches a (by simp)) _ hknown hexit
    | @ifElse _ _ c a b hkind hc ha hb =>
      obtain ⟨hcondition, hbranches⟩ := of_changed_if hkind hc hchanged
      have hknown := known_evaluate_of_unchanged (V := V) hreads (hwhole.operand (by simp)) hcondition hm
      rw [V.exec_ifElse n m hkind] at hexit ⊢
      split at hexit
      · next hfalse =>
        rw [if_pos hfalse]
        exact hoperand (by simp) hb (hbranches b (by simp)) _ hknown hexit
      · next htrue =>
        rw [if_neg htrue]
        exact hoperand (by simp) ha (hbranches a (by simp)) _ hknown hexit
    | whileLoop hkind _ _ => exact hloop (by simp [isLoop, keyword?, kind, label, hkind, Keyword.isLoop])
    | doLoop hkind _ _ => exact hloop (by simp [isLoop, keyword?, kind, label, hkind, Keyword.isLoop])
    | forLoop hkind _ _ _ _ => exact hloop (by simp [isLoop, keyword?, kind, label, hkind, Keyword.isLoop])
    | returnValue hkind _ => simp [V.exec_return n m hkind] at hexit
    | returnNothing hkind => simp [Valuation.exec, hkind] at hexit
    | breakLoop hkind => simp [Valuation.exec, hkind] at hexit
    | continueLoop hkind => simp [Valuation.exec, hkind] at hexit

end Passing

section Visiting

variable {V : Valuation ℤ} {f : Forecast V} {u : SourceUnit} {v : Variable}
  (hreads : ∀ x, f.reads x → x = v.id) {p : Tree → Bool} {n : Nat} {t : Tree} {ts : List Tree} {c : Bool}
  {m : Machine}
include hreads

/-- An expression keeps the forecast when the subject is reached in it before the variable changes. -/
theorem kept_evaluate (hunshared : t.IsUnshared)
    (hreached : Reached (fun s => (u.placeOf s).changesVariable v = false) f.subject t.subtrees)
    (hm : f.Valid m) : f.Kept (V.evaluate t m).2 := by
  refine Forecast.kept_evaluate_of_reached hunshared (hreached.mono fun s hs x hx hread => ?_) hm
  obtain rfl := hreads x hread
  simp [Place.changesVariable_of_storedVar? (p := u.placeOf s) hx] at hs

/-- A row of statements keeps the forecast when the trail through it reaches the subject in one of them that
keeps it, and the ones in front of that hide no change. -/
theorem kept_execAll (hts : ∀ t ∈ ts, t.Statement p ∧ t.IsWhole) (hdistinct : (ts.flatMap ids).Nodup)
    (hopen : ∀ before t behind, ts = before ++ t :: behind → f.subject ∈ t.subtrees → ∀ a ∈ before,
      ∀ s ∈ a.subtrees, u.hidesChange v s = false)
    (hexec : ∀ t ∈ ts, (u.placeOf f.subject, c) ∈ (through u v t).nodes → ∀ m, f.Valid m →
      f.Kept (V.exec n t m).2)
    (hq : (u.placeOf f.subject, c) ∈ (throughAll u v ts).nodes) (hm : f.Valid m) :
    f.Kept (V.execAll n ts m).2 := by
  obtain ⟨before, t, behind, rfl, hbefore, ht⟩ := exists_of_mem_throughAll hq
  have hsubject : f.subject ∈ t.subtrees := (of_mem_through (hts t (by simp)).2 ht).1
  refine Forecast.kept_execAll_around hts hdistinct hsubject (fun a ha m hm hexit => ?_) (hexec t (by simp) ht) hm
  obtain ⟨hstatement, hwhole⟩ := hts a (by simp [ha])
  exact known_exec hreads hstatement hwhole (changed_of_ended (hbefore a ha)) (hopen before t behind rfl hsubject a ha)
    hm hexit

/-- An `if` whose trail reaches the subject keeps the forecast while its condition is evaluated, and so does
whatever branch is taken, if the one with the subject does. -/
theorem kept_if {l : Label} {constexpr : Bool} {condition : Tree} (hkind : l.kind = .keyword (.ifStmt constexpr))
    (hcondition : condition.Expression p) (hunshared : (node l (condition :: ts)).IsUnshared)
    (hexec : ∀ a ∈ ts, a.Statement p → (u.placeOf f.subject, c) ∈ (through u v a).nodes → ∀ m, f.Valid m →
      f.Kept (V.exec n a m).2)
    (hq : (u.placeOf f.subject, c) ∈ (through u v (node l (condition :: ts))).nodes) (hm : f.Valid m) :
    f.Kept (V.evaluate condition m).2 ∧
      ∀ a ∈ ts, a.Statement p → f.Kept (V.exec n a (V.evaluate condition m).2).2 := by
  have hdistinct := hunshared.operands_nodup
  have hwhole {a : Tree} (ha : a ∈ condition :: ts) : a.IsWhole := hunshared.whole.operand ha
  rw [through_if hkind hcondition] at hq
  rcases mem_nodes_andThen hq with hhere | ⟨hgoing, hthere⟩
  · obtain ⟨-, hreached⟩ := reached_of_mem_along hhere
    have hkept := kept_evaluate (V := V) hreads (hunshared.operand List.mem_cons_self) hreached hm
    refine ⟨hkept, fun a ha hstatement => ?_⟩
    have hid := not_mem_ids_beside (List.nil_append (condition :: ts) ▸ hdistinct) (id_mem_ids hreached.mem)
      (Or.inr ha)
    exact (Forecast.stable_kept (hwhole (List.mem_cons_of_mem _ ha)) hid).exec hstatement hkept
  · obtain ⟨b, hb, hnode⟩ := exists_of_mem_throughBranches hthere
    have hsubject := id_mem_ids (of_mem_through (hwhole (List.mem_cons_of_mem _ hb)) hnode).1
    obtain ⟨before, behind, rfl⟩ := List.append_of_mem hb
    have hbeside {a : Tree} (ha : a ∈ condition :: before ∨ a ∈ behind) : f.subject.id ∉ a.ids :=
      not_mem_ids_beside hdistinct hsubject ha
    rw [ended_along, changed_along] at hgoing
    have hvalid := (Forecast.stable_valid_of_not_mem (hwhole List.mem_cons_self)
      (spares_of_unchanged hreads hgoing) (hbeside (Or.inl List.mem_cons_self))).evaluate hm
    refine ⟨hvalid.2, fun a ha hstatement => ?_⟩
    have hstays (ha' : a ∈ condition :: before ∨ a ∈ behind) :=
      (Forecast.stable_kept (hwhole (List.mem_cons_of_mem _ ha)) (hbeside ha')).exec (n := n) hstatement hvalid.2
    rcases List.mem_append.mp ha with ha' | ha'
    · exact hstays (Or.inl (List.mem_cons_of_mem _ ha'))
    · rcases List.mem_cons.mp ha' with rfl | ha'
      · exact hexec a hb hstatement hnode _ hvalid
      · exact hstays (Or.inr ha')

/-- A statement keeps the forecast when the trail through it reaches the subject, and the blocks before the
subject hide no change. -/
theorem kept_exec (hu : u.IsUnshared) (ht : t.Statement p) (hlisted : t ∈ u.listing)
    (hsubject : f.subject.Expression p)
    (hopen : ∀ s ∈ t.subtrees, u.position s < u.position f.subject → f.subject ∉ s.subtrees →
      u.hidesChange v s = false)
    (hq : (u.placeOf f.subject, c) ∈ (through u v t).nodes) (hm : f.Valid m) : f.Kept (V.exec n t m).2 := by
  induction t using induction_operands generalizing m with
  | step l ts ih =>
    have hunshared := hu.isUnshared hlisted
    have hwhole := hunshared.whole
    have hoperand {a : Tree} (ha : a ∈ ts) (hstatement : a.Statement p)
        (hq : (u.placeOf f.subject, c) ∈ (through u v a).nodes) (m : Machine) (hm : f.Valid m) :
        f.Kept (V.exec n a m).2 := by
      have hmem := hwhole.mem_of_operand ha
      exact ih a ha hstatement ((SourceUnit.isInfix_listing hlisted).subset hmem)
        (fun s hs => hopen s (mem_subtrees_trans hs hmem)) hq hm
    have hin := (of_mem_through hwhole hq).1
    have hloop (h : (node l ts).isLoop = true) : f.Kept (V.exec n (node l ts) m).2 := by
      have hunchanged : u.changesVariableWithin v (node l ts) = false := by
        by_contra hchanges
        simp [through_loop ht h (by simpa using hchanges), cut] at hq
      refine ((Forecast.stable_valid hwhole (spares_of_unchanged hreads hunchanged) fun r hr hid => ?_).exec ht hm).2
      exact hunshared.eq_of_id_eq hr hin hid
    cases ht with
    | expression ht =>
      rw [through_expression ht] at hq
      rw [V.exec_expression n m ht]
      exact kept_evaluate hreads hunshared (reached_of_mem_along hq).2 hm
    | block hkind hts =>
      simp only [through, hkind] at hq
      rw [V.exec_block n m hkind]
      refine kept_execAll hreads (fun a ha => ⟨hts a ha, hwhole.operand ha⟩) hunshared.operands_nodup
        (fun before b behind heq hb a ha s hs => ?_) (fun a ha => hoperand ha (hts a ha)) hq hm
      have hmem := mem_subtrees_trans hs (hwhole.mem_of_operand (a := a) (by simp [operands, heq, ha]))
      have hend := hu.end_le_of_later_operand hlisted heq ha hs hb
      exact hopen s hmem (by have := s.size_pos; omega)
        (hu.not_mem_subtrees_of_end_le ((SourceUnit.isInfix_listing hlisted).subset hmem) hend)
    | @ifThen _ _ condition a hkind hcondition ha =>
      obtain ⟨hkept, hbranch⟩ := kept_if hreads hkind hcondition hunshared
        (fun b hb => hoperand (List.mem_cons_of_mem _ hb)) hq hm
      rw [V.exec_ifThen n m hkind]
      split
      · exact hkept
      · exact hbranch a (by simp) ha
    | @ifElse _ _ condition a b hkind hcondition ha hb =>
      obtain ⟨-, hbranch⟩ := kept_if hreads hkind hcondition hunshared
        (fun b hb => hoperand (List.mem_cons_of_mem _ hb)) hq hm
      rw [V.exec_ifElse n m hkind]
      split
      · exact hbranch b (by simp) hb
      · exact hbranch a (by simp) ha
    | whileLoop hkind _ _ => exact hloop (by simp [isLoop, keyword?, kind, label, hkind, Keyword.isLoop])
    | doLoop hkind _ _ => exact hloop (by simp [isLoop, keyword?, kind, label, hkind, Keyword.isLoop])
    | forLoop hkind _ _ _ _ => exact hloop (by simp [isLoop, keyword?, kind, label, hkind, Keyword.isLoop])
    | @returnValue _ a hkind ha =>
      have hnode : (u.placeOf f.subject, c) ∈ (along v false (u.span (node l [a]))).nodes := by
        simpa [through, hkind, alongPlain, keyword?, kind, label, Keyword.isJump, close] using hq
      obtain ⟨-, hreached⟩ := reached_of_mem_along hnode
      rw [hwhole.subtrees_node, List.flatMap_singleton] at hreached
      rw [V.exec_return n m hkind]
      rcases hreached with heq | ⟨-, hreached⟩
      · have hkeyword : (node l [a]).keyword? = none := heq ▸ hsubject.kind_spec.1
        simp [keyword?, kind, label, hkind] at hkeyword
      · exact kept_evaluate hreads (hunshared.operand (by simp)) hreached hm
    -- The remaining statements evaluate nothing.
    | empty hkind => simpa [Valuation.exec, hkind] using hm.2
    | returnNothing hkind => simpa [Valuation.exec, hkind] using hm.2
    | breakLoop hkind => simpa [Valuation.exec, hkind] using hm.2
    | continueLoop hkind => simpa [Valuation.exec, hkind] using hm.2

end Visiting

end Trail

end ConditionLint
