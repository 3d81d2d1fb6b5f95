import ConditionLint.Check.MaskedAssignment
import ConditionLint.Proofs.InnerCondition
import ConditionLint.Proofs.Position

/-!
# Following a value through statements

The trail of a statement is put together from the trails of its parts, in one of the ways that `Trail.Follows`
lists. A trail reaches nodes of its statement, and along an expression it reaches them before the variable
changes. When it does not end in a statement, that statement is no jump and no block.
-/

namespace ConditionLint

open ConditionLint.Tree

namespace Trail

section Composition

variable {T U : Trail}

/-- Two trails one behind the other end at a change only, if both of them do. -/
theorem ended_andThen (hT : T.ended = T.changed) (hU : U.ended = U.changed) :
    (T.andThen U).ended = (T.andThen U).changed := by
  unfold andThen
  split
  · exact hT
  · exact hU

/-- Without a change on two trails one behind the other, there is none on the first, nor on the second unless the
first has ended. -/
theorem of_changed_andThen (hT : T.changed = true → T.ended = true) (h : (T.andThen U).changed = false) :
    T.changed = false ∧ (T.ended = false → U.changed = false) := by
  unfold andThen at h
  split at h
  · next hended => exact ⟨h, fun hgoing => by simp [hgoing] at hended⟩
  · next hgoing => exact ⟨by simpa using mt hT hgoing, fun _ => h⟩

/-- What two trails one behind the other reach, the first reaches, or the second does and the first has not
ended. -/
theorem mem_nodes_andThen {e : Place × Bool} (h : e ∈ (T.andThen U).nodes) :
    e ∈ T.nodes ∨ T.ended = false ∧ e ∈ U.nodes := by
  unfold andThen at h
  split at h
  · exact Or.inl h
  · next hgoing =>
    rcases List.mem_append.mp h with h | h
    · exact Or.inl h
    · exact Or.inr ⟨by simpa using hgoing, h⟩

end Composition

section Parts

variable {u : SourceUnit} {v : Variable} {inCondition : Bool} {t : Tree} {ts : List Tree} {e : Place × Bool}

/-- The variable may have changed on a trail along nodes if it may change at one of them. -/
theorem changed_along (ps : List Place) :
    (along v inCondition ps).changed = ps.any fun p => p.changesVariable v := by
  induction ps with
  | nil => rfl
  | cons p ps ih =>
    unfold along
    split
    · next hp => simp [hp]
    · next hp => simpa [hp] using ih

/-- A trail along nodes ends at a change only. -/
theorem ended_along (ps : List Place) : (along v inCondition ps).ended = (along v inCondition ps).changed := by
  induction ps with
  | nil => rfl
  | cons p ps ih =>
    unfold along
    split
    · rfl
    · exact ih

/-- A trail along trees reaches a tree through trees that do not change the variable. -/
theorem reached_of_mem_along {q : Place} {c : Bool}
    (h : (q, c) ∈ (along v inCondition (ts.map u.placeOf)).nodes) :
    q = u.placeOf q.tree ∧ Reached (fun s => (u.placeOf s).changesVariable v = false) q.tree ts := by
  induction ts with
  | nil => exact absurd h List.not_mem_nil
  | cons t ts ih =>
    rw [List.map_cons, along] at h
    split at h
    · obtain ⟨rfl, -⟩ : q = u.placeOf t ∧ c = inCondition := by simpa using h
      exact ⟨rfl, Or.inl rfl⟩
    · next ht =>
      rcases List.mem_cons.mp h with heq | h
      · obtain ⟨rfl, -⟩ : q = u.placeOf t ∧ c = inCondition := by simpa using heq
        exact ⟨rfl, Or.inl rfl⟩
      · obtain ⟨hplace, hreached⟩ := ih h
        exact ⟨hplace, Or.inr ⟨by simpa using ht, hreached⟩⟩

/-- A trail through a condition ends at a change only. -/
theorem ended_alongCondition (t : Tree) : (alongCondition u v t).ended = (alongCondition u v t).changed := by
  unfold alongCondition
  cases t.condition? with
  | none => rfl
  | some c => exact ended_along (u.span c)

/-- A trail through branches ends at a change only. -/
theorem ended_throughBranches (ts : List Tree) :
    (throughBranches u v ts).ended = (throughBranches u v ts).changed := by
  cases ts with
  | nil => rfl
  | cons t ts => rfl

/-- What a row of statements reaches, one of them reaches, and none in front of it ends the way. -/
theorem exists_of_mem_throughAll (h : e ∈ (throughAll u v ts).nodes) :
    ∃ before t behind, ts = before ++ t :: behind ∧ (∀ s ∈ before, (through u v s).ended = false) ∧
      e ∈ (through u v t).nodes := by
  induction ts with
  | nil => exact absurd h List.not_mem_nil
  | cons t ts ih =>
    rw [throughAll] at h
    rcases mem_nodes_andThen h with hhere | ⟨hgoing, hthere⟩
    · exact ⟨[], t, ts, rfl, by simp, hhere⟩
    · obtain ⟨before, s, behind, rfl, hbefore, hs⟩ := ih hthere
      exact ⟨t :: before, s, behind, rfl, List.forall_mem_cons.mpr ⟨hgoing, hbefore⟩, hs⟩

/-- What branches reach, one of them reaches. -/
theorem exists_of_mem_throughBranches (h : e ∈ (throughBranches u v ts).nodes) :
    ∃ t ∈ ts, e ∈ (through u v t).nodes := by
  induction ts with
  | nil => exact absurd h List.not_mem_nil
  | cons t ts ih =>
    rw [throughBranches] at h
    rcases List.mem_append.mp h with hhere | hthere
    · exact ⟨t, List.mem_cons_self, hhere⟩
    · obtain ⟨s, hs, hnode⟩ := ih hthere
      exact ⟨s, List.mem_cons_of_mem t hs, hnode⟩

end Parts

section Statements

variable {u : SourceUnit} {v : Variable} {t : Tree}

/-- The ways in which the value of a variable is followed through a statement. -/
inductive Follows (u : SourceUnit) (v : Variable) (t : Tree) : Trail → Prop where
  /-- The condition and the branches of a statement that is no block and no jump. Only an `if` may change the
  variable. -/
  | branches {c : Tree} {ts : List Tree} (hoperands : t.operands = c :: ts)
      (hjump : t.keyword?.any Keyword.isJump = false) (hblock : t.isBlock = false)
      (hunchanged : t.isIf = false → u.changesVariableWithin v t = false) :
      Follows u v t ((alongCondition u v t).andThen (throughBranches u v ts))
  /-- The statement may change the variable. -/
  | cut : Follows u v t cut
  /-- The statement does not change the variable, and is passed over. -/
  | passed (hjump : t.keyword?.any Keyword.isJump = false) (hblock : t.isBlock = false)
      (hunchanged : u.changesVariableWithin v t = false) : Follows u v t start
  /-- The way goes into the body of the statement and ends there. -/
  | body {b : Tree} (hb : b ∈ t.operands) : Follows u v t (through u v b).close
  | block (hblock : t.isBlock = true) : Follows u v t (throughAll u v t.operands).close
  | plain (hblock : t.isBlock = false) : Follows u v t (alongPlain u v t)

/-- A trail through a statement is one of these. -/
theorem follows_through (t : Tree) : Follows u v t (through u v t) := by
  obtain ⟨l, ts⟩ := t
  rw [through.eq_def]
  dsimp only
  split
  · next c bs hkind =>
    refine .branches rfl ?_ ?_ fun hif => ?_
    · simp [keyword?, kind, label, hkind, Keyword.isJump]
    · simp [isBlock, kind, label, hkind]
    · simp [isIf, kind, label, hkind] at hif
  · next c bs hkind =>
    have hjump : (node l (c :: bs)).keyword?.any Keyword.isJump = false := by
      simp [keyword?, kind, label, hkind, Keyword.isJump]
    have hblock : (node l (c :: bs)).isBlock = false := by simp [isBlock, kind, label, hkind]
    split
    · exact .cut
    · next hunchanged =>
      have hunchanged : u.changesVariableWithin v (node l (c :: bs)) = false := by simpa using hunchanged
      split
      · exact .branches rfl hjump hblock fun _ => hunchanged
      · exact .passed hjump hblock hunchanged
  · split
    · exact .cut
    · exact .body (by simp [operands])
  · split
    · exact .cut
    · exact .body (by simp [operands])
  · split
    · exact .cut
    · exact .body (by simp [operands])
  · exact .body (by simp [operands])
  · next hkind => exact .block (by simp [isBlock, kind, label, hkind])
  · exact .plain (by simp_all [isBlock, kind, label])

/-- A trail through a statement ends where the variable may change. -/
theorem ended_of_changed (hchanged : (through u v t).changed = true) : (through u v t).ended = true := by
  have h := follows_through (u := u) (v := v) t
  generalize through u v t = T at h hchanged
  cases h with
  | branches => exact (ended_andThen (ended_alongCondition t) (ended_throughBranches _)).trans hchanged
  | cut => rfl
  | passed => exact hchanged
  | body => rfl
  | block => rfl
  | plain =>
    unfold alongPlain at hchanged ⊢
    dsimp only at hchanged ⊢
    split at hchanged
    · next hjump => simp [hjump, close]
    · next hjump => simpa [hjump] using (ended_along _).trans hchanged

/-- A trail that does not end shows no change. -/
theorem changed_of_ended (hended : (through u v t).ended = false) : (through u v t).changed = false := by
  by_contra hchanged
  simp [ended_of_changed (by simpa using hchanged)] at hended

/-- Where a trail does not end, there is no jump and no block, and nothing but an `if` may change the variable. -/
theorem of_ended_eq_false (hended : (through u v t).ended = false) :
    t.keyword?.any Keyword.isJump = false ∧ t.isBlock = false ∧
      (t.isIf = false → u.changesVariableWithin v t = false) := by
  have h := follows_through (u := u) (v := v) t
  generalize through u v t = T at h hended
  cases h with
  | branches _ hjump hblock hunchanged => exact ⟨hjump, hblock, hunchanged⟩
  | cut => contradiction
  | passed hjump hblock hunchanged => exact ⟨hjump, hblock, fun _ => hunchanged⟩
  | body => contradiction
  | block => contradiction
  | plain hblock =>
    unfold alongPlain at hended
    dsimp only at hended
    split at hended
    · contradiction
    · next hjump =>
      refine ⟨by simpa using hjump, hblock, fun _ => ?_⟩
      rw [ended_along, changed_along] at hended
      exact hended

/-- A trail through a tree reaches places of its nodes. -/
theorem of_mem_through {q : Place} {c : Bool} (hwhole : t.IsWhole) (h : (q, c) ∈ (through u v t).nodes) :
    q.tree ∈ t.subtrees ∧ q = u.placeOf q.tree := by
  induction t using induction_operands with
  | step l ts ih =>
    have halong {s : Tree} {inCondition : Bool} (hs : s ∈ (node l ts).subtrees)
        (h : (q, c) ∈ (along v inCondition (u.span s)).nodes) :
        q.tree ∈ (node l ts).subtrees ∧ q = u.placeOf q.tree := by
      obtain ⟨hplace, hreached⟩ := reached_of_mem_along h
      exact ⟨mem_subtrees_trans hreached.mem hs, hplace⟩
    have hoperand {a : Tree} (ha : a ∈ ts) (h : (q, c) ∈ (through u v a).nodes) :
        q.tree ∈ (node l ts).subtrees ∧ q = u.placeOf q.tree := by
      obtain ⟨hmem, hplace⟩ := ih a ha (hwhole.operand ha) h
      exact ⟨mem_subtrees_trans hmem (hwhole.mem_of_operand ha), hplace⟩
    have hfollows := follows_through (u := u) (v := v) (node l ts)
    generalize through u v (node l ts) = T at h hfollows
    cases hfollows with
    | @branches c' bs hoperands =>
      obtain rfl : ts = c' :: bs := hoperands
      rcases mem_nodes_andThen h with hcondition | ⟨-, hbranches⟩
      · unfold alongCondition at hcondition
        cases hc : (node l (c' :: bs)).condition? with
        | none => simp [hc, start] at hcondition
        | some c =>
          rw [hc] at hcondition
          exact halong (hwhole.mem_of_operand (mem_operands_of_condition? hc)) hcondition
      · obtain ⟨a, ha, hnode⟩ := exists_of_mem_throughBranches hbranches
        exact hoperand (List.mem_cons_of_mem c' ha) hnode
    | cut => exact absurd h List.not_mem_nil
    | passed => exact absurd h List.not_mem_nil
    | body hb => exact hoperand hb h
    | block =>
      obtain ⟨before, a, behind, rfl, -, hnode⟩ := exists_of_mem_throughAll h
      exact hoperand (by simp) hnode
    | plain =>
      unfold alongPlain at h
      dsimp only at h
      split at h
      · exact halong (mem_subtrees_self _) h
      · exact halong (mem_subtrees_self _) h

end Statements

end Trail

end ConditionLint
