import ConditionLint.Change
import ConditionLint.Proofs.Listing
import ConditionLint.Proofs.Opposition

/-!
# Programs over variables

The expressions of a program are made of constants, variables and operators, among them assignments to
variables and increments of variables. Its statements are expressions, blocks, branches, loops and jumps.
Expressions hold no statements. An expression in which nothing is stored is pure, and so are two
expressions that are the same, or that clash as conditions.
-/

namespace ConditionLint.Tree

/-- A pure expression that stands for a variable, so that a value can be stored into it. -/
structure Target (p : Tree → Bool) (t : Tree) : Prop where
  isPure : t.Pure p
  isDesignated : t.designated?.isSome = true

/-- Expressions of a program, all of whose nodes satisfy a condition. -/
inductive Expression (p : Tree → Bool) : Tree → Prop where
  | leaf {l : Label} (h : (node l []).Pure p) : Expression p (node l [])
  | unary {l : Label} {op : UnaryOp} {t : Tree} (hnode : p (node l [t]) = true)
      (hkind : l.kind = .unary op) (hop : op.isPure = true) (ht : Expression p t) : Expression p (node l [t])
  | binary {l : Label} {op : BinaryOp} {a b : Tree} (hnode : p (node l [a, b]) = true)
      (hkind : l.kind = .binary op) (hop : op.isPure = true) (ha : Expression p a) (hb : Expression p b) :
      Expression p (node l [a, b])
  | ternary {l : Label} {c a b : Tree} (hnode : p (node l [c, a, b]) = true)
      (hkind : l.kind = .ternary) (hc : Expression p c) (ha : Expression p a) (hb : Expression p b) :
      Expression p (node l [c, a, b])
  | assignment {l : Label} {op : BinaryOp} {a b : Tree} (hnode : p (node l [a, b]) = true)
      (hkind : l.kind = .binary op) (hop : op.isAssignment = true) (ha : a.Target p)
      (hb : Expression p b) : Expression p (node l [a, b])
  | increment {l : Label} {op : UnaryOp} {t : Tree} (hnode : p (node l [t]) = true)
      (hkind : l.kind = .unary op) (hop : op.isIncrement = true) (ht : t.Target p) :
      Expression p (node l [t])

/-- A clause of a `for`: an expression, or nothing. -/
def Clause (p : Tree → Bool) (t : Tree) : Prop := t.Expression p ∨ t.kind = .empty ∧ t.operands = []

/-- Statements of a program, all of whose expressions have nodes that satisfy a condition. -/
inductive Statement (p : Tree → Bool) : Tree → Prop where
  | expression {t : Tree} (h : t.Expression p) : Statement p t
  | empty {l : Label} (hkind : l.kind = .empty) : Statement p (node l [])
  | block {l : Label} {ts : List Tree} (hkind : l.kind = .block) (hts : ∀ t ∈ ts, Statement p t) :
      Statement p (node l ts)
  | ifThen {l : Label} {constexpr : Bool} {c a : Tree} (hkind : l.kind = .keyword (.ifStmt constexpr))
      (hc : c.Expression p) (ha : Statement p a) : Statement p (node l [c, a])
  | ifElse {l : Label} {constexpr : Bool} {c a b : Tree} (hkind : l.kind = .keyword (.ifStmt constexpr))
      (hc : c.Expression p) (ha : Statement p a) (hb : Statement p b) : Statement p (node l [c, a, b])
  | whileLoop {l : Label} {c b : Tree} (hkind : l.kind = .keyword .whileStmt) (hc : c.Expression p)
      (hb : Statement p b) : Statement p (node l [c, b])
  | doLoop {l : Label} {b c : Tree} (hkind : l.kind = .keyword .doWhile) (hb : Statement p b)
      (hc : c.Expression p) : Statement p (node l [b, c])
  | forLoop {l : Label} {start c step b : Tree} (hkind : l.kind = .keyword .forStmt)
      (hstart : start.Clause p) (hc : c.Clause p) (hstep : step.Clause p) (hb : Statement p b) :
      Statement p (node l [start, c, step, b])
  | returnValue {l : Label} {t : Tree} (hkind : l.kind = .keyword .returnStmt) (ht : t.Expression p) :
      Statement p (node l [t])
  | returnNothing {l : Label} (hkind : l.kind = .keyword .returnStmt) : Statement p (node l [])
  | breakLoop {l : Label} (hkind : l.kind = .keyword .breakStmt) : Statement p (node l [])
  | continueLoop {l : Label} (hkind : l.kind = .keyword .continueStmt) : Statement p (node l [])

variable {p : Tree → Bool} {l : Label} {s t u : Tree}

/-- Pure expressions are expressions. -/
theorem Pure.expression (h : t.Pure p) : t.Expression p := by
  induction h with
  | literal hnode hkind hvalue => exact .leaf (.literal hnode hkind hvalue)
  | enumerator hnode hkind hreferent => exact .leaf (.enumerator hnode hkind hreferent)
  | reference hnode hkind hreferent => exact .leaf (.reference hnode hkind hreferent)
  | unary hnode hkind hop _ ih => exact .unary hnode hkind hop ih
  | binary hnode hkind hop _ _ iha ihb => exact .binary hnode hkind hop iha ihb
  | ternary hnode hkind _ _ _ ihc iha ihb => exact .ternary hnode hkind ihc iha ihb

namespace Expression

/-- The nodes of an expression satisfy the condition, the topmost one first of all. -/
theorem node_holds (h : t.Expression p) : p t = true := by
  cases h with
  | leaf h => exact h.node_holds
  | unary hnode _ _ _ => exact hnode
  | binary hnode _ _ _ _ => exact hnode
  | ternary hnode _ _ _ _ => exact hnode
  | assignment hnode _ _ _ _ => exact hnode
  | increment hnode _ _ _ => exact hnode

/-- The operands of an expression are expressions. -/
theorem operand (h : t.Expression p) {a : Tree} (ha : a ∈ t.operands) : a.Expression p := by
  cases h <;> simp only [operands, List.mem_cons, List.not_mem_nil, or_false] at ha <;>
    grind [Pure.expression, Target]

/-- The subtrees of an expression are expressions. -/
theorem of_mem (h : t.Expression p) (hs : s ∈ t.subtrees) : s.Expression p :=
  of_mem_subtrees (fun _ h _ ha => h.operand ha) h hs

/-- An expression is pure, or it is made by an operator. -/
theorem pure_or_operator (h : t.Expression p) :
    t.Pure p ∨ (∃ op, t.kind = .unary op) ∨ (∃ op, t.kind = .binary op) ∨ t.kind = .ternary := by
  cases h with
  | leaf h => exact Or.inl h
  | unary _ hkind _ _ => exact Or.inr (Or.inl ⟨_, hkind⟩)
  | binary _ hkind _ _ _ => exact Or.inr (Or.inr (Or.inl ⟨_, hkind⟩))
  | ternary _ hkind _ _ _ => exact Or.inr (Or.inr (Or.inr hkind))
  | assignment _ hkind _ _ _ => exact Or.inr (Or.inr (Or.inl ⟨_, hkind⟩))
  | increment _ hkind _ _ => exact Or.inr (Or.inl ⟨_, hkind⟩)

/-- An expression is no statement with a keyword, no block and no call. -/
theorem kind_spec (h : t.Expression p) : t.keyword? = none ∧ t.kind ≠ .block ∧ t.kind ≠ .empty ∧
    t.callee? = none := by
  rcases h.pure_or_operator with h | ⟨op, hkind⟩ | ⟨op, hkind⟩ | hkind
  · cases h <;> simp_all [keyword?, callee?, kind, label]
  · simp [keyword?, callee?, hkind]
  · simp [keyword?, callee?, hkind]
  · simp [keyword?, callee?, hkind]

end Expression

/-- The condition of a statement with a keyword is an operand, and not empty. -/
theorem of_condition? {c : Tree} {word : Keyword} {i : Nat} (hkind : t.kind = .keyword word)
    (hindex : word.conditionIndex? = some i) (h : t.condition? = some c) :
    t.operands[i]? = some c ∧ c.kind ≠ .empty := by
  have hkeyword : t.keyword? = some word := by simp [keyword?, hkind]
  rw [condition?, hkeyword, Option.bind_some, hindex, Option.bind_some] at h
  simpa [operand?] using Option.filter_eq_some_iff.mp h

/-- The body of a statement with a keyword is an operand. -/
theorem of_body? {b : Tree} {word : Keyword} {i : Nat} (hkind : t.kind = .keyword word)
    (hindex : word.bodyIndex? = some i) (h : t.body? = some b) : t.operands[i]? = some b := by
  have hkeyword : t.keyword? = some word := by simp [keyword?, hkind]
  rwa [body?, hkeyword, Option.bind_some, hindex, Option.bind_some] at h

/-- The condition of a statement is one of its operands. -/
theorem mem_operands_of_condition? {c : Tree} (h : t.condition? = some c) : c ∈ t.operands := by
  obtain ⟨i, -, hi⟩ := Option.bind_eq_some_iff.mp h
  exact List.mem_of_getElem? (Option.filter_eq_some_iff.mp hi).1

/-- The body of a statement is one of its operands. -/
theorem mem_operands_of_body? {b : Tree} (h : t.body? = some b) : b ∈ t.operands := by
  obtain ⟨i, -, hi⟩ := Option.bind_eq_some_iff.mp h
  exact List.mem_of_getElem? hi

/-- A node with a keyword is a statement with it. -/
theorem kind_of_keyword? {word : Keyword} (h : t.keyword? = some word) : t.kind = .keyword word := by
  unfold keyword? at h
  split at h
  · next hkind => rw [hkind, Option.some.inj h]
  · contradiction

/-- A node with a binary operator is a binary node. -/
theorem kind_of_binaryOp? {op : BinaryOp} (h : t.binaryOp? = some op) : t.kind = .binary op := by
  unfold binaryOp? at h
  split at h
  · next hkind => rw [hkind, Option.some.inj h]
  · contradiction

/-- A node with a unary operator is a unary node. -/
theorem kind_of_unaryOp? {op : UnaryOp} (h : t.unaryOp? = some op) : t.kind = .unary op := by
  unfold unaryOp? at h
  split at h
  · next hkind => rw [hkind, Option.some.inj h]
  · contradiction

/-- The condition of a statement and its body have no nodes in common. -/
theorem IsUnshared.disjoint_condition_body (h : t.IsUnshared) {c b : Tree} (hc : t.condition? = some c)
    (hb : t.body? = some b) : c.ids.Disjoint b.ids := by
  obtain ⟨i, hi, -⟩ := Option.bind_eq_some_iff.mp hc
  obtain ⟨word, hword, hi⟩ := Option.bind_eq_some_iff.mp hi
  obtain ⟨j, hj⟩ : ∃ j, word.bodyIndex? = some j := by
    cases word <;> simp_all [Keyword.conditionIndex?, Keyword.bodyIndex?]
  have hij : i ≠ j := by
    cases word <;> simp_all [Keyword.conditionIndex?, Keyword.bodyIndex?] <;> omega
  have hkind := kind_of_keyword? hword
  exact h.disjoint_operands hij (of_condition? hkind hi hc).1 (of_body? hkind hj hb)

/-- An `if` has its condition as first operand and its body as second. -/
theorem exists_of_if {c a : Tree} (hif : t.isIf = true) (hc : t.condition? = some c) (ha : t.body? = some a) :
    ∃ l ts, t = node l (c :: a :: ts) := by
  obtain ⟨l, ts⟩ := t
  obtain ⟨constexpr, hkind⟩ : ∃ constexpr, (node l ts).kind = .keyword (.ifStmt constexpr) := by
    unfold isIf at hif
    split at hif
    · next hkind => exact ⟨_, hkind⟩
    · contradiction
  have hfirst := (of_condition? hkind rfl hc).1
  have hsecond := of_body? hkind rfl ha
  rcases ts with _ | ⟨c', _ | ⟨a', es⟩⟩ <;> simp_all [operands]

/-- An expression is no `if`. -/
theorem Expression.isIf_eq_false (h : t.Expression p) : t.isIf = false := by
  have hkeyword := h.kind_spec.1
  unfold keyword? at hkeyword
  unfold isIf
  split <;> simp_all

/-- A clause is a statement. -/
theorem Clause.statement (h : t.Clause p) : t.Statement p := by
  rcases h with h | ⟨hkind, hoperands⟩
  · exact .expression h
  · obtain ⟨l, ts⟩ := t
    obtain rfl : ts = [] := hoperands
    exact .empty hkind

/-- The operands of a statement are statements. -/
theorem Statement.operand (h : t.Statement p) {a : Tree} (ha : a ∈ t.operands) : a.Statement p := by
  cases h with
  | expression h => exact .expression (h.operand ha)
  | block _ hts => exact hts a ha
  | empty _ => exact absurd ha List.not_mem_nil
  | returnNothing _ => exact absurd ha List.not_mem_nil
  | breakLoop _ => exact absurd ha List.not_mem_nil
  | continueLoop _ => exact absurd ha List.not_mem_nil
  | _ =>
    simp only [operands, List.mem_cons, List.not_mem_nil, or_false] at ha
    grind [Statement.expression, Clause.statement]

/-- The subtrees of a statement are statements. -/
theorem Statement.of_mem (h : t.Statement p) (hs : s ∈ t.subtrees) : s.Statement p :=
  of_mem_subtrees (fun _ h _ ha => h.operand ha) h hs

/-- The condition of a statement is an expression. -/
theorem Statement.condition {c : Tree} (h : t.Statement p) (hc : t.condition? = some c) : c.Expression p := by
  cases h with
  | @ifThen l _ c' a hkind hexpression _ =>
    obtain rfl : c' = c := Option.some.inj (of_condition? (t := node l [c', a]) hkind rfl hc).1
    exact hexpression
  | @ifElse l _ c' a b hkind hexpression _ _ =>
    obtain rfl : c' = c := Option.some.inj (of_condition? (t := node l [c', a, b]) hkind rfl hc).1
    exact hexpression
  | @whileLoop l c' b hkind hexpression _ =>
    obtain rfl : c' = c := Option.some.inj (of_condition? (t := node l [c', b]) hkind rfl hc).1
    exact hexpression
  | @doLoop l b c' hkind _ hexpression =>
    obtain rfl : c' = c := Option.some.inj (of_condition? (t := node l [b, c']) hkind rfl hc).1
    exact hexpression
  | @forLoop l start c' step b hkind _ hclause _ _ =>
    obtain ⟨hcondition, hempty⟩ := of_condition? (t := node l [start, c', step, b]) hkind rfl hc
    obtain rfl : c' = c := Option.some.inj hcondition
    exact hclause.resolve_right fun h => hempty h.1
  | expression h => simp [condition?, h.kind_spec.1] at hc
  | _ => simp_all [condition?, keyword?, kind, label, Keyword.conditionIndex?]

/-- An expression without side effects has none in its subtrees. -/
theorem modifiesState_of_mem (h : t.modifiesState = false) (hs : s ∈ t.subtrees) :
    s.modifiesState = false := by
  simp only [modifiesState, List.any_eq_false] at h ⊢
  intro r hr
  exact h r (mem_subtrees_trans hr hs)

/-- A node of an expression without side effects has none itself. -/
theorem isEffect_of_modifiesState (h : t.modifiesState = false) : t.isEffect = false := by
  simpa using List.any_eq_false.mp h t (mem_subtrees_self t)

namespace Expression

/-- An expression without side effects is pure. -/
theorem isPure_of_modifiesState (h : t.Expression p) (hwhole : t.IsWhole)
    (heffect : t.modifiesState = false) : t.Pure p := by
  have hoperand {l : Label} {ts : List Tree} (hwhole : (node l ts).IsWhole)
      (heffect : (node l ts).modifiesState = false) {a : Tree} (ha : a ∈ ts) :
      a.IsWhole ∧ a.modifiesState = false :=
    ⟨hwhole.operand ha, modifiesState_of_mem heffect (hwhole.mem_of_operand ha)⟩
  induction h with
  | leaf h => exact h
  | unary hnode hkind hop _ ih =>
    obtain ⟨hwhole, heffect⟩ := hoperand hwhole heffect List.mem_cons_self
    exact .unary hnode hkind hop (ih hwhole heffect)
  | @binary l op a b hnode hkind hop _ _ iha ihb =>
    have ha := hoperand hwhole heffect (a := a) (by simp)
    have hb := hoperand hwhole heffect (a := b) (by simp)
    exact .binary hnode hkind hop (iha ha.1 ha.2) (ihb hb.1 hb.2)
  | @ternary l c a b hnode hkind _ _ _ ihc iha ihb =>
    have hc := hoperand hwhole heffect (a := c) (by simp)
    have ha := hoperand hwhole heffect (a := a) (by simp)
    have hb := hoperand hwhole heffect (a := b) (by simp)
    exact .ternary hnode hkind (ihc hc.1 hc.2) (iha ha.1 ha.2) (ihb hb.1 hb.2)
  | assignment _ hkind hop _ _ =>
    have := isEffect_of_modifiesState heffect
    simp [isEffect, isAssignment, binaryOp?, kind, label, hkind, hop] at this
  | increment _ hkind hop _ =>
    have := isEffect_of_modifiesState heffect
    simp [isEffect, isIncrement, unaryOp?, kind, label, hkind, hop] at this

/-- An expression that agrees with another as a leaf is pure. -/
theorem isPure_of_leavesAgree (hu : u.Expression p) (h : leavesAgree t u = true) : u.Pure p := by
  rcases hu.pure_or_operator with hu | ⟨op, hkind⟩ | ⟨op, hkind⟩ | hkind
  · exact hu
  · simp [leavesAgree, spelledValue?, hkind] at h
  · simp [leavesAgree, spelledValue?, hkind] at h
  · simp [leavesAgree, spelledValue?, hkind] at h

/-- Expressions that are the same are pure. -/
theorem isPure_of_same (hp : ∀ s, p s = true → s.isDoubleNegation = false) (ht : t.Expression p)
    (hu : u.Expression p) (h : same t u = true) : t.Pure p ∧ u.Pure p := by
  induction ht generalizing u with
  | @leaf l ht =>
    have hleaf : (∃ v, l.kind = .literal v) ∨ ∃ name v, l.kind = .identifier name v := by
      cases ht with
      | literal _ hkind _ => exact Or.inl ⟨_, hkind⟩
      | enumerator _ hkind _ => exact Or.inr ⟨_, _, hkind⟩
      | reference _ hkind _ => exact Or.inr ⟨_, _, hkind⟩
    rw [same_leaf hleaf, core_eq_self hu.kind_spec.2.2.2 (hp u hu.node_holds)] at h
    exact ⟨ht, hu.isPure_of_leavesAgree h⟩
  | @unary l op t hnode hkind hop _ ih =>
    obtain ⟨hincrement, m, v, hcore, hm, hsame⟩ := same_unary hkind (hp _ hnode) h
    rw [core_eq_self hu.kind_spec.2.2.2 (hp u hu.node_holds)] at hcore
    subst hcore
    cases hu with
    | unary hnode' _ _ hv =>
      obtain ⟨ht, hv⟩ := ih hv hsame
      exact ⟨.unary hnode hkind hop ht, .unary hnode' hm hop hv⟩
    | increment _ hm' hop' _ =>
      obtain rfl : op = _ := Kind.unary.inj (hm.symm.trans hm')
      simp [hincrement] at hop'
  | @binary l op a b hnode hkind hop _ _ iha ihb =>
    obtain ⟨-, m, op', c, d, hcore, hm, hassignment, hsame⟩ := same_binary hkind h
    rw [core_eq_self hu.kind_spec.2.2.2 (hp u hu.node_holds)] at hcore
    subst hcore
    cases hu with
    | binary hnode' hm' hop' hc hd =>
      rcases hsame with ⟨-, hac, hbd⟩ | ⟨-, had, hbc⟩
      · obtain ⟨ha, hc⟩ := iha hc hac
        obtain ⟨hb, hd⟩ := ihb hd hbd
        exact ⟨.binary hnode hkind hop ha hb, .binary hnode' hm' hop' hc hd⟩
      · obtain ⟨ha, hd⟩ := iha hd had
        obtain ⟨hb, hc⟩ := ihb hc hbc
        exact ⟨.binary hnode hkind hop ha hb, .binary hnode' hm' hop' hc hd⟩
    | assignment _ hm' hop' _ _ =>
      obtain rfl : op' = _ := Kind.binary.inj (hm.symm.trans hm')
      simp [hassignment] at hop'
  | @ternary l c a b hnode hkind _ _ _ ihc iha ihb =>
    obtain ⟨m, c', a', b', hcore, hm, hsamec, hsamea, hsameb⟩ := same_ternary hkind h
    rw [core_eq_self hu.kind_spec.2.2.2 (hp u hu.node_holds)] at hcore
    subst hcore
    cases hu with
    | ternary hnode' _ hc' ha' hb' =>
      obtain ⟨hc, hc'⟩ := ihc hc' hsamec
      obtain ⟨ha, ha'⟩ := iha ha' hsamea
      obtain ⟨hb, hb'⟩ := ihb hb' hsameb
      exact ⟨.ternary hnode hkind hc ha hb, .ternary hnode' hm hc' ha' hb'⟩
  | assignment _ hkind hop _ _ =>
    obtain ⟨hassignment, -⟩ := same_binary hkind h
    simp [hassignment] at hop
  | increment hnode hkind hop _ =>
    obtain ⟨hincrement, -⟩ := same_unary hkind (hp _ hnode) h
    simp [hincrement] at hop

/-- The operands of a comparison are expressions. -/
theorem of_comparison? (h : t.Expression p) {o : Order} {a b : Tree}
    (hcomparison : t.comparison? = some (o, a, b)) :
    a.Expression p ∧ b.Expression p ∧ (a.Pure p → b.Pure p → t.Pure p) := by
  obtain ⟨l, rfl, hkind⟩ := eq_node_of_comparison? hcomparison
  refine ⟨h.operand (by simp [operands]), h.operand (by simp [operands]), fun ha hb => ?_⟩
  exact .binary h.node_holds hkind rfl ha hb

/-- A constant operand is pure. -/
theorem isPure_of_constant? (h : t.Expression p) {c : Constant} (hc : t.constant? = some c) :
    t.Pure p := by
  obtain ⟨spelled, hspelled, -⟩ := Option.map_eq_some_iff.mp hc
  rcases h.pure_or_operator with h | ⟨op, hkind⟩ | ⟨op, hkind⟩ | hkind
  · exact h
  · simp [spelledConstant?, hkind] at hspelled
  · simp [spelledConstant?, hkind] at hspelled
  · simp [spelledConstant?, hkind] at hspelled

/-- A comparison with a constant has the given base. -/
theorem base_of_compareWith {base : Tree} {o : Order} {negated : Bool} {constant : Constant}
    {c : Comparison} (h : compareWith base o negated constant = some c) : c.base = base := by
  cases constant with
  | numeric value text isChar => exact (Option.some.inj h) ▸ rfl
  | unusable => contradiction

/-- A condition without a negation in front is pure when the base of the comparison that it is read as is. -/
theorem isPure_of_readBare (h : t.Expression p) {negated : Bool} {c : Comparison}
    (hread : t.readBare negated = some c) : c.base.Expression p ∧ (c.base.Pure p → t.Pure p) := by
  unfold readBare at hread
  split at hread
  · next o a b hcomparison =>
    obtain ⟨ha, hb, hpure⟩ := h.of_comparison? hcomparison
    split at hread
    · next hconstant =>
      rw [base_of_compareWith hread]
      exact ⟨hb, hpure (ha.isPure_of_constant? hconstant)⟩
    · next hconstant =>
      rw [base_of_compareWith hread]
      exact ⟨ha, fun hbase => hpure hbase (hb.isPure_of_constant? hconstant)⟩
    · obtain rfl := Option.some.inj hread
      exact ⟨h, fun hbase => hbase⟩
  · obtain rfl := Option.some.inj hread
    exact ⟨h, fun hbase => hbase⟩

/-- A condition is pure when the base of the comparison that it is read as is. -/
theorem isPure_of_readNegated (h : t.Expression p) {negated : Bool} {c : Comparison}
    (hread : t.readNegated negated = some c) : c.base.Expression p ∧ (c.base.Pure p → t.Pure p) := by
  induction t using induction_operands generalizing negated with
  | step l ts ih =>
    rw [readNegated.eq_def] at hread
    simp only at hread
    split at hread
    · next hnot =>
      cases h with
      | unary hnode hkind hop ht =>
        obtain ⟨hbase, hpure⟩ := ih _ List.mem_cons_self ht hread
        exact ⟨hbase, fun h => .unary hnode hkind hop (hpure h)⟩
      | increment _ hkind hop _ => simp_all [UnaryOp.isIncrement]
      | binary _ hkind _ _ _ => simp [hkind] at hnot
      | ternary _ hkind _ _ _ => simp [hkind] at hnot
      | assignment _ hkind _ _ _ => simp [hkind] at hnot
    · contradiction
    · exact h.isPure_of_readBare hread

/-- Tests of one base are pure. -/
theorem isPure_of_baseRelations? (hp : ∀ s, p s = true → s.isDoubleNegation = false)
    (ht : t.Expression p) (hu : u.Expression p) {rs : Relation × Relation}
    (h : baseRelations? t u = some rs) : t.Pure p ∧ u.Pure p := by
  unfold baseRelations? at h
  split at h
  · next c d hc hd =>
    split at h
    · next hsame =>
      obtain ⟨hcbase, ht⟩ := ht.isPure_of_readNegated hc
      obtain ⟨hdbase, hu⟩ := hu.isPure_of_readNegated hd
      have hpure := isPure_of_same hp hcbase hdbase (Bool.and_eq_true_iff.mp hsame).2
      exact ⟨ht hpure.1, hu hpure.2⟩
    · contradiction
  · contradiction

/-- Comparisons between the same two operands are pure. -/
theorem isPure_of_differenceRelations? (hp : ∀ s, p s = true → s.isDoubleNegation = false)
    (ht : t.Expression p) (hu : u.Expression p) {rs : Relation × Relation}
    (h : differenceRelations? t u = some rs) : t.Pure p ∧ u.Pure p := by
  rw [differenceRelations?_eq] at h
  split at h
  · contradiction
  · obtain ⟨⟨o, o'⟩, hshared, -⟩ := Option.map_eq_some_iff.mp h
    obtain ⟨a, b, c, d, hcomparison, hcases⟩ := of_sharedOrders? hshared
    obtain ⟨ha, hb, ht⟩ := ht.of_comparison? hcomparison
    rcases hcases with ⟨hcomparison', hac, hbd⟩ | ⟨hcomparison', had, hbc⟩
    · obtain ⟨hc, hd, hu⟩ := hu.of_comparison? hcomparison'
      obtain ⟨ha, hc⟩ := isPure_of_same hp ha hc hac
      obtain ⟨hb, hd⟩ := isPure_of_same hp hb hd hbd
      exact ⟨ht ha hb, hu hc hd⟩
    · obtain ⟨hc, hd, hu⟩ := hu.of_comparison? hcomparison'
      obtain ⟨ha, hd⟩ := isPure_of_same hp ha hd had
      obtain ⟨hb, hc⟩ := isPure_of_same hp hb hc hbc
      exact ⟨ht ha hb, hu hc hd⟩

/-- A condition and its negation are pure. -/
theorem isPure_of_isNegationOf (hp : ∀ s, p s = true → s.isDoubleNegation = false)
    (ht : t.Expression p) (hu : u.Expression p) (h : isNegationOf t u = true) : t.Pure p ∧ u.Pure p := by
  obtain ⟨inner, hinner, hsame⟩ := (Option.any_eq_true _ _).mp h
  obtain ⟨l, rfl, hkind⟩ := eq_node_of_negated? hinner
  have hoperand : inner.Expression p := ht.operand (by simp [operands])
  have hpure := isPure_of_same hp hoperand hu (Bool.and_eq_true_iff.mp hsame).1
  exact ⟨.unary ht.node_holds hkind rfl hpure.1, hpure.2⟩

/-- Conditions that clash are pure. -/
theorem isPure_of_clash (hp : ∀ s, p s = true → s.isDoubleNegation = false)
    (ht : t.Expression p) (hu : u.Expression p) (h : clash t u = true) : t.Pure p ∧ u.Pure p := by
  have hshared {holds : Relation × Relation → Bool} (h : (sharedRelations? t u).any holds = true) :
      t.Pure p ∧ u.Pure p := by
    obtain ⟨rs, hrs, -⟩ := (Option.any_eq_true _ _).mp h
    rcases sharedRelations?_cases hrs with hbase | hdifference
    · exact isPure_of_baseRelations? hp ht hu hbase
    · exact isPure_of_differenceRelations? hp ht hu hdifference
  simp only [clash, opposite, Bool.or_eq_true] at h
  rcases h with ((hnegation | hnegation) | hcomplement) | hexcludes
  · exact isPure_of_isNegationOf hp ht hu hnegation
  · exact (isPure_of_isNegationOf hp hu ht hnegation).symm
  · exact hshared hcomplement
  · exact hshared hexcludes

end Expression

section Decision

/-- Decide whether an expression is a pure one that stands for a variable. -/
def isTarget (p : Tree → Bool) (t : Tree) : Bool := t.isPure p && t.designated?.isSome

/-- Decide whether a tree is an expression of a program. -/
def isExpression (p : Tree → Bool) : Tree → Bool
  | node l ts =>
    match l.kind, ts with
    | .unary op, [t] =>
      p (node l [t]) && (op.isPure && isExpression p t || op.isIncrement && isTarget p t)
    | .binary op, [a, b] =>
      p (node l [a, b])
        && (op.isPure && isExpression p a || op.isAssignment && isTarget p a) && isExpression p b
    | .ternary, [c, a, b] =>
      p (node l [c, a, b]) && isExpression p c && isExpression p a && isExpression p b
    | _, [] => isPure p (node l [])
    | _, _ => false

/-- Decide whether a tree is a clause of a `for`. -/
def isClause (p : Tree → Bool) (t : Tree) : Bool :=
  t.isExpression p || t.kind = .empty && t.operands.isEmpty

mutual

/-- Decide whether a tree is a statement of a program. -/
def isStatement (p : Tree → Bool) : Tree → Bool
  | node l ts =>
    isExpression p (node l ts)
      || match l.kind, ts with
        | .empty, [] => true
        | .block, ts => areStatements p ts
        | .keyword (.ifStmt _), [c, a] => isExpression p c && isStatement p a
        | .keyword (.ifStmt _), [c, a, b] => isExpression p c && isStatement p a && isStatement p b
        | .keyword .whileStmt, [c, b] => isExpression p c && isStatement p b
        | .keyword .doWhile, [b, c] => isStatement p b && isExpression p c
        | .keyword .forStmt, [start, c, step, b] =>
          isClause p start && isClause p c && isClause p step && isStatement p b
        | .keyword .returnStmt, [t] => isExpression p t
        | .keyword .returnStmt, [] => true
        | .keyword .breakStmt, [] => true
        | .keyword .continueStmt, [] => true
        | _, _ => false

/-- Decide whether all trees are statements of a program. -/
def areStatements (p : Tree → Bool) : List Tree → Bool
  | [] => true
  | t :: ts => isStatement p t && areStatements p ts

end

/-- The decision about a target is right. -/
theorem target_iff : t.isTarget p = true ↔ t.Target p := by
  rw [isTarget, Bool.and_eq_true]
  constructor
  · rintro ⟨hpure, hdesignated⟩
    exact ⟨pure_of_isPure hpure, hdesignated⟩
  · rintro ⟨hpure, hdesignated⟩
    exact ⟨isPure_of_pure hpure, hdesignated⟩

/-- The decision about an expression is right when it accepts. -/
theorem expression_of_isExpression (h : t.isExpression p = true) : t.Expression p := by
  induction t using induction_operands with
  | step l ts ih =>
    rw [isExpression.eq_def] at h
    simp only at h
    split at h
    · next op t hkind =>
      simp only [Bool.and_eq_true, Bool.or_eq_true] at h
      rcases h with ⟨hnode, ⟨hop, ht⟩ | ⟨hop, ht⟩⟩
      · exact .unary hnode hkind hop (ih t (by simp) ht)
      · exact .increment hnode hkind hop (target_iff.mp ht)
    · next op a b hkind =>
      simp only [Bool.and_eq_true, Bool.or_eq_true] at h
      rcases h with ⟨⟨hnode, ⟨hop, ha⟩ | ⟨hop, ha⟩⟩, hb⟩
      · exact .binary hnode hkind hop (ih a (by simp) ha) (ih b (by simp) hb)
      · exact .assignment hnode hkind hop (target_iff.mp ha) (ih b (by simp) hb)
    · next c a b hkind =>
      simp only [Bool.and_eq_true] at h
      obtain ⟨⟨⟨hnode, hc⟩, ha⟩, hb⟩ := h
      exact .ternary hnode hkind (ih c (by simp) hc) (ih a (by simp) ha) (ih b (by simp) hb)
    · exact .leaf (pure_of_isPure h)
    · contradiction

/-- The decision accepts every expression. -/
theorem isExpression_of_expression (h : t.Expression p) : t.isExpression p = true := by
  induction h with
  | leaf h =>
    have hpure := isPure_of_pure h
    cases h <;> simp_all [isExpression]
  | unary hnode hkind hop _ ih => simp [isExpression, hnode, hkind, hop, ih]
  | binary hnode hkind hop _ _ iha ihb => simp [isExpression, hnode, hkind, hop, iha, ihb]
  | ternary hnode hkind _ _ _ ihc iha ihb => simp [isExpression, hnode, hkind, ihc, iha, ihb]
  | assignment hnode hkind hop ha _ ihb =>
    simp [isExpression, hnode, hkind, hop, target_iff.mpr ha, ihb]
  | increment hnode hkind hop ht => simp [isExpression, hnode, hkind, hop, target_iff.mpr ht]

instance (p : Tree → Bool) (t : Tree) : Decidable (t.Expression p) :=
  decidable_of_iff (t.isExpression p = true) ⟨expression_of_isExpression, isExpression_of_expression⟩

/-- The decision about a clause is right. -/
theorem clause_iff : t.isClause p = true ↔ t.Clause p := by
  have hexpression : t.isExpression p = true ↔ t.Expression p :=
    ⟨expression_of_isExpression, isExpression_of_expression⟩
  simp [isClause, Clause, hexpression]

/-- All trees are accepted exactly when each of them is. -/
theorem areStatements_iff {ts : List Tree} :
    areStatements p ts = true ↔ ∀ t ∈ ts, t.isStatement p = true := by
  induction ts with
  | nil => simp [areStatements]
  | cons t ts ih => simp [areStatements, ih]

/-- The decision about a statement is right when it accepts. -/
theorem statement_of_isStatement (h : t.isStatement p = true) : t.Statement p := by
  induction t using induction_operands with
  | step l ts ih =>
    rw [isStatement.eq_def] at h
    simp only [Bool.or_eq_true] at h
    rcases h with h | h
    · exact .expression (expression_of_isExpression h)
    split at h
    · next hkind => exact .empty hkind
    · next hkind => exact .block hkind fun t ht => ih t ht (areStatements_iff.mp h t ht)
    · next c a hkind =>
      obtain ⟨hc, ha⟩ := Bool.and_eq_true_iff.mp h
      exact .ifThen hkind (expression_of_isExpression hc) (ih a (by simp) ha)
    · next c a b hkind =>
      simp only [Bool.and_eq_true] at h
      exact .ifElse hkind (expression_of_isExpression h.1.1) (ih a (by simp) h.1.2) (ih b (by simp) h.2)
    · next c b hkind =>
      obtain ⟨hc, hb⟩ := Bool.and_eq_true_iff.mp h
      exact .whileLoop hkind (expression_of_isExpression hc) (ih b (by simp) hb)
    · next b c hkind =>
      obtain ⟨hb, hc⟩ := Bool.and_eq_true_iff.mp h
      exact .doLoop hkind (ih b (by simp) hb) (expression_of_isExpression hc)
    · next start c step b hkind =>
      simp only [Bool.and_eq_true] at h
      exact .forLoop hkind (clause_iff.mp h.1.1.1) (clause_iff.mp h.1.1.2) (clause_iff.mp h.1.2)
        (ih b (by simp) h.2)
    · next t hkind => exact .returnValue hkind (expression_of_isExpression h)
    · next hkind => exact .returnNothing hkind
    · next hkind => exact .breakLoop hkind
    · next hkind => exact .continueLoop hkind
    · contradiction

/-- The decision accepts every statement. -/
theorem isStatement_of_statement (h : t.Statement p) : t.isStatement p = true := by
  have hexpression {t : Tree} := @isExpression_of_expression p t
  induction h with
  | @expression t h =>
    obtain ⟨l, ts⟩ := t
    rw [isStatement.eq_def]
    simp [hexpression h]
  | empty hkind => simp [isStatement, hkind]
  | block hkind _ ih => simp [isStatement, hkind, areStatements_iff.mpr ih]
  | ifThen hkind hc _ ih => simp [isStatement, hkind, hexpression hc, ih]
  | ifElse hkind hc _ _ iha ihb => simp [isStatement, hkind, hexpression hc, iha, ihb]
  | whileLoop hkind hc _ ih => simp [isStatement, hkind, hexpression hc, ih]
  | doLoop hkind _ hc ih => simp [isStatement, hkind, hexpression hc, ih]
  | forLoop hkind hstart hc hstep _ ih =>
    simp [isStatement, hkind, clause_iff.mpr hstart, clause_iff.mpr hc, clause_iff.mpr hstep, ih]
  | returnValue hkind ht => simp [isStatement, hkind, hexpression ht]
  | returnNothing hkind => simp [isStatement, hkind]
  | breakLoop hkind => simp [isStatement, hkind]
  | continueLoop hkind => simp [isStatement, hkind]

instance (p : Tree → Bool) (t : Tree) : Decidable (t.Statement p) :=
  decidable_of_iff (t.isStatement p = true) ⟨statement_of_isStatement, isStatement_of_statement⟩

end Decision

end ConditionLint.Tree
