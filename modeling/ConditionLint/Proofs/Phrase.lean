import ConditionLint.Proofs.Token

/-!
# Phrases are told by their tokens

A phrase is an expression without anything that its text does not show. Its operators at depth zero bind at least as
tightly as the phrase does, and the topmost operator is one of them. So two phrases with the same tokens bind equally
tightly. If they cut the tokens at different operators, then each of the two operators is at depth zero in an operand of
the other, on different sides, and one of these operands has to bind more tightly than both.
-/

namespace ConditionLint

open ConditionLint.Tree

/-- How an expression is put together: its operators, its names, and nothing else. -/
inductive Phrase where
  | name (text : String)
  /-- An operator in front of its operand. -/
  | before (op : UnaryOp) (operand : Phrase)
  /-- An operator behind its operand. -/
  | behind (op : UnaryOp) (operand : Phrase)
  | binary (op : BinaryOp) (lhs rhs : Phrase)
  | ternary (condition yes no : Phrase)
  | subscript (array index : Phrase)
  | call (name : String) (arguments : List Phrase)

namespace Phrase

/-- Induction over a phrase, with the statement for all arguments of a call at hand. -/
@[induction_eliminator]
theorem induction_arguments {P : Phrase → Prop} (name : ∀ text, P (name text))
    (before : ∀ op p, P p → P (before op p)) (behind : ∀ op p, P p → P (behind op p))
    (binary : ∀ op a b, P a → P b → P (binary op a b))
    (ternary : ∀ c a b, P c → P a → P b → P (ternary c a b))
    (subscript : ∀ a i, P a → P i → P (subscript a i))
    (call : ∀ f ps, (∀ p ∈ ps, P p) → P (call f ps)) : ∀ p, P p
  | .name text => name text
  | .before op p => before op p (go p)
  | .behind op p => behind op p (go p)
  | .binary op a b => binary op a b (go a) (go b)
  | .ternary c a b => ternary c a b (go c) (go a) (go b)
  | .subscript a i => subscript a i (go a) (go i)
  | .call f ps => call f ps (all ps)
where
  /-- The statement for a part. -/
  go (p : Phrase) : P p := induction_arguments name before behind binary ternary subscript call p
  /-- The statement for several parts. -/
  all : ∀ ps : List Phrase, ∀ p ∈ ps, P p
    | [] => fun _ h => absurd h List.not_mem_nil
    | q :: qs => fun p h => (List.mem_cons.mp h).elim (fun heq => heq ▸ go q) (all qs p)

/-- How tightly the topmost operator binds. -/
def precedence : Phrase → ℕ
  | name _ => 16
  | before _ _ => prefixPrecedence
  | behind _ _ => postfixPrecedence
  | binary op _ _ => op.precedence
  | ternary _ _ _ => ternaryPrecedence
  | subscript _ _ => postfixPrecedence
  | call _ _ => postfixPrecedence

/-- Put parentheses around the tokens of an operand that binds less tightly than `least`. -/
def enclose (p : Phrase) (least : ℕ) (ts : List Token) : List Token :=
  if p.precedence < least then .openParen :: (ts ++ [.closeParen]) else ts

mutual

/-- The tokens of a phrase. -/
def tokens : Phrase → List Token
  | name text => [.name text]
  | before op p => .sign op :: p.enclose prefixPrecedence (tokens p)
  | behind op p => p.enclose postfixPrecedence (tokens p) ++ [.sign op]
  | binary op a b =>
    a.enclose (operandPrecedences op).1 (tokens a) ++
      .operator op :: b.enclose (operandPrecedences op).2 (tokens b)
  | ternary c a b =>
    c.enclose (ternaryPrecedence + 1) (tokens c) ++
      .question :: (a.enclose ternaryPrecedence (tokens a) ++
        .colon :: b.enclose ternaryPrecedence (tokens b))
  | subscript a i =>
    a.enclose postfixPrecedence (tokens a) ++ .openBracket :: (tokens i ++ [.closeBracket])
  | call f [] => [.name f, .openParen, .closeParen]
  | call f (p :: ps) =>
    .name f :: .openParen :: (p.enclose argumentPrecedence (tokens p) ++ furtherTokens ps ++ [.closeParen])

/-- The tokens of the arguments of a call behind the first one. -/
def furtherTokens : List Phrase → List Token
  | [] => []
  | p :: ps => .operator .comma :: (p.enclose argumentPrecedence (tokens p) ++ furtherTokens ps)

end

/-- The tokens of a phrase as an operand. -/
def operandTokens (p : Phrase) (least : ℕ) : List Token := p.enclose least p.tokens

/-- The tokens of the arguments of a call. -/
def argumentTokens : List Phrase → List Token
  | [] => []
  | p :: ps => p.operandTokens argumentPrecedence ++ furtherTokens ps

section Equations

variable (op : UnaryOp) (p a b c : Phrase) (f : String) (ps : List Phrase)

/-- An operator in front comes before its operand. -/
theorem tokens_before : (before op p).tokens = .sign op :: p.operandTokens prefixPrecedence := by
  rw [tokens, operandTokens]

/-- An operator behind comes after its operand. -/
theorem tokens_behind : (behind op p).tokens = p.operandTokens postfixPrecedence ++ [.sign op] := by
  rw [tokens, operandTokens]

/-- A binary operator stands between its operands. -/
theorem tokens_binary (op : BinaryOp) : (binary op a b).tokens =
    a.operandTokens (operandPrecedences op).1 ++ .operator op :: b.operandTokens (operandPrecedences op).2 := by
  rw [tokens, operandTokens, operandTokens]

/-- The signs of a conditional expression stand between its three operands. -/
theorem tokens_ternary : (ternary c a b).tokens =
    c.operandTokens (ternaryPrecedence + 1) ++
      .question :: (a.operandTokens ternaryPrecedence ++ .colon :: b.operandTokens ternaryPrecedence) := by
  rw [tokens, operandTokens, operandTokens, operandTokens]

/-- The index stands in brackets, so it needs no parentheses. -/
theorem tokens_subscript : (subscript a b).tokens =
    a.operandTokens postfixPrecedence ++ .openBracket :: (b.tokens ++ [.closeBracket]) := by
  rw [tokens, operandTokens]

/-- The arguments stand in parentheses behind the name. -/
theorem tokens_call : (call f ps).tokens = .name f :: .openParen :: (argumentTokens ps ++ [.closeParen]) := by
  cases ps with
  | nil => rw [tokens, argumentTokens, List.nil_append]
  | cons p ps => rw [tokens, argumentTokens, operandTokens]

/-- An operator behind its operand is the last token. -/
theorem getLast?_tokens_behind : (behind op p).tokens.getLast? = some (.sign op) := by
  rw [tokens_behind, List.getLast?_concat]

/-- A subscript ends with its bracket. -/
theorem getLast?_tokens_subscript : (subscript a b).tokens.getLast? = some .closeBracket := by
  rw [tokens_subscript, ← List.cons_append, ← List.append_assoc, List.getLast?_concat]

/-- A call ends with its parenthesis. -/
theorem getLast?_tokens_call : (call f ps).tokens.getLast? = some .closeParen := by
  rw [tokens_call, ← List.cons_append, ← List.cons_append, List.getLast?_concat]

end Equations

/-! ## Grouping -/

/-- Binary operators bind less tightly than signs, and never as the conditional operator does. -/
theorem precedence_spec (op : BinaryOp) : op.precedence < prefixPrecedence ∧ op.precedence ≠ ternaryPrecedence := by
  have hall : ∀ op ∈ BinaryOp.all, op.precedence < prefixPrecedence ∧ op.precedence ≠ ternaryPrecedence := by
    decide
  exact hall op op.mem_all

/-- The operands of a binary operator bind at least as tightly as it does. -/
theorem le_operandPrecedences (op : BinaryOp) :
    op.precedence ≤ (operandPrecedences op).1 ∧ op.precedence ≤ (operandPrecedences op).2 := by
  unfold operandPrecedences
  split <;> simp

/-- As an operand a phrase binds at least as tightly as it has to, by its operators or by the parentheses. -/
theorem grouped_operandTokens {p : Phrase} (h : Grouped p.precedence p.tokens) (least : ℕ) :
    Grouped least (p.operandTokens least) := by
  unfold operandTokens enclose
  split
  · exact h.enclose rfl rfl (by simp [Token.precedence?])
  · next hle => exact h.mono (Nat.le_of_not_lt hle)

/-- The operators at depth zero among further arguments bind at least as tightly as the commas between them. -/
theorem grouped_furtherTokens {ps : List Phrase} (h : ∀ p ∈ ps, Grouped p.precedence p.tokens) :
    Grouped BinaryOp.comma.precedence (furtherTokens ps) := by
  induction ps with
  | nil => exact .nil
  | cons p ps ih =>
    have hcomma : Grouped BinaryOp.comma.precedence [Token.operator .comma] :=
      .singleton rfl (by simp [Token.precedence?])
    have hfirst := (grouped_operandTokens (h p List.mem_cons_self) argumentPrecedence).mono
      (show BinaryOp.comma.precedence ≤ argumentPrecedence by decide)
    have hfurther := ih fun q hq => h q (List.mem_cons_of_mem p hq)
    rw [furtherTokens]
    exact hcomma.append (hfirst.append hfurther)

/-- So do those among all arguments. -/
theorem grouped_argumentTokens {ps : List Phrase} (h : ∀ p ∈ ps, Grouped p.precedence p.tokens) :
    Grouped BinaryOp.comma.precedence (argumentTokens ps) := by
  cases ps with
  | nil => exact .nil
  | cons p ps =>
    have hfirst := (grouped_operandTokens (h p List.mem_cons_self) argumentPrecedence).mono
      (show BinaryOp.comma.precedence ≤ argumentPrecedence by decide)
    exact hfirst.append (grouped_furtherTokens fun q hq => h q (List.mem_cons_of_mem p hq))

/-- The operators at depth zero bind at least as tightly as the phrase. -/
theorem grouped_tokens (p : Phrase) : Grouped p.precedence p.tokens := by
  have hsign {n : ℕ} (op : UnaryOp) : Grouped n [Token.sign op] := .singleton rfl (by simp [Token.precedence?])
  have hname {n : ℕ} (text : String) : Grouped n [Token.name text] := .singleton rfl (by simp [Token.precedence?])
  induction p with
  | name text =>
    rw [tokens]
    exact hname text
  | before op p ih =>
    rw [tokens_before]
    exact (hsign op).append (grouped_operandTokens ih _)
  | behind op p ih =>
    rw [tokens_behind]
    exact (grouped_operandTokens ih _).append (hsign op)
  | binary op a b iha ihb =>
    obtain ⟨hleft, hright⟩ := le_operandPrecedences op
    have hop : Grouped op.precedence [Token.operator op] := .singleton rfl (by simp [Token.precedence?])
    rw [tokens_binary]
    exact ((grouped_operandTokens iha _).mono hleft).append (hop.append ((grouped_operandTokens ihb _).mono hright))
  | ternary c a b ihc iha ihb =>
    have hmiddle : Grouped ternaryPrecedence (.question :: (a.operandTokens ternaryPrecedence ++ [.colon])) :=
      (grouped_operandTokens iha _).enclose rfl rfl (by simp [Token.precedence?])
    have happend := ((grouped_operandTokens ihc _).mono (Nat.le_succ ternaryPrecedence)).append
      (hmiddle.append (grouped_operandTokens ihb ternaryPrecedence))
    rw [tokens_ternary]
    simpa [precedence] using happend
  | subscript a i iha ihi =>
    rw [tokens_subscript]
    exact (grouped_operandTokens iha _).append (ihi.enclose rfl rfl (by simp [Token.precedence?]))
  | call f ps ih =>
    rw [tokens_call]
    exact (hname f).append ((grouped_argumentTokens ih).enclose rfl rfl (by simp [Token.precedence?]))

/-- The topmost operator of a phrase that binds less tightly than a sign is at depth zero. -/
theorem exists_exposed {p : Phrase} (h : p.precedence < prefixPrecedence) :
    ∃ t, Exposed t p.tokens ∧ t.precedence? = some p.precedence := by
  cases p with
  | binary op a b =>
    exact ⟨.operator op, ⟨_, _, tokens_binary a b op, (grouped_operandTokens (grouped_tokens a) _).closed⟩, rfl⟩
  | ternary c a b =>
    exact ⟨.question, ⟨_, _, tokens_ternary a b c, (grouped_operandTokens (grouped_tokens c) _).closed⟩, rfl⟩
  | _ => simp [precedence, prefixPrecedence, postfixPrecedence] at h

/-! ## What the tokens tell -/

/-- Every phrase has a token. -/
theorem tokens_ne_nil (p : Phrase) : p.tokens ≠ [] := by
  cases p with
  | name text => simp [tokens]
  | before op p => simp [tokens_before]
  | behind op p => simp [tokens_behind]
  | binary op a b => simp [tokens_binary]
  | ternary c a b => simp [tokens_ternary]
  | subscript a i => simp [tokens_subscript]
  | call f ps => simp [tokens_call]

/-- So has every operand. -/
theorem operandTokens_ne_nil (p : Phrase) (least : ℕ) : p.operandTokens least ≠ [] := by
  unfold operandTokens enclose
  split
  · exact List.cons_ne_nil _ _
  · exact p.tokens_ne_nil

/-- Only a name is a single token. -/
theorem length_tokens_eq_one_iff {p : Phrase} (h : prefixPrecedence ≤ p.precedence) :
    p.tokens.length = 1 ↔ p.precedence = 16 := by
  cases p with
  | name text => simp [tokens, precedence]
  | before op p => simp [tokens_before, precedence, prefixPrecedence, operandTokens_ne_nil]
  | behind op p => simp [tokens_behind, precedence, postfixPrecedence, operandTokens_ne_nil]
  | binary op a b => exact absurd h (Nat.not_le_of_gt (precedence_spec op).1)
  | ternary c a b => exact absurd (show prefixPrecedence ≤ ternaryPrecedence from h) (by decide)
  | subscript a i =>
    simp only [tokens_subscript, precedence, List.length_append, List.length_cons]
    exact iff_of_false (by omega) (by decide)
  | call f ps => simp [tokens_call, precedence, postfixPrecedence]

/-- A phrase that binds as tightly as one with its operator behind does not begin with a sign. -/
theorem head?_tokens_ne_sign {p : Phrase} (h : postfixPrecedence ≤ p.precedence) (op : UnaryOp) :
    p.tokens.head? ≠ some (.sign op) := by
  have hoperand {q : Phrase} (ih : postfixPrecedence ≤ q.precedence → q.tokens.head? ≠ some (.sign op))
      (ts : List Token) : (q.operandTokens postfixPrecedence ++ ts).head? ≠ some (.sign op) := by
    rw [List.head?_append_of_ne_nil _ (q.operandTokens_ne_nil _)]
    unfold operandTokens enclose
    split
    · simp
    · next hle => exact ih (Nat.le_of_not_lt hle)
  induction p with
  | name text => simp [tokens]
  | before op p => exact absurd (show postfixPrecedence ≤ prefixPrecedence from h) (by decide)
  | behind op p ih =>
    rw [tokens_behind]
    exact hoperand ih _
  | binary op a b => exact absurd (Nat.le_of_lt h) (Nat.not_le_of_gt (precedence_spec op).1)
  | ternary c a b => exact absurd (show postfixPrecedence ≤ ternaryPrecedence from h) (by decide)
  | subscript a i iha _ =>
    rw [tokens_subscript]
    exact hoperand iha _
  | call f ps => simp [tokens_call]

/-- Only a phrase with its operator in front begins with a sign. -/
theorem exists_head?_eq_sign_iff {p : Phrase} (h : prefixPrecedence ≤ p.precedence) :
    (∃ op, p.tokens.head? = some (.sign op)) ↔ p.precedence = prefixPrecedence := by
  constructor
  · rintro ⟨op, hop⟩
    by_contra hne
    exact head?_tokens_ne_sign (Nat.lt_of_le_of_ne h (Ne.symm hne)) op hop
  · intro hp
    cases p with
    | before op p => exact ⟨op, by rw [tokens_before, List.head?_cons]⟩
    | binary op a b => exact absurd hp (precedence_spec op).1.ne
    | _ => simp [precedence, prefixPrecedence, postfixPrecedence, ternaryPrecedence] at hp

/-- Nothing binds more tightly than a name. -/
theorem precedence_le (p : Phrase) : p.precedence ≤ 16 := by
  cases p with
  | binary op a b => exact (precedence_spec op).1.le.trans (by decide)
  | _ => simp [precedence, prefixPrecedence, postfixPrecedence, ternaryPrecedence]

/-- No phrase is enclosed in parentheses by itself. -/
theorem tokens_ne_enclosed (p : Phrase) {n : ℕ} {ts : List Token} (hts : Grouped n ts) :
    p.tokens ≠ .openParen :: (ts ++ [.closeParen]) := by
  intro h
  have hlast : p.tokens.getLast? = some .closeParen := by
    rw [h, ← List.cons_append, List.getLast?_concat]
  by_cases hlow : p.precedence < prefixPrecedence
  · obtain ⟨t, hexposed, ht⟩ := exists_exposed hlow
    rw [h] at hexposed
    have hgrouped : Grouped (p.precedence + 1) (.openParen :: (ts ++ [.closeParen])) :=
      hts.enclose rfl rfl (by simp [Token.precedence?])
    exact absurd (hgrouped.binding t hexposed p.precedence ht) (Nat.not_succ_le_self _)
  · cases p with
    | name text => simp [tokens] at h
    | before op p => simp [tokens_before] at h
    | behind op p => simp [getLast?_tokens_behind] at hlast
    | binary op a b => exact hlow (precedence_spec op).1
    | ternary c a b => exact hlow (show ternaryPrecedence < prefixPrecedence by decide)
    | subscript a i => simp [getLast?_tokens_subscript] at hlast
    | call f ps => simp [tokens_call] at h

/-- Phrases with the same tokens bind equally tightly. -/
theorem precedence_eq {p q : Phrase} (h : p.tokens = q.tokens) : p.precedence = q.precedence := by
  have hle {p q : Phrase} (h : p.tokens = q.tokens) (hlow : p.precedence < prefixPrecedence) :
      q.precedence ≤ p.precedence := by
    obtain ⟨t, hexposed, ht⟩ := exists_exposed hlow
    exact q.grouped_tokens.binding t (h ▸ hexposed) p.precedence ht
  by_cases hp : p.precedence < prefixPrecedence
  · have hqp := hle h hp
    exact Nat.le_antisymm (hle h.symm (hqp.trans_lt hp)) hqp
  by_cases hq : q.precedence < prefixPrecedence
  · exact absurd ((hle h.symm hq).trans_lt hq) hp
  rw [Nat.not_lt] at hp hq
  -- both bind as tightly as a sign at least: a name is a single token, and only a sign in front comes first
  have hname : p.precedence = 16 ↔ q.precedence = 16 := by
    rw [← length_tokens_eq_one_iff hp, ← length_tokens_eq_one_iff hq, h]
  have hsign : p.precedence = prefixPrecedence ↔ q.precedence = prefixPrecedence := by
    rw [← exists_head?_eq_sign_iff hp, ← exists_head?_eq_sign_iff hq, h]
  have := p.precedence_le
  have := q.precedence_le
  unfold prefixPrecedence at hp hq hsign
  omega

/-- Which of the seven ways a phrase is put together. -/
inductive Form where
  | name
  | before
  | behind
  | binary
  | ternary
  | subscript
  | call

/-- The way a phrase is put together. -/
def form : Phrase → Form
  | name _ => .name
  | before _ _ => .before
  | behind _ _ => .behind
  | binary _ _ _ => .binary
  | ternary _ _ _ => .ternary
  | subscript _ _ => .subscript
  | call _ _ => .call

/-- The way to put a phrase together that binds so tightly and ends with such a token. -/
def formOf (precedence : ℕ) (last : Option Token) : Form :=
  if precedence = 16 then .name
  else if precedence = prefixPrecedence then .before
  else if precedence = ternaryPrecedence then .ternary
  else if precedence < prefixPrecedence then .binary
  else
    match last with
    | some (.sign _) => .behind
    | some .closeBracket => .subscript
    | _ => .call

/-- How a phrase is put together is told by how tightly it binds and by its last token. -/
theorem form_eq_formOf (p : Phrase) : p.form = formOf p.precedence p.tokens.getLast? := by
  cases p with
  | name text => rfl
  | before op p => rfl
  | behind op p => rw [getLast?_tokens_behind]; rfl
  | binary op a b =>
    obtain ⟨hlt, hne⟩ := precedence_spec op
    have hname : op.precedence ≠ 16 := by unfold prefixPrecedence at hlt; omega
    simp [form, formOf, precedence, hname, hlt.ne, hne, hlt]
  | ternary c a b => rfl
  | subscript a i => rw [getLast?_tokens_subscript]; rfl
  | call f ps => rw [getLast?_tokens_call]; rfl

/-- Phrases with the same tokens are put together in the same way. -/
theorem form_eq {p q : Phrase} (h : p.tokens = q.tokens) : p.form = q.form := by
  rw [form_eq_formOf, form_eq_formOf, precedence_eq h, h]

/-! ## The parts of a phrase -/

/-- An operand is told by its tokens if it is told by them without parentheses. -/
theorem eq_of_operandTokens_eq {p q : Phrase} (hp : p.tokens = q.tokens → p = q) {least : ℕ}
    (h : p.operandTokens least = q.operandTokens least) : p = q := by
  unfold operandTokens enclose at h
  split at h
  · split at h
    · rw [List.cons_inj_right, List.append_left_inj] at h
      exact hp h
    · exact absurd h.symm (q.tokens_ne_enclosed p.grouped_tokens)
  · split at h
    · exact absurd h (p.tokens_ne_enclosed q.grouped_tokens)
    · exact hp h

/-- What follows an argument binds too loosely to be part of it. -/
theorem beginsLoosely_furtherTokens (ps : List Phrase) : BeginsLoosely argumentPrecedence (furtherTokens ps) := by
  cases ps with
  | nil => simp [BeginsLoosely, furtherTokens]
  | cons p ps =>
    rw [furtherTokens]
    rintro t ⟨⟩
    exact ⟨BinaryOp.comma.precedence, rfl, by decide⟩

/-- The first of some arguments is told by their tokens if it is told by its own, and so are the further ones. -/
theorem eq_of_argument_eq {p q : Phrase} (hp : p.tokens = q.tokens → p = q) {ps qs : List Phrase}
    (h : p.operandTokens argumentPrecedence ++ furtherTokens ps =
      q.operandTokens argumentPrecedence ++ furtherTokens qs) :
    p = q ∧ furtherTokens ps = furtherTokens qs := by
  obtain ⟨hfirst, hfurther⟩ := (grouped_operandTokens p.grouped_tokens _).eq_of_append_eq
    (grouped_operandTokens q.grouped_tokens _) (beginsLoosely_furtherTokens ps) (beginsLoosely_furtherTokens qs) h
  exact ⟨eq_of_operandTokens_eq hp hfirst, hfurther⟩

/-- The tokens of further arguments tell the arguments, if those of each argument do. -/
theorem eq_of_furtherTokens_eq {ps qs : List Phrase} (hps : ∀ p ∈ ps, ∀ {q : Phrase}, p.tokens = q.tokens → p = q)
    (h : furtherTokens ps = furtherTokens qs) : ps = qs := by
  induction ps generalizing qs with
  | nil =>
    cases qs with
    | nil => rfl
    | cons q qs => simp [furtherTokens] at h
  | cons p ps ih =>
    cases qs with
    | nil => simp [furtherTokens] at h
    | cons q qs =>
      rw [furtherTokens, furtherTokens] at h
      obtain ⟨rfl, hrest⟩ := eq_of_argument_eq (hps p List.mem_cons_self) (List.cons.inj h).2
      rw [ih (fun r hr => hps r (List.mem_cons_of_mem p hr)) hrest]

/-- The tokens of all arguments tell the arguments, if those of each argument do. -/
theorem eq_of_argumentTokens_eq {ps qs : List Phrase} (hps : ∀ p ∈ ps, ∀ {q : Phrase}, p.tokens = q.tokens → p = q)
    (h : argumentTokens ps = argumentTokens qs) : ps = qs := by
  cases ps with
  | nil =>
    cases qs with
    | nil => rfl
    | cons q qs => simp [argumentTokens, operandTokens_ne_nil] at h
  | cons p ps =>
    cases qs with
    | nil => simp [argumentTokens, operandTokens_ne_nil] at h
    | cons q qs =>
      obtain ⟨rfl, hrest⟩ := eq_of_argument_eq (hps p List.mem_cons_self) h
      rw [eq_of_furtherTokens_eq (fun r hr => hps r (List.mem_cons_of_mem p hr)) hrest]

/-- Binary operators that bind equally tightly ask the same of their operands. -/
theorem operandPrecedences_eq {op op' : BinaryOp} (h : op.precedence = op'.precedence) :
    operandPrecedences op = operandPrecedences op' := by
  have hall : ∀ op ∈ BinaryOp.all, ∀ op' ∈ BinaryOp.all, op.precedence = op'.precedence →
      operandPrecedences op = operandPrecedences op' := by
    decide
  exact hall op op.mem_all op' op'.mem_all h

/-- One of the operands of a binary operator binds more tightly than it. -/
theorem lt_operandPrecedences (op : BinaryOp) :
    op.precedence < (operandPrecedences op).1 ∨ op.precedence < (operandPrecedences op).2 := by
  unfold operandPrecedences
  split <;> simp

/-- Of two operators that bind equally tightly, the first is not in the left operand of the second while the second is
in the right operand of the first. -/
theorem not_overlapping {op op' : BinaryOp} (h : op.precedence = op'.precedence) {a b a' : Phrase} {ms bs : List Token}
    (hleft : a'.operandTokens (operandPrecedences op').1 =
      a.operandTokens (operandPrecedences op).1 ++ .operator op :: ms)
    (hright : b.operandTokens (operandPrecedences op).2 = ms ++ .operator op' :: bs) : False := by
  have ha := grouped_operandTokens a.grouped_tokens (operandPrecedences op).1
  have ha' := grouped_operandTokens a'.grouped_tokens (operandPrecedences op').1
  have hb := grouped_operandTokens b.grouped_tokens (operandPrecedences op).2
  have hms : depth ms = 0 := by
    have := ha'.closed
    rw [hleft, depth_append, depth_cons, ha.closed] at this
    simpa [Token.level] using this
  have hfirst := ha'.binding (.operator op) ⟨_, ms, hleft, ha.closed⟩ op.precedence rfl
  have hsecond := hb.binding (.operator op') ⟨ms, bs, hright, hms⟩ op'.precedence rfl
  rw [← operandPrecedences_eq h] at hfirst
  rcases lt_operandPrecedences op with hlt | hlt <;> omega

section Parts

variable {a a' b b' c c' : Phrase} (ha : a.tokens = a'.tokens → a = a') (hb : b.tokens = b'.tokens → b = b')

include ha hb

/-- The tokens of a binary operator tell the operator and its operands, if those of each operand do. -/
theorem binary_eq {op op' : BinaryOp} (h : (binary op a b).tokens = (binary op' a' b').tokens) :
    binary op a b = binary op' a' b' := by
  have hprecedence : op.precedence = op'.precedence := precedence_eq h
  rw [tokens_binary, tokens_binary] at h
  rcases cut_cases h with ⟨hleft, hop, hright⟩ | ⟨ms, hleft, hright⟩ | ⟨ms, hleft, hright⟩
  · obtain rfl := Token.operator.inj hop
    rw [eq_of_operandTokens_eq ha hleft, eq_of_operandTokens_eq hb hright]
  · exact (not_overlapping hprecedence hleft hright).elim
  · exact (not_overlapping hprecedence.symm hleft hright).elim

/-- The tokens of a conditional expression tell its operands, if those of each operand do. -/
theorem ternary_eq (hc : c.tokens = c'.tokens → c = c') (h : (ternary c a b).tokens = (ternary c' a' b').tokens) :
    ternary c a b = ternary c' a' b' := by
  -- the condition ends at the first question mark that is not within something, as it would bind too loosely there
  have hquestion (ts : List Token) : BeginsLoosely (ternaryPrecedence + 1) (.question :: ts) := by
    rintro t ⟨⟩
    exact ⟨ternaryPrecedence, rfl, Nat.lt_succ_self _⟩
  rw [tokens_ternary, tokens_ternary] at h
  obtain ⟨hcondition, hbranches⟩ := (grouped_operandTokens c.grouped_tokens _).eq_of_append_eq
    (grouped_operandTokens c'.grouped_tokens _) (hquestion _) (hquestion _) h
  obtain ⟨hyes, hno⟩ := (grouped_operandTokens a.grouped_tokens _).eq_of_append_close_eq
    (grouped_operandTokens a'.grouped_tokens _) rfl (List.cons.inj hbranches).2
  rw [eq_of_operandTokens_eq hc hcondition, eq_of_operandTokens_eq ha hyes, eq_of_operandTokens_eq hb hno]

/-- The tokens of a subscript tell the array and the index, if those of each of them do. -/
theorem subscript_eq (h : (subscript a b).tokens = (subscript a' b').tokens) : subscript a b = subscript a' b' := by
  have harray := grouped_operandTokens a.grouped_tokens postfixPrecedence
  have harray' := grouped_operandTokens a'.grouped_tokens postfixPrecedence
  rw [tokens_subscript, tokens_subscript, ← List.cons_append, ← List.cons_append, ← List.append_assoc,
    ← List.append_assoc, List.append_left_inj] at h
  rcases cut_cases h with ⟨harrays, -, hindex⟩ | ⟨ms, hleft, hright⟩ | ⟨ms, hleft, hright⟩
  · rw [eq_of_operandTokens_eq ha harrays, hb hindex]
  · exact (harray.not_overlapping_open rfl (hleft ▸ harray') (hright ▸ b.grouped_tokens)).elim
  · exact (harray'.not_overlapping_open rfl (hleft ▸ harray) (hright ▸ b'.grouped_tokens)).elim

end Parts

/-- A phrase is told by its tokens. -/
theorem eq_of_tokens_eq {p q : Phrase} (h : p.tokens = q.tokens) : p = q := by
  induction p generalizing q with
  | name text =>
    have hform := form_eq h
    cases q with
    | name text' => simpa [tokens] using h
    | _ => cases hform
  | before op p ih =>
    have hform := form_eq h
    cases q with
    | before op' q =>
      rw [tokens_before, tokens_before] at h
      obtain ⟨hop, hoperand⟩ := List.cons.inj h
      rw [Token.sign.inj hop, eq_of_operandTokens_eq ih hoperand]
    | _ => cases hform
  | behind op p ih =>
    have hform := form_eq h
    cases q with
    | behind op' q =>
      rw [tokens_behind, tokens_behind] at h
      obtain ⟨hoperand, hop⟩ := List.append_inj' h rfl
      rw [Token.sign.inj (List.singleton_inj.mp hop), eq_of_operandTokens_eq ih hoperand]
    | _ => cases hform
  | binary op a b iha ihb =>
    have hform := form_eq h
    cases q with
    | binary op' a' b' => exact binary_eq iha ihb h
    | _ => cases hform
  | ternary c a b ihc iha ihb =>
    have hform := form_eq h
    cases q with
    | ternary c' a' b' => exact ternary_eq iha ihb ihc h
    | _ => cases hform
  | subscript a i iha ihi =>
    have hform := form_eq h
    cases q with
    | subscript a' i' => exact subscript_eq iha ihi h
    | _ => cases hform
  | call f ps ih =>
    have hform := form_eq h
    cases q with
    | call f' qs =>
      rw [tokens_call, tokens_call] at h
      obtain ⟨hname, harguments⟩ := List.cons.inj h
      have harguments := List.append_cancel_right (List.cons.inj harguments).2
      rw [Token.name.inj hname, eq_of_argumentTokens_eq ih harguments]
    | _ => cases hform

end Phrase

end ConditionLint
