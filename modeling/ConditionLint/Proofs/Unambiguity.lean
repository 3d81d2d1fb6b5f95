import ConditionLint.Proofs.Phrase
import ConditionLint.Proofs.Value

/-!
# The text of an expression tells the expression

An expression of names, signs that tell their operator, binary operators, conditional expressions, subscripts and calls
stands for a phrase, and its text spells the tokens of that phrase. The tokens are told by the text and the phrase by
its tokens. So the text tells the shape of the expression, its operators and its names.
-/

namespace ConditionLint

/-- The text consists of the tokens, and they can be read off it. -/
structure Spells (s : String) (ts : List Token) : Prop where
  chars : s.toList = ts.flatMap Token.chars
  legible : IsLegible ts

namespace Spells

variable {r s : String} {ts us : List Token}

/-- The empty text spells nothing. -/
theorem nil : Spells "" [] := ⟨rfl, .nil⟩

/-- A name spells itself. -/
theorem name {text : String} (h : isWord text = true) : Spells text [.name text] :=
  ⟨by simp [Token.chars], .name h⟩

/-- Two texts with a sign between them. -/
theorem around (hr : Spells r ts) (hs : Spells s us) {sign : String} {t : Token} (hsign : sign.toList = t.chars)
    (hclear : t.isClear = true) (hname : t.isName = false) : Spells (r ++ sign ++ s) (ts ++ t :: us) where
  chars := by
    rw [String.toList_append, String.toList_append, hr.chars, hs.chars, hsign, List.flatMap_append, List.flatMap_cons,
      List.append_assoc]
  legible := hr.legible.around hs.legible hclear hname

/-- A text behind a sign. -/
theorem behind (hs : Spells s us) {sign : String} {t : Token} (hsign : sign.toList = t.chars)
    (hclear : t.isClear = true) (hname : t.isName = false) : Spells (sign ++ s) (t :: us) := by
  simpa using nil.around hs hsign hclear hname

/-- A text before a sign. -/
theorem before (hr : Spells r ts) {sign : String} {t : Token} (hsign : sign.toList = t.chars)
    (hclear : t.isClear = true) (hname : t.isName = false) : Spells (r ++ sign) (ts ++ [t]) := by
  simpa using hr.around nil hsign hclear hname

/-- The tokens are told by the text. -/
theorem tokens_eq (hts : Spells s ts) (hus : Spells s us) : ts = us :=
  hts.legible.eq_of_chars_eq hus.legible (hts.chars.symm.trans hus.chars)

end Spells

namespace Tree

mutual

/-- The phrase that an expression stands for, if it is made of names, signs that tell their operator, binary operators,
conditional expressions, subscripts and calls of functions. -/
def phrase? : Tree → Option Phrase
  | node l ts =>
    match l.kind, ts with
    | .identifier name _, [] => if isWord name then some (.name name) else none
    | .unary op, [t] =>
      if op.isClear then
        if op.standsBehind then (phrase? t).map (.behind op) else (phrase? t).map (.before op)
      else none
    | .binary op, [lhs, rhs] => do return .binary op (← phrase? lhs) (← phrase? rhs)
    | .ternary, [condition, yes, no] => do return .ternary (← phrase? condition) (← phrase? yes) (← phrase? no)
    | .subscript, [array, index] => do return .subscript (← phrase? array) (← phrase? index)
    | .call callee, arguments =>
      if isWord callee.name && !callee.isMethod then (phrases? arguments).map (.call callee.name) else none
    | _, _ => none

/-- The phrases that several expressions stand for. -/
def phrases? : List Tree → Option (List Phrase)
  | [] => some []
  | t :: ts => do return (← phrase? t) :: (← phrases? ts)

end

/-- The text of the expression spells the tokens of the phrase, also when the expression becomes an operand. -/
structure StandsFor (t : Tree) (p : Phrase) : Prop where
  precedence : t.precedence = p.precedence
  spells : Spells t.text p.tokens

/-- As an operand the expression spells what the phrase is as an operand. -/
theorem StandsFor.operand {t : Tree} {p : Phrase} (h : t.StandsFor p) (least : ℕ) :
    Spells (t.enclose least t.text) (p.operandTokens least) := by
  unfold enclose Phrase.operandTokens Phrase.enclose
  rw [h.precedence]
  split
  · exact (h.spells.behind (t := .openParen) rfl rfl rfl).before (t := .closeParen) rfl rfl rfl
  · exact h.spells

/-- The texts of the arguments, with commas between them, spell the tokens of the arguments. -/
theorem spells_arguments {t : Tree} {ts : List Tree} {p : Phrase} {ps : List Phrase} (ht : t.StandsFor p)
    (hts : List.Forall₂ StandsFor ts ps) :
    Spells (String.intercalate ", " (argumentTexts (t :: ts))) (Phrase.argumentTokens (p :: ps)) := by
  have hfirst := ht.operand argumentPrecedence
  induction hts generalizing t p with
  | nil => simpa [argumentTexts, Phrase.argumentTokens, Phrase.furtherTokens] using hfirst
  | cons hu _ ih =>
    have hfurther := ih hu (hu.operand argumentPrecedence)
    rw [argumentTexts, argumentTexts, String.intercalate_cons_cons, ← argumentTexts]
    exact hfirst.around hfurther (t := .operator .comma) rfl rfl rfl

/-- Expressions stand for their phrases one by one. -/
theorem forall₂_of_phrases? {ts : List Tree} {ps : List Phrase} (h : phrases? ts = some ps)
    (hts : ∀ t ∈ ts, ∀ p, t.phrase? = some p → t.StandsFor p) : List.Forall₂ StandsFor ts ps := by
  induction ts generalizing ps with
  | nil =>
    rw [phrases?] at h
    cases h
    exact .nil
  | cons t ts ih =>
    simp only [phrases?, Option.bind_eq_bind, Option.bind_eq_some_iff, Option.pure_def, Option.some.injEq] at h
    obtain ⟨p, hp, ps, hps, rfl⟩ := h
    exact .cons (hts t List.mem_cons_self p hp) (ih hps fun u hu => hts u (List.mem_cons_of_mem t hu))

section Forms

variable {l : Label} {p q r : Phrase} {a b c : Tree}

/-- A name stands for itself. -/
theorem standsFor_name {name : String} {value : Option ℤ} (hkind : l.kind = .identifier name value)
    (hword : isWord name = true) : (node l []).StandsFor (.name name) where
  precedence := by simp [precedence, kind, label, hkind, Phrase.precedence]
  spells := by simpa [text.eq_def, hkind, Phrase.tokens] using Spells.name hword

/-- An operator behind an operand stands for itself and what the operand stands for. -/
theorem standsFor_behind {op : UnaryOp} (hkind : l.kind = .unary op) (hclear : op.isClear = true)
    (hbehind : op.standsBehind = true) (ha : a.StandsFor p) : (node l [a]).StandsFor (.behind op p) where
  precedence := by simp [precedence, kind, label, hkind, Phrase.precedence, hbehind]
  spells := by
    have hsign := (ha.operand postfixPrecedence).before (t := .sign op) rfl hclear rfl
    simpa [text, hkind, hbehind, Phrase.tokens_behind] using hsign

/-- An operator in front of an operand stands for itself and what the operand stands for. -/
theorem standsFor_before {op : UnaryOp} (hkind : l.kind = .unary op) (hclear : op.isClear = true)
    (hbefore : op.standsBehind = false) (ha : a.StandsFor p) : (node l [a]).StandsFor (.before op p) where
  precedence := by simp [precedence, kind, label, hkind, Phrase.precedence, hbefore]
  spells := by
    have hsign := (ha.operand prefixPrecedence).behind (t := .sign op) rfl hclear rfl
    simpa [text, hkind, hbefore, Phrase.tokens_before] using hsign

/-- A binary operator stands for itself and what its operands stand for. -/
theorem standsFor_binary {op : BinaryOp} (hkind : l.kind = .binary op) (ha : a.StandsFor p) (hb : b.StandsFor q) :
    (node l [a, b]).StandsFor (.binary op p q) where
  precedence := by simp [precedence, kind, label, hkind, Phrase.precedence]
  spells := by
    have hoperator := (ha.operand (operandPrecedences op).1).around (hb.operand (operandPrecedences op).2)
      (t := .operator op) rfl rfl rfl
    simpa [text, hkind, Phrase.tokens_binary] using hoperator

/-- A conditional expression stands for one of what its operands stand for. -/
theorem standsFor_ternary (hkind : l.kind = .ternary) (hc : c.StandsFor p) (ha : a.StandsFor q) (hb : b.StandsFor r) :
    (node l [c, a, b]).StandsFor (.ternary p q r) where
  precedence := by simp [precedence, kind, label, hkind, Phrase.precedence]
  spells := by
    have hquestion := (hc.operand (ternaryPrecedence + 1)).around (ha.operand ternaryPrecedence)
      (t := .question) rfl rfl rfl
    have hcolon := hquestion.around (hb.operand ternaryPrecedence) (t := .colon) rfl rfl rfl
    simpa [text, hkind, Phrase.tokens_ternary] using hcolon

/-- A subscript stands for one of what the array and the index stand for. -/
theorem standsFor_subscript (hkind : l.kind = .subscript) (ha : a.StandsFor p) (hb : b.StandsFor q) :
    (node l [a, b]).StandsFor (.subscript p q) where
  precedence := by simp [precedence, kind, label, hkind, Phrase.precedence]
  spells := by
    have hopen := (ha.operand postfixPrecedence).around hb.spells (t := .openBracket) rfl rfl rfl
    have hclose := hopen.before (t := .closeBracket) rfl rfl rfl
    simpa [text, hkind, Phrase.tokens_subscript] using hclose

/-- A call of a function stands for one with what its arguments stand for. -/
theorem standsFor_call {callee : Callee} (hkind : l.kind = .call callee) (hword : isWord callee.name = true)
    (hmethod : callee.isMethod = false) {ts : List Tree} {ps : List Phrase} (hts : List.Forall₂ StandsFor ts ps) :
    (node l ts).StandsFor (.call callee.name ps) where
  precedence := by simp [precedence, kind, label, hkind, Phrase.precedence]
  spells := by
    have hname := Spells.name hword
    rw [Phrase.tokens_call]
    cases hts with
    | nil =>
      have hcall := (hname.before (t := .openParen) rfl rfl rfl).before (t := .closeParen) rfl rfl rfl
      simpa [text, hkind, Phrase.argumentTokens, String.append_assoc] using hcall
    | cons ht hts =>
      have hopen := hname.around (spells_arguments ht hts) (t := .openParen) rfl rfl rfl
      have hclose := hopen.before (t := .closeParen) rfl rfl rfl
      simpa [text, hkind, hmethod, argumentTexts] using hclose

end Forms

/-- An expression stands for its phrase. -/
theorem standsFor_of_phrase? {t : Tree} {p : Phrase} (h : t.phrase? = some p) : t.StandsFor p := by
  induction t using induction_operands generalizing p with
  | step l ts ih =>
    rw [phrase?.eq_def] at h
    dsimp only at h
    split at h
    · next name value hkind =>
      rw [Option.ite_none_right_eq_some] at h
      obtain ⟨hword, ⟨⟩⟩ := h
      exact standsFor_name hkind hword
    · next op t hkind =>
      rw [Option.ite_none_right_eq_some] at h
      obtain ⟨hclear, h⟩ := h
      split at h
      · next hbehind =>
        obtain ⟨p, hp, rfl⟩ := Option.map_eq_some_iff.mp h
        exact standsFor_behind hkind hclear hbehind (ih t List.mem_cons_self hp)
      · next hbefore =>
        obtain ⟨p, hp, rfl⟩ := Option.map_eq_some_iff.mp h
        exact standsFor_before hkind hclear (Bool.not_eq_true _ ▸ hbefore) (ih t List.mem_cons_self hp)
    · next op a b hkind =>
      simp only [Option.bind_eq_bind, Option.bind_eq_some_iff, Option.pure_def, Option.some.injEq] at h
      obtain ⟨p, hp, q, hq, rfl⟩ := h
      exact standsFor_binary hkind (ih a (by simp) hp) (ih b (by simp) hq)
    · next c a b hkind =>
      simp only [Option.bind_eq_bind, Option.bind_eq_some_iff, Option.pure_def, Option.some.injEq] at h
      obtain ⟨p, hp, q, hq, r, hr, rfl⟩ := h
      exact standsFor_ternary hkind (ih c (by simp) hp) (ih a (by simp) hq) (ih b (by simp) hr)
    · next a i hkind =>
      simp only [Option.bind_eq_bind, Option.bind_eq_some_iff, Option.pure_def, Option.some.injEq] at h
      obtain ⟨p, hp, q, hq, rfl⟩ := h
      exact standsFor_subscript hkind (ih a (by simp) hp) (ih i (by simp) hq)
    · next callee hkind =>
      rw [Option.ite_none_right_eq_some, Bool.and_eq_true, Bool.not_eq_true'] at h
      obtain ⟨⟨hword, hmethod⟩, h⟩ := h
      obtain ⟨ps, hps, rfl⟩ := Option.map_eq_some_iff.mp h
      exact standsFor_call hkind hword hmethod (forall₂_of_phrases? hps fun t ht p hp => ih t ht hp)
    · cases h

/-- Expressions have the same text exactly if they have the same shape, operators and names. -/
theorem text_tells_phrase {t u : Tree} {p q : Phrase} (ht : t.phrase? = some p) (hu : u.phrase? = some q) :
    t.text = u.text ↔ p = q := by
  have hp := (standsFor_of_phrase? ht).spells
  have hq := (standsFor_of_phrase? hu).spells
  constructor
  · intro htext
    exact Phrase.eq_of_tokens_eq (hp.tokens_eq (htext ▸ hq))
  · rintro rfl
    exact String.toList_inj.mp (hp.chars.trans hq.chars.symm)

/-- An expression that is a name. -/
def ofName (id : NodeId) (name : String) : Tree := plain id (.identifier name none) .int none []

/-- `*p++` -/
def advancedPointee (id : NodeId) : Tree :=
  plain id (.unary .deref) .int none [plain (id + 1) (.unary .postInc) CType.int.pointerTo none [ofName (id + 2) "p"]]

/-- A choice between `f((b, c), d)` and `e[i]`. -/
def choiceBy (id : NodeId) (condition : Tree) : Tree :=
  plain id .ternary .int none
    [condition,
      plain (id + 1) (.call { name := "f" }) .int none
        [ofOperator (id + 2) .comma (ofName (id + 3) "b") (ofName (id + 4) "c"), ofName (id + 5) "d"],
      plain (id + 6) .subscript .int none [ofName (id + 7) "e", ofName (id + 8) "i"]]

/-- `*p++ = a ? f((b, c), d) : e[i]` -/
def assignedChoice : Tree := ofOperator 0 .assign (advancedPointee 1) (choiceBy 4 (ofName 13 "a"))

/-- `(*p++ = a) ? f((b, c), d) : e[i]` -/
def choiceByAssigned : Tree := choiceBy 0 (ofOperator 9 .assign (advancedPointee 10) (ofName 13 "a"))

/-- Only the parentheses tell a choice that is assigned from a choice by what is assigned. -/
theorem text_tells_phrase_assignedChoice :
    assignedChoice.phrase?.isSome = true ∧ choiceByAssigned.phrase?.isSome = true ∧
      assignedChoice.text = "*p++ = a ? f((b, c), d) : e[i]" ∧ assignedChoice.text ≠ choiceByAssigned.text := by
  have hassigned : assignedChoice.phrase? = some _ := rfl
  have hchosen : choiceByAssigned.phrase? = some _ := rfl
  refine ⟨rfl, rfl, rfl, fun htext => ?_⟩
  cases (text_tells_phrase hassigned hchosen).mp htext

end Tree

end ConditionLint
