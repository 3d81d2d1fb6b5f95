import ConditionLint.Tree.Text
import Mathlib.Data.List.Chain
import Mathlib.Data.List.TakeWhile
import Mathlib.Algebra.BigOperators.Group.List.Basic
import Mathlib.Algebra.Order.Ring.Int

/-!
# The tokens of a written expression

The text of an expression is a row of tokens. A binary operator is a token together with the blanks around it, so no
token but a name begins another one, and the text tells the tokens as long as no two names meet. Parentheses, brackets
and the two signs of a conditional expression nest. A row in which they are closed has a depth at each of its tokens,
and what counts for the grouping are the operators at depth zero.
-/

namespace ConditionLint

/-- Whether the operator is told by its sign. The other signs run together: `--x` is a decrement and a negation of a
negation. -/
def UnaryOp.isClear : UnaryOp → Bool
  | not => true
  | bitNot => true
  | deref => true
  | addressOf => true
  | postInc => true
  | postDec => true
  | _ => false

/-- Letters and digits, the underscore, and everything beyond ASCII. -/
def isWordChar (c : Char) : Bool := c.isAlphanum || c == '_' || 127 < c.toNat

/-- Whether a text is a name. -/
def isWord (s : String) : Bool := !s.isEmpty && s.toList.all isWordChar

/-- The list of binary operators is complete. -/
theorem BinaryOp.mem_all (op : BinaryOp) : op ∈ all := by
  cases op with
  | arith op => cases op <;> decide
  | compare o => cases o <;> decide
  | logic c => cases c <;> decide
  | assign => decide
  | update op => cases op <;> decide
  | comma => decide

/-- What the text of an expression is made of. -/
inductive Token where
  | name (text : String)
  | sign (op : UnaryOp)
  | operator (op : BinaryOp)
  | question
  | colon
  | openParen
  | closeParen
  | openBracket
  | closeBracket
  deriving DecidableEq, Repr

namespace Token

/-- The characters of a token. -/
def chars : Token → List Char
  | name text => text.toList
  | sign op => op.symbol.toList
  | operator op => (Tree.spaced op).toList
  | question => " ? ".toList
  | colon => " : ".toList
  | openParen => "(".toList
  | closeParen => ")".toList
  | openBracket => "[".toList
  | closeBracket => "]".toList

/-- Whether the token is a name. -/
def isName : Token → Bool
  | name _ => true
  | _ => false

/-- Whether the token is a name that is one, or a sign that tells its operator. -/
def isClear : Token → Bool
  | name text => isWord text
  | sign op => op.isClear
  | _ => true

/-- The tokens that are no names. -/
def signs : List Token :=
  [UnaryOp.not, .bitNot, .deref, .addressOf, .postInc, .postDec].map sign ++ BinaryOp.all.map operator ++
    [question, colon, openParen, closeParen, openBracket, closeBracket]

/-- A clear token is a name or one of the signs. -/
theorem mem_signs {t : Token} (hclear : t.isClear = true) (hname : t.isName = false) : t ∈ signs := by
  cases t with
  | name text => contradiction
  | sign op => cases op <;> first | contradiction | decide
  | operator op => simp [signs, BinaryOp.mem_all]
  | _ => decide

/-- No sign begins another one. -/
theorem eq_of_isPrefixOf : ∀ a ∈ signs, ∀ b ∈ signs, a.chars.isPrefixOf b.chars = true → a = b := by
  decide +kernel

/-- No sign begins like a name. -/
theorem head?_signs : ∀ a ∈ signs, (a.chars.head?.any fun c => !isWordChar c) = true := by
  decide +kernel

/-- The text does not go on with a name. -/
def StopsWord (cs : List Char) : Prop := cs.takeWhile isWordChar = []

/-- A sign does not go on with a name. -/
theorem stopsWord_append {a : Token} (hclear : a.isClear = true) (hname : a.isName = false) (cs : List Char) :
    StopsWord (a.chars ++ cs) := by
  have hhead := head?_signs a (mem_signs hclear hname)
  cases hchars : a.chars with
  | nil => simp [hchars] at hhead
  | cons c rest =>
    have hword : isWordChar c = false := by simpa [hchars] using hhead
    simp [StopsWord, hword]

/-- A clear token has a character. -/
theorem chars_ne_nil {a : Token} (hclear : a.isClear = true) : a.chars ≠ [] := by
  cases hname : a.isName with
  | true =>
    cases a <;> simp_all [isName, isClear, isWord, chars]
  | false =>
    intro hnil
    have hhead := head?_signs a (mem_signs hclear hname)
    simp [hnil] at hhead

/-- A name goes as far as its characters do. -/
theorem takeWhile_name {text : String} (hword : isWord text = true) {cs : List Char} (hcs : StopsWord cs) :
    ((name text).chars ++ cs).takeWhile isWordChar = (name text).chars := by
  rw [isWord, Bool.and_eq_true, List.all_eq_true] at hword
  rw [chars, List.takeWhile_append_of_pos hword.2, hcs, List.append_nil]

/-- A name is no sign, also by its text. -/
theorem name_append_ne {text : String} (hword : isWord text = true) {b : Token} (hb : b.isClear = true)
    (hname : b.isName = false) {cs ds : List Char} (hcs : StopsWord cs) :
    (name text).chars ++ cs ≠ b.chars ++ ds := by
  intro h
  have hnil := stopsWord_append hb hname ds
  rw [StopsWord, ← h, takeWhile_name hword hcs] at hnil
  exact chars_ne_nil (a := name text) hword hnil

/-- The first token is told by the text, if a name is not followed by another one. -/
theorem chars_append_inj {a b : Token} (ha : a.isClear = true) (hb : b.isClear = true) {cs ds : List Char}
    (hcs : a.isName = true → StopsWord cs) (hds : b.isName = true → StopsWord ds)
    (h : a.chars ++ cs = b.chars ++ ds) : a = b ∧ cs = ds := by
  suffices heq : a = b from ⟨heq, List.append_cancel_left (heq ▸ h)⟩
  cases hanames : a.isName with
  | true =>
    obtain ⟨text, rfl⟩ : ∃ text, a = name text := by cases a <;> simp_all [isName]
    cases hbnames : b.isName with
    | true =>
      obtain ⟨text', rfl⟩ : ∃ text, b = name text := by cases b <;> simp_all [isName]
      have htext := congrArg (List.takeWhile isWordChar) h
      rw [takeWhile_name ha (hcs rfl), takeWhile_name hb (hds rfl)] at htext
      rw [String.toList_inj.mp htext]
    | false => exact absurd h (name_append_ne ha hb hbnames (hcs rfl))
  | false =>
    cases hbnames : b.isName with
    | true =>
      obtain ⟨text, rfl⟩ : ∃ text, b = name text := by cases b <;> simp_all [isName]
      exact absurd h.symm (name_append_ne hb ha hanames (hds rfl))
    | false =>
      have hasign := mem_signs ha hanames
      have hbsign := mem_signs hb hbnames
      rcases List.prefix_or_prefix_of_prefix (List.prefix_append a.chars cs) (h ▸ List.prefix_append b.chars ds)
        with hab | hba
      · exact eq_of_isPrefixOf a hasign b hbsign (List.isPrefixOf_iff_prefix.mpr hab)
      · exact (eq_of_isPrefixOf b hbsign a hasign (List.isPrefixOf_iff_prefix.mpr hba)).symm

end Token

/-- The tokens are clear, and no two names meet. -/
structure IsLegible (ts : List Token) : Prop where
  clear : ∀ t ∈ ts, t.isClear = true
  apart : ts.IsChain fun a b => (a.isName && b.isName) = false

namespace IsLegible

variable {ts us : List Token}

/-- Nothing is legible. -/
theorem nil : IsLegible [] := ⟨by simp, .nil⟩

/-- A name alone is legible. -/
theorem name {text : String} (h : isWord text = true) : IsLegible [.name text] :=
  ⟨by simpa [Token.isClear] using h, .singleton _⟩

/-- Whatever stands on either side of a sign, the names there are kept apart. -/
theorem around (hts : IsLegible ts) (hus : IsLegible us) {t : Token} (hclear : t.isClear = true)
    (hname : t.isName = false) : IsLegible (ts ++ t :: us) where
  clear := by
    simp only [List.mem_append, List.mem_cons]
    rintro s (hs | rfl | hs)
    · exact hts.clear s hs
    · exact hclear
    · exact hus.clear s hs
  apart := by
    refine List.isChain_append.mpr ⟨hts.apart, List.isChain_cons.mpr ⟨?_, hus.apart⟩, ?_⟩
    · simp [hname]
    · simp [hname]

/-- What follows the first token of a legible row is legible. -/
theorem tail {t : Token} (h : IsLegible (t :: ts)) : IsLegible ts :=
  ⟨fun s hs => h.clear s (List.mem_cons_of_mem t hs), (List.isChain_cons.mp h.apart).2⟩

/-- What follows a name does not begin like one. -/
theorem stopsWord_tail {t : Token} (h : IsLegible (t :: ts)) (hname : t.isName = true) :
    Token.StopsWord (ts.flatMap Token.chars) := by
  cases ts with
  | nil => rfl
  | cons s ts =>
    have hmeet := (List.isChain_cons.mp h.apart).1 s rfl
    rw [hname, Bool.true_and] at hmeet
    exact Token.stopsWord_append (h.clear s (by simp)) hmeet _

/-- Tokens that can be read are told by their text. -/
theorem eq_of_chars_eq (hts : IsLegible ts) (hus : IsLegible us)
    (h : ts.flatMap Token.chars = us.flatMap Token.chars) : ts = us := by
  induction ts generalizing us with
  | nil =>
    cases us with
    | nil => rfl
    | cons u us =>
      have hnil := List.append_eq_nil_iff.mp h.symm
      exact absurd hnil.1 (Token.chars_ne_nil (hus.clear u List.mem_cons_self))
  | cons t ts ih =>
    cases us with
    | nil =>
      have hnil := List.append_eq_nil_iff.mp h
      exact absurd hnil.1 (Token.chars_ne_nil (hts.clear t List.mem_cons_self))
    | cons u us =>
      rw [List.flatMap_cons, List.flatMap_cons] at h
      obtain ⟨rfl, hrest⟩ := Token.chars_append_inj (hts.clear t List.mem_cons_self)
        (hus.clear u List.mem_cons_self) hts.stopsWord_tail hus.stopsWord_tail h
      rw [ih hts.tail hus.tail hrest]

end IsLegible

/-! ## Depth -/

namespace Token

/-- How a token changes the depth. -/
def level : Token → ℤ
  | openParen => 1
  | openBracket => 1
  | question => 1
  | closeParen => -1
  | closeBracket => -1
  | colon => -1
  | _ => 0

/-- How tightly the operator binds that the token stands for, or begins. -/
def precedence? : Token → Option ℕ
  | operator op => some op.precedence
  | question => some Tree.ternaryPrecedence
  | _ => none

end Token

/-- The depth behind a row of tokens. -/
def depth (ts : List Token) : ℤ := (ts.map Token.level).sum

/-- The depth behind no token is zero. -/
@[simp] theorem depth_nil : depth [] = 0 := rfl

/-- The first token adds its level. -/
@[simp] theorem depth_cons (t : Token) (ts : List Token) : depth (t :: ts) = t.level + depth ts := by
  simp [depth]

/-- The depths of two rows add up. -/
@[simp] theorem depth_append (ts us : List Token) : depth (ts ++ us) = depth ts + depth us := by
  simp [depth]

/-- The token occurs at depth zero. -/
def Exposed (t : Token) (ts : List Token) : Prop := ∃ us vs, ts = us ++ t :: vs ∧ depth us = 0

/-- Everything that is opened is closed, nothing else is closed, and the operators at depth zero bind at least as
tightly as `n`. -/
structure Grouped (n : ℕ) (ts : List Token) : Prop where
  closed : depth ts = 0
  nested : ∀ us vs, ts = us ++ vs → 0 ≤ depth us
  binding : ∀ t, Exposed t ts → ∀ k ∈ t.precedence?, n ≤ k

/-- If the row begins with a token, this one stands for an operator that binds less tightly than `n`. -/
def BeginsLoosely (n : ℕ) (ts : List Token) : Prop := ∀ t ∈ ts.head?, ∃ k ∈ t.precedence?, k < n

/-- Two ways to cut a row at a token are the same, or each token is on one side of the other cut. -/
theorem cut_cases {as bs cs ds : List Token} {s t : Token} (h : as ++ s :: bs = cs ++ t :: ds) :
    (as = cs ∧ s = t ∧ bs = ds) ∨ (∃ ms, cs = as ++ s :: ms ∧ bs = ms ++ t :: ds) ∨
      ∃ ms, as = cs ++ t :: ms ∧ ds = ms ++ s :: bs := by
  rcases List.append_eq_append_iff.mp h with ⟨ms, rfl, hms⟩ | ⟨ms, rfl, hms⟩
  · cases ms with
    | nil => simp_all
    | cons m ms =>
      obtain ⟨rfl, rfl⟩ := List.cons.inj hms
      exact Or.inr (Or.inl ⟨ms, rfl, rfl⟩)
  · cases ms with
    | nil => simp_all
    | cons m ms =>
      obtain ⟨rfl, rfl⟩ := List.cons.inj hms
      exact Or.inr (Or.inr ⟨ms, rfl, rfl⟩)

namespace Grouped

variable {m n : ℕ} {ts us : List Token}

/-- What binds tightly enough for one operator binds tightly enough for looser ones. -/
theorem mono (h : Grouped n ts) (hmn : m ≤ n) : Grouped m ts :=
  ⟨h.closed, h.nested, fun t ht k hk => hmn.trans (h.binding t ht k hk)⟩

/-- No tokens are grouped. -/
theorem nil : Grouped n [] where
  closed := rfl
  nested us vs h := by simp [(List.append_eq_nil_iff.mp h.symm).1]
  binding := by
    rintro t ⟨us, vs, h, -⟩
    simp at h

/-- A token that opens and closes nothing is grouped by itself if it binds tightly enough. -/
theorem singleton {t : Token} (hlevel : t.level = 0) (hbinding : ∀ k ∈ t.precedence?, n ≤ k) : Grouped n [t] where
  closed := by simp [hlevel]
  nested us vs h := by
    rcases List.append_eq_singleton_iff.mp h.symm with ⟨rfl, -⟩ | ⟨rfl, -⟩ <;> simp [hlevel]
  binding := by
    rintro s ⟨us, vs, h, -⟩
    obtain ⟨-, rfl, -⟩ : us = [] ∧ t = s ∧ vs = [] := by
      cases us <;> simp_all
    exact hbinding

/-- Two grouped rows are grouped one behind the other. -/
theorem append (hts : Grouped n ts) (hus : Grouped n us) : Grouped n (ts ++ us) where
  closed := by simp [hts.closed, hus.closed]
  nested as bs h := by
    rcases List.append_eq_append_iff.mp h with ⟨ms, rfl, hms⟩ | ⟨ms, hms, -⟩
    · have := hus.nested ms bs hms
      rw [depth_append, hts.closed]
      omega
    · exact hts.nested as ms hms
  binding := by
    rintro t ⟨as, bs, h, hdepth⟩
    rcases List.append_eq_append_iff.mp h with ⟨ms, rfl, hms⟩ | ⟨ms, hms, htail⟩
    · rw [depth_append, hts.closed, zero_add] at hdepth
      exact hus.binding t ⟨ms, bs, hms, hdepth⟩
    · cases ms with
      | nil => exact hus.binding t ⟨[], bs, htail.symm, rfl⟩
      | cons m ms =>
        obtain ⟨rfl, -⟩ := List.cons.inj htail
        exact hts.binding t ⟨as, ms, hms, hdepth⟩

/-- Between a token that opens and the one that closes it, the depth is not zero. -/
theorem depth_pos (h : Grouped m ts) {o c : Token} (hopen : o.level = 1) {as bs : List Token}
    (heq : o :: (ts ++ [c]) = as ++ bs) : as = [] ∨ bs = [] ∨ 0 < depth as := by
  cases as with
  | nil => exact Or.inl rfl
  | cons a as =>
    obtain ⟨rfl, htail⟩ := List.cons.inj heq
    rw [depth_cons, hopen]
    rcases List.append_eq_append_iff.mp htail with ⟨ms, rfl, hms⟩ | ⟨ms, hms, -⟩
    · rcases List.append_eq_singleton_iff.mp hms.symm with ⟨rfl, -⟩ | ⟨-, rfl⟩
      · rw [List.append_nil, h.closed]
        exact Or.inr (Or.inr (by decide))
      · exact Or.inr (Or.inl rfl)
    · have hnested := h.nested as ms hms
      exact Or.inr (Or.inr (by omega))

/-- Whatever is enclosed, only the token that opens it is at depth zero. -/
theorem enclose (h : Grouped m ts) {o c : Token} (hopen : o.level = 1) (hclose : c.level = -1)
    (hbinding : ∀ k ∈ o.precedence?, n ≤ k) : Grouped n (o :: (ts ++ [c])) := by
  have hclosed : depth (o :: (ts ++ [c])) = 0 := by simp [hopen, hclose, h.closed]
  refine ⟨hclosed, fun as bs heq => ?_, ?_⟩
  · rcases h.depth_pos hopen heq with rfl | rfl | hpos
    · exact le_refl 0
    · rw [← List.append_nil as, ← heq, hclosed]
    · exact hpos.le
  · rintro t ⟨as, bs, heq, hdepth⟩
    rcases h.depth_pos hopen heq with rfl | hnil | hpos
    · exact (List.cons.inj heq).1 ▸ hbinding
    · contradiction
    · omega

/-- A row goes no further when what follows begins too loosely. -/
theorem eq_nil_of_beginsLoosely {ms : List Token} (hts : Grouped n ts) (happend : Grouped n (ts ++ ms))
    (hms : BeginsLoosely n (ms ++ us)) : ms = [] := by
  cases ms with
  | nil => rfl
  | cons t ms =>
    obtain ⟨k, hk, hlt⟩ := hms t rfl
    exact absurd (happend.binding t ⟨ts, ms, rfl, hts.closed⟩ k hk) (Nat.not_le_of_gt hlt)

/-- What goes on behind a row does not begin with a token that closes something. -/
theorem level_nonneg {t : Token} (hts : Grouped m ts) (happend : Grouped n (ts ++ t :: us)) : 0 ≤ t.level := by
  have hnested := happend.nested (ts ++ [t]) us (by simp)
  simpa [hts.closed] using hnested

/-- A row is told from what follows if that begins too loosely. -/
theorem eq_of_append_eq {as bs cs ds : List Token} (has : Grouped n as) (hcs : Grouped n cs)
    (hbs : BeginsLoosely n bs) (hds : BeginsLoosely n ds) (h : as ++ bs = cs ++ ds) : as = cs ∧ bs = ds := by
  rcases List.append_eq_append_iff.mp h with ⟨ms, rfl, rfl⟩ | ⟨ms, rfl, rfl⟩
  · rw [has.eq_nil_of_beginsLoosely hcs hbs]
    simp
  · rw [hcs.eq_nil_of_beginsLoosely has hds]
    simp

/-- A row is told from what follows if that begins with a token that closes something. -/
theorem eq_of_append_close_eq {as bs cs ds : List Token} (has : Grouped m as) (hcs : Grouped n cs) {t : Token}
    (hclose : t.level = -1) (h : as ++ t :: bs = cs ++ t :: ds) : as = cs ∧ bs = ds := by
  rcases cut_cases h with ⟨hac, -, hbd⟩ | ⟨ms, rfl, -⟩ | ⟨ms, rfl, -⟩
  · exact ⟨hac, hbd⟩
  · have := has.level_nonneg hcs
    omega
  · have := hcs.level_nonneg has
    omega

/-- No token that opens something is in the first row of one cut while the second row of the other cut holds what is
behind it. -/
theorem not_overlapping_open {as ms bs : List Token} (has : Grouped m as) {t : Token} (hopen : t.level = 1)
    (hleft : Grouped m (as ++ t :: ms)) (hright : Grouped n (ms ++ bs)) : False := by
  have hclosed := hleft.closed
  have hnested := hright.nested ms bs rfl
  rw [depth_append, depth_cons, has.closed, hopen] at hclosed
  omega

end Grouped

end ConditionLint
