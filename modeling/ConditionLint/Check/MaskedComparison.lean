import ConditionLint.Finding
import ConditionLint.Place.Context

/-!
# Masks that decide a comparison, and masks without effect

A masked value that is compared with a constant may have only one outcome. A value combined by `|` with
a nonzero constant is always true, and combined with zero it stays what it is.
-/

namespace ConditionLint

namespace Tree

/-- The integer literals among the operands of a chain of one mask operator, in source order. -/
def maskConstants (op : MaskOp) : Tree → List Int
  | node l [lhs, rhs] =>
    if l.kind = .binary (.arith op.toArith) then
      (match lhs.spelledInteger? with
        | some v => [v]
        | none => maskConstants op lhs)
        ++ (match rhs.spelledInteger? with
          | some v => [v]
          | none => maskConstants op rhs)
    else []
  | _ => []

/-- Whether the value that a mask is applied to is unsigned. -/
def maskedIsUnsigned (t : Tree) : Bool :=
  ((t.operands.find? fun s => s.spelledInteger?.isNone) <|> t.operands.head?).any fun s =>
    s.hasType CType.isUnsigned

/-- Whether a node is known to be zero. -/
def isKnownZero (t : Tree) : Bool := t.value? = some 0

/-- Whether a node is known not to be zero. -/
def isKnownNonzero (t : Tree) : Bool := t.value?.any fun v => v != 0

/-- The order and constant of a comparison that has an integer literal on one side, with the other side
on the left. -/
def againstLiteral? (order : Order) (lhs rhs : Tree) : Option (Tree × Order × Int) :=
  match lhs.spelledInteger?, rhs.spelledInteger? with
  | some bound, none => some (rhs, order.swap, bound)
  | _, some bound => some (lhs, order, bound)
  | none, none => none

end Tree

namespace Place

/-- The comparisons of a masked value that have always the same result, one for each constant of the
mask. -/
def constantMaskTests (u : SourceUnit) (p : Place) : List Finding :=
  if p.tree.label.fromMacro then []
  else
    match p.tree.comparison?.bind fun (order, lhs, rhs) => Tree.againstLiteral? order lhs rhs with
    | some (masked, order, bound) =>
      match masked.binaryOp?.bind MaskOp.ofBinary? with
      | some op =>
        (masked.maskConstants op).filterMap fun mask =>
          let test : MaskTest := ⟨op, mask, order, bound⟩
          (test.truth? masked.maskedIsUnsigned).map (.constantMaskTest (u.placeOf masked) test)
      | none => []
    | none => []

/-- A `|` whose truth value is known from one operand. -/
def alwaysTrueMask? (u : SourceUnit) (p : Place) (lhs rhs : Tree) : Option Finding :=
  if (lhs.isKnownNonzero || rhs.isKnownNonzero) && p.usedAsTruth u then some (.alwaysTrueMask p)
  else none

/-- A `|` with an operand that is zero, not through a macro or conditional compilation. -/
def idleMask? (p : Place) (lhs rhs : Tree) : Option Finding :=
  if !p.tree.ifdefInside
      && (lhs.isKnownZero || rhs.isKnownZero)
      && !p.tree.label.fromMacro
      && !(lhs.isKnownZero && lhs.label.fromMacro)
      && !(rhs.isKnownZero && rhs.label.fromMacro) then
    some (.idleMask p)
  else none

/-- The misuses of `|` at a place. -/
def badMasks (u : SourceUnit) (p : Place) : List Finding :=
  match p.tree.binary? with
  | some (.arith .bitOr, lhs, rhs) =>
    if p.above.isEmpty then []
    else (p.alwaysTrueMask? u lhs rhs).toList ++ (p.idleMask? lhs rhs).toList
  | _ => []

end Place

end ConditionLint
