import ConditionLint.Change
import ConditionLint.Finding

/-!
# Contradictions to an assigned mask

After the statement `x = e & k` the variable has no bits outside of `k`, and after `x = e | k` it has
all bits of `k`. The variable is followed through the statements behind the assignment as long as it
keeps that value. On the way, a mask without a common bit and a comparison with an impossible value
contradict the assignment.
-/

namespace ConditionLint

/-- A statement `x = e & mask` or `x = e | mask`. -/
structure MaskedAssignment where
  place : Place
  target : Variable
  op : MaskOp
  mask : Int

/-- The nodes that were reached with the assigned value, each with whether it is part of a condition,
and what ended the way. -/
structure Trail where
  nodes : List (Place × Bool)
  /-- The variable may have changed. -/
  changed : Bool
  /-- Statements behind are not looked at. -/
  ended : Bool

namespace Trail

/-- Nothing was reached yet. -/
def start : Trail := ⟨[], false, false⟩

/-- The variable may have changed before anything was reached. -/
def cut : Trail := ⟨[], true, true⟩

/-- Go on behind a trail, unless it ended. -/
def andThen (t : Trail) (u : Trail) : Trail :=
  if t.ended then t else ⟨t.nodes ++ u.nodes, u.changed, u.ended⟩

/-- Follow two branches of which one is taken. The way goes on behind them unless the variable may have
changed in one. -/
def either (t u : Trail) : Trail :=
  ⟨t.nodes ++ u.nodes, t.changed || u.changed, t.changed || u.changed⟩

/-- End a trail here. -/
def close (t : Trail) : Trail := { t with ended := true }

/-- The nodes in the given order up to the first that may change the variable. -/
def along (v : Variable) (inCondition : Bool) : List Place → Trail
  | [] => start
  | p :: ps =>
    if p.changesVariable v then ⟨[(p, inCondition)], true, true⟩
    else
      let rest := along v inCondition ps
      { rest with nodes := (p, inCondition) :: rest.nodes }

/-- Follow the condition of a branching statement. -/
def alongCondition (u : SourceUnit) (v : Variable) (t : Tree) : Trail :=
  (t.condition?.map fun c => along v true (u.span c)).getD start

/-- Follow a statement without parts of its own; a jump ends the way. -/
def alongPlain (u : SourceUnit) (v : Variable) (t : Tree) : Trail :=
  let trail := along v false (u.span t)
  if t.keyword?.any Keyword.isJump then trail.close else trail

mutual

/-- Follow the value of a variable through a statement. The way ends in the bodies of loops other than
`while`, of `switch` and of handlers, and in blocks. -/
def through (u : SourceUnit) (v : Variable) : Tree → Trail
  | .node l ts =>
    let self := Tree.node l ts
    match l.kind, ts with
    | .keyword (.ifStmt _), _ :: branches =>
      (alongCondition u v self).andThen (throughBranches u v branches)
    | .keyword .whileStmt, _ :: branches =>
      if u.changesVariableWithin v self then cut
      else if v.storage.isLocal then (alongCondition u v self).andThen (throughBranches u v branches)
      else start
    | .keyword .forStmt, [_, _, _, body] =>
      if u.changesVariableWithin v self then cut else (through u v body).close
    | .keyword .doWhile, [body, _] =>
      if u.changesVariableWithin v self then cut else (through u v body).close
    | .keyword .switchStmt, [_, body] =>
      if self.condition?.any fun c => u.changesVariableWithin v c then cut
      else (through u v body).close
    | .keyword .catchBlock, [body] => (through u v body).close
    | .block, ts => (throughAll u v ts).close
    | _, _ => alongPlain u v self

/-- Follow the value of a variable through statements that come one after the other. -/
def throughAll (u : SourceUnit) (v : Variable) : List Tree → Trail
  | [] => start
  | t :: ts => (through u v t).andThen (throughAll u v ts)

/-- Follow the value of a variable through statements of which one is taken. -/
def throughBranches (u : SourceUnit) (v : Variable) : List Tree → Trail
  | [] => start
  | t :: ts => (through u v t).either (throughBranches u v ts)

end

end Trail

namespace MaskedAssignment

/-- Whether the node is the variable that was assigned to. -/
def isTarget (a : MaskedAssignment) (t : Tree) : Bool := t.varId? = some a.target.id

/-- The constant with which a node masks the assigned variable. -/
def usedMask? (a : MaskedAssignment) (t : Tree) : Option Int :=
  match t.binary? with
  | some (.update .bitAnd, lhs, rhs) => if a.isTarget lhs then rhs.spelledNumber? else none
  | some (.arith .bitAnd, lhs, rhs) =>
    if a.isTarget lhs then rhs.spelledNumber?
    else if a.isTarget rhs then lhs.spelledNumber? else none
  | _ => none

/-- A mask that has no bit in common with the assigned one. -/
def disjointMask? (a : MaskedAssignment) (p : Place) : Option Finding :=
  match a.op, a.usedMask? p.tree with
  | .and, some used =>
    if TwosComplement.and a.mask used = 0 then some (.disjointMasks a.place p a.mask used) else none
  | _, _ => none

/-- Whether the place is a condition or an operand of `&&` or `||`. -/
def isConditionPart (p : Place) : Bool :=
  p.above.head?.any fun t => t.isLogical || t.condition?.map Tree.id = some p.id

/-- Whether the assigned variable can be equal to a value. -/
def allows (a : MaskedAssignment) (value : Int) : Bool :=
  TwosComplement.and a.mask value = match a.op with
    | .and => value
    | .or => a.mask

/-- The side of a comparison that is the assigned variable, and the constant on the other side. -/
def comparedWith? (a : MaskedAssignment) (lhs rhs : Tree) : Option (Tree × Int) :=
  if a.isTarget lhs then rhs.spelledNumber?.map fun value => (lhs, value)
  else if a.isTarget rhs then lhs.spelledNumber?.map fun value => (rhs, value)
  else none

/-- A comparison with a value that the assignment rules out. -/
def ruledOut? (a : MaskedAssignment) (p : Place) : Option Finding :=
  match p.tree.comparison? with
  | some (order, lhs, rhs) =>
    if order.isEquality && isConditionPart p then
      (a.comparedWith? lhs rhs).bind fun (side, value) =>
        if side.isIdentifier && !a.allows value then
          some (.ruledOutByMask a.place p side order value)
        else none
    else none
  | none => none

/-- The findings at a node that was reached with the assigned value. Comparisons count in conditions
only. -/
def findingsAt (a : MaskedAssignment) (p : Place) (inCondition : Bool) : List Finding :=
  (a.disjointMask? p).toList ++ (if inCondition then (a.ruledOut? p).toList else [])

/-- What the statements behind the assignment reach with the assigned value. -/
def trail (a : MaskedAssignment) (u : SourceUnit) : Trail :=
  Trail.throughAll u a.target a.place.following

/-- The contradictions to the assignment. -/
def findings (a : MaskedAssignment) (u : SourceUnit) : List Finding :=
  (a.trail u).nodes.flatMap fun (p, inCondition) => a.findingsAt p inCondition

end MaskedAssignment

namespace Place

/-- Whether the node at the place is a statement of a block. -/
def isBlockStatement (p : Place) : Bool := p.above.head?.any Tree.isBlock

/-- The masked assignment at a place. A negative constant in `|` tells nothing about the bits. -/
def maskedAssignment? (p : Place) : Option MaskedAssignment :=
  match p.tree.binary? with
  | some (.assign, lhs, rhs) =>
    if lhs.isIdentifier && p.isBlockStatement then
      match lhs.referent, rhs.binary? with
      | some v, some (op, a, b) =>
        match MaskOp.ofBinary? op, a.spelledNumber? <|> b.spelledNumber? with
        | some op, some mask => if mask < 0 && op = .or then none else some ⟨p, v, op, mask⟩
        | _, _ => none
      | _, _ => none
    else none
  | _ => none

/-- The contradictions to the masked assignment at a place. -/
def maskContradictions (u : SourceUnit) (p : Place) : List Finding :=
  (p.maskedAssignment?.map fun a => a.findings u).getD []

end Place

end ConditionLint
