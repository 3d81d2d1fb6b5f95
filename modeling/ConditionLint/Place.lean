import ConditionLint.Tree.Statement

/-!
# Places in a syntax tree

A place is a tree together with the trees around it, the innermost first, so what depends on the
context of a node can be read off its place. A node that several nodes share belongs to the last of
them: its place is there.
-/

namespace ConditionLint

/-- A tree and its ancestors, innermost first. -/
structure Place where
  tree : Tree
  above : List Tree
  deriving Repr

namespace Place

/-- The number of the node at the place. -/
def id (p : Place) : NodeId := p.tree.id

/-- What the node at the place is. -/
def kind (p : Place) : Kind := p.tree.kind

/-- The node to which the node at the place belongs. -/
def parent? (p : Place) : Option Tree := p.above.head?

/-- The topmost tree around the place. -/
def root (p : Place) : Tree := p.above.getLast?.getD p.tree

/-- The statements after the place in its block. -/
def following (p : Place) : List Tree :=
  match p.parent? with
  | some t => if t.isBlock then (t.operands.dropWhile fun s => s.id != p.id).drop 1 else []
  | none => []

/-- The statement right after the place in its block. -/
def next? (p : Place) : Option Tree := p.following.head?

/-- The last of the given places whose node uses the node with the given number. -/
def lastUser? (places : List Place) (id : NodeId) : Option Place :=
  (places.filter fun p => p.tree.uses id).getLast?

/-- The places of trees that are ordered by number, so that a node comes before those that use it. -/
def ofTrees : List Tree → List Place
  | [] => []
  | t :: ts =>
    let later := ofTrees ts
    match lastUser? later t.id with
    | some p => ⟨t, p.tree :: p.above⟩ :: later
    | none => ⟨t, []⟩ :: later

end Place

end ConditionLint
