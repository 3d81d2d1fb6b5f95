import ConditionLint.Tree

/-!
# The layout of trees that share nodes

Trees are laid out one after the other, a node before its operands. A node that occurs several times
is listed where it is met first; every later occurrence is marked as being elsewhere and has the same
operands, marked in the same way. So the subtrees of the trees that were laid out are all nodes, each
once, in source order.
-/

namespace ConditionLint.Tree

/-- The tree with the given number. -/
def withId? (trees : List Tree) (id : NodeId) : Option Tree := trees.find? fun t => t.id == id

/-- Mark an occurrence of a node that is listed at another one. -/
def markElsewhere (t : Tree) : Tree := t.relabel fun l => { l with elsewhere := true }

mutual

/-- Lay out a tree behind those that are laid out already. Gives the tree, marked if it is one of
them, and all that is laid out then. -/
def layOut (laid : List Tree) : Tree → Tree × List Tree
  | node l ts =>
    match withId? laid l.id with
    | some t => (t.markElsewhere, laid)
    | none =>
      let (ts, laid) := layOutAll laid ts
      (node l ts, node l ts :: laid)

/-- Lay out several trees, one after the other. -/
def layOutAll (laid : List Tree) : List Tree → List Tree × List Tree
  | [] => ([], laid)
  | t :: ts =>
    let (t, laid) := layOut laid t
    let (ts, laid) := layOutAll laid ts
    (t :: ts, laid)

end

/-- The trees at which the source order of several trees begins anew. -/
def starts (ts : List Tree) : List Tree := (layOutAll [] ts).1.filter fun t => !t.isElsewhere

end ConditionLint.Tree
