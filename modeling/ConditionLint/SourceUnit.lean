import ConditionLint.Place
import ConditionLint.Scope

/-!
# Source units

A source unit holds the declared variables and functions and the syntax trees. Its source order
lists the function bodies in the order of declaration and then the other trees; within each of them a
node comes before its operands. Ranges of the source, such as the nodes between two others, are pieces
of that list. The unit knows the place of each of its nodes.
-/

namespace ConditionLint

/-- A declared function. -/
structure Function where
  name : String
  params : List VarId
  returns : CType
  body : NodeId
  deriving DecidableEq, Repr

/-- What was compiled together. -/
structure SourceUnit where
  vars : List Variable
  functions : List Function
  /-- Where the source order begins anew: at function bodies, then at the remaining trees. -/
  starts : List Tree
  /-- The place of each node, by its number. -/
  places : List Place

namespace SourceUnit

/-- The source unit with the given trees in its source order. -/
def ofTrees (vars : List Variable) (functions : List Function) (starts : List Tree) : SourceUnit where
  vars := vars
  functions := functions
  starts := starts
  places := Place.ofTrees ((starts.flatMap Tree.subtrees).mergeSort fun s t => s.id ≤ t.id)

/-- All nodes in source order. -/
def listing (u : SourceUnit) : List Tree := u.starts.flatMap Tree.subtrees

/-- The place of a node by its number. -/
def place? (u : SourceUnit) (id : NodeId) : Option Place := u.places.find? fun p => p.id == id

/-- The place of a node of the unit. -/
def placeOf (u : SourceUnit) (t : Tree) : Place := ⟨t, ((u.place? t.id).map Place.above).getD []⟩

/-- The places of a node and of everything below it, in source order. -/
def span (u : SourceUnit) (t : Tree) : List Place := t.subtrees.map u.placeOf

/-- The places of all nodes, in source order. -/
def order (u : SourceUnit) : List Place := u.listing.map u.placeOf

/-- The places that stand under no other node. -/
def roots (u : SourceUnit) : List Place := u.order.filter fun p => p.above.isEmpty

/-- The places that a check looks at, in source order. -/
def scanned (u : SourceUnit) : List Place := u.roots.flatMap fun p => u.span p.tree

/-- The index of a node in the source order. -/
def position? (u : SourceUnit) (t : Tree) : Option Nat := u.listing.findIdx? fun s => s.id == t.id

/-- The range of indices that a node and everything below it occupies. -/
def range? (u : SourceUnit) (t : Tree) : Option (Nat × Nat) :=
  (u.position? t).map fun i => (i, i + t.size)

/-- A piece of the source order. -/
def slice (u : SourceUnit) (start stop : Nat) : List Place :=
  ((u.listing.take stop).drop start).map u.placeOf

/-- The nodes after everything below the first and before the second. -/
def between (u : SourceUnit) (a b : Tree) : List Place :=
  match u.range? a, u.position? b with
  | some (_, start), some stop => u.slice start stop
  | _, _ => []

/-- The nodes after everything below the first up to the end of the second. -/
def restOf (u : SourceUnit) (a b : Tree) : List Place :=
  match u.range? a, u.range? b with
  | some (_, start), some (_, stop) => u.slice start stop
  | _, _ => []

/-- Whether a node is listed at or below another. -/
def contains (u : SourceUnit) (outer inner : Tree) : Bool :=
  match u.range? outer, u.position? inner with
  | some (start, stop), some i => start ≤ i && i < stop
  | _, _ => false

/-- The scopes of the unit. -/
def scopes (u : SourceUnit) : ScopeTable := .ofTrees u.starts

/-- The number of the scope in which a node lies. -/
def scopeOf (u : SourceUnit) (t : Tree) : Nat := u.scopes.scopeOf t.id

/-- The function in which a node lies. -/
def function? (u : SourceUnit) (t : Tree) : Option FunctionId :=
  let scopes := u.scopes
  scopes.function? (scopes.scopeOf t.id)

/-- Whether a node lies in a function that returns a truth value. -/
def returnsTruth (u : SourceUnit) (t : Tree) : Bool :=
  ((u.function? t).bind fun f => u.functions[f]?).any fun f => f.returns.isBool

end SourceUnit

end ConditionLint
