import ConditionLint.Tree

/-!
# Scopes

A scope is opened by a function body, by the body of a controlling statement, and by a block within a
block. Scopes are numbered in the order in which the source opens them; number 0 is the global scope.
A node lies in the scope that it opens, or else in the scope of the node under which it is listed.
-/

namespace ConditionLint

/-- What opens a scope. -/
inductive ScopeKind where
  | global
  | function
  | ifBranch
  | elseBranch
  | whileBody
  | forBody
  | doBody
  | switchBody
  | catchBody
  | other
  deriving DecidableEq, Repr

/-- A lexical scope. -/
structure Scope where
  kind : ScopeKind
  body : Option NodeId
  parent : Option Nat
  function : Option FunctionId
  deriving DecidableEq, Repr

/-- The scope that an operand of a statement opens. -/
def Keyword.opensAt? : Keyword → Nat → Option ScopeKind
  | .ifStmt _, 1 => some .ifBranch
  | .ifStmt _, 2 => some .elseBranch
  | .whileStmt, 1 => some .whileBody
  | .forStmt, 3 => some .forBody
  | .doWhile, 0 => some .doBody
  | .switchStmt, 1 => some .switchBody
  | .catchBlock, 0 => some .catchBody
  | _, _ => none

/-- The scope that an operand opens under a node of the given kind. -/
def Tree.opens? (operand : Tree) (parent : Kind) (index : Nat) : Option ScopeKind :=
  match parent with
  | .keyword k => k.opensAt? index
  | .block => if operand.isBlock then some .other else none
  | _ => none

/-- The scopes opened so far, and the scope of each node seen so far. -/
structure ScopeTable where
  scopes : List Scope
  entries : List (NodeId × Nat)

namespace ScopeTable

/-- Only the global scope. -/
def start : ScopeTable := ⟨[⟨.global, none, none, none⟩], []⟩

/-- The scope of a node; nodes not seen yet are in the global one. -/
def scopeOf (t : ScopeTable) (id : NodeId) : Nat :=
  ((t.entries.find? fun e => e.1 == id).map Prod.snd).getD 0

/-- The function in which a scope lies. -/
def function? (t : ScopeTable) (scope : Nat) : Option FunctionId := t.scopes[scope]?.bind Scope.function

/-- Put a node into a scope. -/
def enter (t : ScopeTable) (l : Label) (scope : Nat) : ScopeTable :=
  { t with entries := (l.id, scope) :: t.entries }

/-- Open a scope with the given node as its body. -/
def openScope (t : ScopeTable) (kind : ScopeKind) (l : Label) (outer : Nat) : ScopeTable :=
  { t with scopes := t.scopes ++ [⟨kind, some l.id, some outer, l.owner <|> t.function? outer⟩] }

mutual

/-- Take up a tree in a scope, in which it may open another one. -/
def addTree (t : ScopeTable) (outer : Nat) (opens : Option ScopeKind) : Tree → ScopeTable
  | .node l ts =>
    match opens with
    | some kind =>
      ((t.openScope kind l outer).enter l t.scopes.length).addOperands t.scopes.length l.kind 0 ts
    | none => (t.enter l outer).addOperands outer l.kind 0 ts

/-- Take up the operands of a node from an index on, without those that are listed elsewhere. -/
def addOperands (t : ScopeTable) (scope : Nat) (parent : Kind) (index : Nat) : List Tree → ScopeTable
  | [] => t
  | s :: ss =>
    (if s.isElsewhere then t else t.addTree scope (s.opens? parent index) s).addOperands scope parent
      (index + 1) ss

end

/-- Take up a tree at which the source order begins anew; only a function body opens a scope there. -/
def addStart (t : ScopeTable) (s : Tree) : ScopeTable :=
  t.addTree 0 (if s.label.owner.isSome then some .function else none) s

/-- The scopes of trees that are laid out one after the other. -/
def ofTrees (starts : List Tree) : ScopeTable := starts.foldl addStart start

end ScopeTable

end ConditionLint
