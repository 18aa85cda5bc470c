import FlowGraph.Build.Basic
import FlowGraph.Tree

/-! # Scopes of a module

A module has a scope for its top sequence and one for the body of each definition
met in another scope. Scopes are numbered in the order in which they are built, and
each but the first has a parent that comes before it.
-/

namespace FlowGraph

/-- One scope with its graph. -/
structure Scope where
  /-- The definition whose body this is, none for the module itself. -/
  root : Option StmtId
  /-- The name of that definition. -/
  name : Option Symbol
  /-- The number of the scope in which the definition stands. -/
  parent : Option Nat
  graph : Graph
  deriving Repr, DecidableEq

/-- The scopes of a module by number. -/
structure ModuleGraphs where
  scopes : Array Scope
  deriving Repr, DecidableEq

namespace ModuleGraphs

def size (graphs : ModuleGraphs) : Nat := graphs.scopes.size

/-- The scope of the top sequence. -/
def top? (graphs : ModuleGraphs) : Option Scope := graphs.scopes[0]?

def blockCount (graphs : ModuleGraphs) : Nat :=
  graphs.scopes.toList.foldr (fun scope count => scope.graph.size + count) 0

/-- The numbering that goes on after every block of the module. -/
def numbering (graphs : ModuleGraphs) : Numbering :=
  ⟨⟨(graphs.scopes.toList.map fun scope => scope.graph.numbering.next.index).foldl max 0⟩⟩

end ModuleGraphs

end FlowGraph
