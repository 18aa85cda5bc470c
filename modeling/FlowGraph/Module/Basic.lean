import FlowGraph.Build.Growth
import FlowGraph.Module.Scope

/-! # Building a module

The top sequence is built first, then the definitions that wait, first in, first
out; the definitions met in a body wait behind those that wait already. All graphs
share one numbering. Every scope uses up an id and there are finitely many, so the
enumeration ends, also for a definition that contains itself.
-/

namespace FlowGraph

/-- A definition whose body waits to be built, and the number of the scope it stands in. -/
structure Waiting where
  root : StmtId
  parent : Nat
  deriving Repr, DecidableEq

/-- The definitions met in a scope, in the order in which they were met. -/
def Graph.waiting (graph : Graph) (number : Nat) : List Waiting :=
  graph.deferred.map fun root => ⟨root, number⟩

namespace Context

/-- Builds the definitions that wait and those met on the way. -/
def buildWaiting (context : Context) (start : Numbering) (scopes : Array Scope)
    (queue : List Waiting) : BuildM (Array Scope) :=
  match queue with
  | [] => pure scopes
  | waiting :: queue =>
      match context.pool.get? waiting.root with
      | none => .refuse (.missingStatement waiting.root)
      | some stmt => fun log =>
          match _h : context.build start stmt.body
              (log.push (.definitionBegun stmt.kind stmt.line)) with
          | .error failure log => .error failure log
          | .ok graph log =>
              context.buildWaiting graph.numbering
                (scopes.push ⟨some waiting.root, stmt.name, some waiting.parent, graph⟩)
                (queue ++ graph.waiting scopes.size) log
termination_by BlockId.limit - start.next.index
decreasing_by
  have := next_lt_of_build _h
  omega

/-- Builds the scopes of a module with the given top sequence. -/
def buildModule (context : Context) (body : List StmtId) : BuildM ModuleGraphs := do
  BuildM.record .moduleBegun
  let graph ← context.build {} body
  let scopes ← context.buildWaiting graph.numbering #[⟨none, none, none, graph⟩] (graph.waiting 0)
  return ⟨scopes⟩

end Context

namespace Tree

/-- The statements of a tree, read in a dialect. -/
def context (tree : Tree) (dialect : Dialect) : Context := { pool := tree.pool, dialect }

/-- The graph of the top sequence of a tree, numbered from zero. -/
def build (tree : Tree) (dialect : Dialect) : BuildM Graph :=
  (tree.context dialect).build {} tree.body

end Tree

end FlowGraph
