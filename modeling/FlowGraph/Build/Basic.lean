import FlowGraph.Build.Walk
import FlowGraph.Graph.Consistent

/-! # Building the graph of a sequence

A build begins with a graph that has only its entry and walks the whole sequence
into it. The entry is made before anything is read, so a numbering that is used up
is noticed first. When the walk is done, it has to have left every loop that it went
into, and the edges of the graph are checked.
-/

namespace FlowGraph

/-- What has to hold when a walk is done. -/
def WalkState.check (state : WalkState) : Except GraphFault Unit :=
  if state.loops.isEmpty then state.graph.check else .error .loopsOpen

namespace Context

/-- Walks a sequence into a graph that has only its entry. Gives the block where the
    walk ended together with the graph. -/
def buildInto (context : Context) (graph : Graph) (body : List StmtId) :
    BuildM (BlockId × Graph) := do
  BuildM.record (.entered graph.entry context.dialect.name)
  let (last, state) ← context.walkSeq (context.maxDepth + 1) graph.entry body { graph }
  BuildM.ofGraph state.check
  return (last, state.graph)

/-- The graph of a sequence and the block where its walk ended. -/
def buildToEnd (context : Context) (start : Numbering) (body : List StmtId) :
    BuildM (BlockId × Graph) := do
  let graph ← BuildM.ofGraph (Graph.new start)
  context.buildInto graph body

/-- The graph of a sequence. -/
def build (context : Context) (start : Numbering) (body : List StmtId) : BuildM Graph := do
  let result ← context.buildToEnd start body
  return result.2

/-- The graph of the body of a definition. -/
def buildDef (context : Context) (start : Numbering) (root : StmtId) : BuildM Graph := do
  let graph ← BuildM.ofGraph (Graph.new start)
  match context.pool.get? root with
  | none => .refuse (.missingStatement root)
  | some stmt =>
      let result ← context.buildInto graph stmt.body
      return result.2

end Context

end FlowGraph
