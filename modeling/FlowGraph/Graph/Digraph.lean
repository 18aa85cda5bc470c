import Std.Data.HashMap
import FlowGraph.Graph.Basic

/-! # Plain digraphs

A graph without its statements, for general graph algorithms: nodes by position,
each carrying a block id, and edges between positions, each carrying its place
among the successors of its source. It is built by the calls of a library, which
may refuse one more node or edge.
-/

namespace FlowGraph

/-- An edge between two node positions. -/
structure Digraph.Edge where
  source : Nat
  target : Nat
  slot : Nat
  deriving Repr, DecidableEq

/-- Nodes by position and edges in the order in which they were added. -/
structure Digraph where
  nodes : Array BlockId := #[]
  edges : List Digraph.Edge := []
  deriving Repr, DecidableEq

/-- What the export asks of a library: a digraph to begin with, the calls that add a node or an
    edge, and what is read from a digraph. A new node comes with its position. -/
structure DigraphLibrary (G : Type) where
  empty : G
  addNode : G → BlockId → Except String (Nat × G)
  addEdge : G → Digraph.Edge → Except String G
  contents : G → Digraph

namespace Digraph

/-- Positions are 32-bit words, the last of which stands for none. So many nodes and so many
    edges there can be. -/
def room : Nat := 4294967295

def withNode (digraph : Digraph) (id : BlockId) : Digraph :=
  { digraph with nodes := digraph.nodes.push id }

def withEdge (digraph : Digraph) (edge : Edge) : Digraph :=
  { digraph with edges := digraph.edges ++ [edge] }

/-- Edges by the block ids of their ends. -/
def labelledEdges (digraph : Digraph) : List (BlockId × BlockId × Nat) :=
  digraph.edges.filterMap fun edge => do
    return (← digraph.nodes[edge.source]?, ← digraph.nodes[edge.target]?, edge.slot)

/-- The library whose digraphs are their nodes and edges. -/
def library : DigraphLibrary Digraph where
  empty := {}
  addNode digraph id :=
    if digraph.nodes.size < room then .ok (digraph.nodes.size, digraph.withNode id)
    else .error "no position left for a node"
  addEdge digraph edge :=
    if digraph.edges.length < room then
      if edge.source < digraph.nodes.size ∧ edge.target < digraph.nodes.size then
        .ok (digraph.withEdge edge)
      else .error "no node at the end of an edge"
    else .error "no position left for an edge"
  contents digraph := digraph

end Digraph

namespace Graph

/-- All edges with their places among the successors of their sources. -/
def slottedEdges (graph : Graph) : List (BlockId × BlockId × Nat) :=
  graph.blocks.toList.flatMap fun block =>
    block.successors.zipIdx.map fun (target, slot) => (block.id, target, slot)

/-- Looks up the node of a block, which has to be there. -/
def nodeIn (nodes : Std.HashMap BlockId Nat) (id : BlockId) : Except GraphFault Nat :=
  match nodes[id]? with
  | some node => .ok node
  | none => .error (.noNode id)

section Export

variable {G : Type} (library : DigraphLibrary G)

/-- Adds the node of a block and notes its position in the table. -/
def exportBlock (built : Std.HashMap BlockId Nat × G) (block : Block) :
    Except GraphFault (Std.HashMap BlockId Nat × G) := do
  let (node, digraph) ← (library.addNode built.2 block.id).mapError .digraphRefused
  return (built.1.insert block.id node, digraph)

/-- Adds an edge between the nodes that the table has for its ends. -/
def exportEdge (nodes : Std.HashMap BlockId Nat) (digraph : G) :
    BlockId × BlockId × Nat → Except GraphFault G
  | (source, target, slot) => do
      let source ← nodeIn nodes source
      let target ← nodeIn nodes target
      (library.addEdge digraph { source, target, slot }).mapError .digraphRefused

/-- The export of a graph by the calls of a library: all nodes, and then all edges. -/
def exportWith (graph : Graph) : Except GraphFault G := do
  let (nodes, digraph) ← graph.blocks.toList.foldlM (exportBlock library) (∅, library.empty)
  graph.slottedEdges.foldlM (exportEdge library nodes) digraph

end Export

def toDigraph (graph : Graph) : Except GraphFault Digraph := graph.exportWith Digraph.library

end Graph

end FlowGraph
