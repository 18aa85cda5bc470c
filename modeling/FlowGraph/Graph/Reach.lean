import FlowGraph.Graph.Basic

/-! # Reachability

The blocks that control can get to from a given block. A block is marked when it
is first met, and its successors are looked at once; so as many looks as there are
blocks are enough.
-/

namespace FlowGraph.Graph

/-- Which blocks were met, by position, and which of these still have to be looked at. -/
structure Search where
  marks : Array Bool
  pending : List BlockId
  deriving Repr, DecidableEq

def marked (graph : Graph) (marks : Array Bool) (id : BlockId) : Bool :=
  match graph.position? id with
  | some position => marks.getD position false
  | none => false

/-- Meets a block: marks it and keeps it for later, unless it was met before. -/
def meet (graph : Graph) (search : Search) (id : BlockId) : Search :=
  match graph.position? id with
  | some position =>
      if search.marks.getD position false then search
      else ⟨search.marks.setIfInBounds position true, id :: search.pending⟩
  | none => search

/-- Looks at pending blocks, at most `looks` of them. -/
def sweep (graph : Graph) : (looks : Nat) → Search → Array Bool
  | 0, search => search.marks
  | looks + 1, search =>
      match search.pending with
      | [] => search.marks
      | id :: pending =>
          graph.sweep looks ((graph.successors id).foldl graph.meet ⟨search.marks, pending⟩)

/-- The marks of all blocks that control can get to from a block. -/
def marksFrom (graph : Graph) (start : BlockId) : Array Bool :=
  graph.sweep graph.size (graph.meet ⟨Array.replicate graph.size false, []⟩ start)

/-- The blocks that control can get to from a block, itself included, by increasing id. -/
def reachableFrom (graph : Graph) (start : BlockId) : Except GraphFault (List BlockId) :=
  if graph.contains start then
    let marks := graph.marksFrom start
    .ok (graph.ids.filter (graph.marked marks))
  else .error (.unknownBlock start)

/-- The blocks that control cannot get to from the entry, in the order in which they
    were made. -/
def unreachable (graph : Graph) : List BlockId :=
  let marks := graph.marksFrom graph.entry
  graph.ids.filter fun id => !graph.marked marks id

end FlowGraph.Graph
