import FlowGraph.Block.Id

/-! # Graph faults

A graph operation that is called against its contract changes nothing and says
which part of the contract was broken. The checks made at the end of a build say
in the same way what they found.
-/

namespace FlowGraph

/-- A broken contract of a graph operation, or a failed check at the end of a build. -/
inductive GraphFault where
  | unknownBlock (block : BlockId)
  | duplicateEdge (source target : BlockId)
  | terminalBlock (block : BlockId)
  /-- No block can be numbered after this one. -/
  | idsExhausted (last : BlockId)
  /-- Some of the successors of the block are listed more than once. -/
  | repeatedSuccessor (block : BlockId) (distinct listed : Nat)
  | unknownSuccessor (source target : BlockId)
  | unnotedPredecessor (source target : BlockId)
  | unknownPredecessor (source target : BlockId)
  | unnotedSuccessor (source target : BlockId)
  | loopsOpen
  /-- The table of an export has no node for the block. -/
  | noNode (block : BlockId)
  /-- A library of digraphs takes no further node or edge, and says why. -/
  | digraphRefused (message : String)
  deriving Repr, DecidableEq

def GraphFault.message : GraphFault → String
  | unknownBlock block => "block " ++ block.label ++ " is not registered in this graph"
  | duplicateEdge source target => "duplicate edge " ++ source.label ++ " -> " ++ target.label
  | terminalBlock block => "cannot append a statement to terminal block " ++ block.label
  | idsExhausted last => "ran out of block ids after " ++ last.label
  | repeatedSuccessor block distinct listed =>
      "assertion `left == right` failed: duplicate successor on " ++ block.label
        ++ "\n  left: " ++ toString distinct ++ "\n right: " ++ toString listed
  | unknownSuccessor source target => source.label ++ " links to unknown block " ++ target.label
  | unnotedPredecessor source target =>
      "edge " ++ source.label ++ " -> " ++ target.label ++ " missing from predecessors"
  | unknownPredecessor source target =>
      target.label ++ " has unknown predecessor " ++ source.label
  | unnotedSuccessor source target =>
      "edge " ++ source.label ++ " -> " ++ target.label ++ " missing from successors"
  | loopsOpen => "assertion failed: self.loop_stack.is_empty()"
  | noNode _ => "no entry found for key"
  | digraphRefused message => message

end FlowGraph
