import FlowGraph.Block.Id
import FlowGraph.Stmt.Id

/-! # Blocks

A block is a run of statements with the edges that enter and leave it.
-/

namespace FlowGraph

/-- A run of statements. Edges are listed in the order in which they were linked:
    the successors of a guard are its body and its else part, those of a loop
    header its body and its end. -/
structure Block where
  id : BlockId
  statements : List StmtId := []
  predecessors : List BlockId := []
  successors : List BlockId := []
  terminal : Bool := false
  deriving Repr, DecidableEq

namespace Block

def addStatement (stmt : StmtId) (block : Block) : Block :=
  { block with statements := block.statements ++ [stmt] }

def addSuccessor (target : BlockId) (block : Block) : Block :=
  { block with successors := block.successors ++ [target] }

def addPredecessor (source : BlockId) (block : Block) : Block :=
  { block with predecessors := block.predecessors ++ [source] }

def markTerminal (block : Block) : Block := { block with terminal := true }

def isEmpty (block : Block) : Bool := block.statements.isEmpty

def last? (block : Block) : Option StmtId := block.statements.getLast?

end Block

end FlowGraph
