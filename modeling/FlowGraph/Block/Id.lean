/-! # Block ids

A block is addressed by number. Numbers are 32-bit words and are handed out in
order, none of them twice.
-/

namespace FlowGraph

/-- The number of a block. -/
structure BlockId where
  index : Nat
  deriving Repr, DecidableEq, Hashable

namespace BlockId

/-- Block numbers are below this bound, two to the power 32. -/
def limit : Nat := 4294967296

def label (id : BlockId) : String := "B" ++ toString id.index

end BlockId

end FlowGraph
