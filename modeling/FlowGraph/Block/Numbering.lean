import FlowGraph.Graph.Fault

/-! # Block numbering

A running number from which blocks take their ids. Several graphs may share one
numbering, and then no id occurs in two of them.
-/

namespace FlowGraph

/-- The next block id to be handed out. -/
structure Numbering where
  next : BlockId := ⟨0⟩
  deriving Repr, DecidableEq

namespace Numbering

/-- Numbering that begins with the given number. -/
def startingFrom (number : UInt32) : Numbering := ⟨⟨number.toNat⟩⟩

/-- Hands out the next id. The last number is kept back, so that there is always
    a next id to speak of. -/
def fresh (numbering : Numbering) : Except GraphFault (BlockId × Numbering) :=
  if numbering.next.index + 1 < BlockId.limit then
    .ok (numbering.next, ⟨⟨numbering.next.index + 1⟩⟩)
  else .error (.idsExhausted numbering.next)

/-- An id is handed out exactly when it is not the last number. -/
theorem fresh_eq_ok_iff {numbering : Numbering} {result : BlockId × Numbering} :
    numbering.fresh = .ok result ↔
      numbering.next.index + 1 < BlockId.limit ∧
        result = (numbering.next, ⟨⟨numbering.next.index + 1⟩⟩) := by
  by_cases h : numbering.next.index + 1 < BlockId.limit <;> simp [fresh, h, eq_comm]

end Numbering

end FlowGraph
