import FlowGraph.Block.Id
import FlowGraph.Stmt.Id

/-! # Placements

The block to which each statement was appended. For each slot index one entry counts,
the newest one; an entry of an older version than that is not taken up.
-/

namespace FlowGraph

/-- Statements with their blocks, newest entry first. -/
structure Placement where
  entries : List (StmtId × BlockId) := []
  deriving Repr, DecidableEq

namespace Placement

/-- The entry that counts for a slot index. -/
def current? (placement : Placement) (index : UInt32) : Option (StmtId × BlockId) :=
  placement.entries.find? fun entry => entry.1.index = index

/-- The block of exactly this id. -/
def get? (placement : Placement) (stmt : StmtId) : Option BlockId :=
  match placement.current? stmt.index with
  | some (stored, block) => if stored = stmt then some block else none
  | none => none

/-- Notes that a statement was appended to a block. The null id and an id older than
    the one that counts for its slot leave no trace. -/
def insert (placement : Placement) (stmt : StmtId) (block : BlockId) : Placement :=
  if stmt.isNull then placement
  else
    match placement.current? stmt.index with
    | some (stored, _) =>
        if stmt.olderThan stored then placement else ⟨(stmt, block) :: placement.entries⟩
    | none => ⟨(stmt, block) :: placement.entries⟩

/-- An insertion is about one slot index only. -/
theorem current?_insert_of_ne (placement : Placement) {stmt : StmtId} (block : BlockId)
    {index : UInt32} (h : stmt.index ≠ index) :
    (placement.insert stmt block).current? index = placement.current? index := by
  unfold insert
  split
  · rfl
  · split
    · split
      · rfl
      · simp [current?, h]
    · simp [current?, h]

/-- The id that counts for its slot moves to the block it is inserted with. -/
theorem get?_insert_self {placement : Placement} {stmt : StmtId} (block : BlockId)
    (hnull : stmt.isNull = false)
    (hcurrent : ∀ stored old, placement.current? stmt.index = some (stored, old) →
      stmt.olderThan stored = false) :
    (placement.insert stmt block).get? stmt = some block := by
  unfold insert
  cases h : placement.current? stmt.index with
  | none => simp [hnull, get?, current?]
  | some entry => simp [hnull, hcurrent entry.1 entry.2 h, get?, current?]

end Placement

end FlowGraph
