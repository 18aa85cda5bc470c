/-! # Statement ids

A statement is addressed by a slot index and the version of the statement kept
in that slot, so an id does not outlive the statement it was given for.
-/

namespace FlowGraph

/-- The address of a statement: a slot and the version of its content. -/
structure StmtId where
  index : UInt32
  version : UInt32
  deriving Repr, DecidableEq

namespace StmtId

/-- The index that no slot has. -/
def nullIndex : UInt32 := 0xFFFFFFFF

/-- The id that never addresses a statement. -/
def null : StmtId := ⟨nullIndex, 1⟩

/-- Whether the id can address no statement at all. -/
def isNull (id : StmtId) : Bool := id.index == nullIndex

/-- The written form of an id: `null`, or its index and version. -/
def label (id : StmtId) : String :=
  if id.isNull then "null"
  else toString id.index.toNat ++ "v" ++ toString id.version.toNat

/-- Whether `id` is an older version than `stored`. Versions are compared on the
    circle of 32-bit words: the distance from `stored` forward to `id` is at
    least half a turn. -/
def olderThan (id stored : StmtId) : Bool :=
  decide (0x80000000 ≤ id.version - stored.version)

/-- An id is never older than itself. -/
theorem olderThan_self (id : StmtId) : id.olderThan id = false := by
  simp [olderThan]

end StmtId

end FlowGraph
