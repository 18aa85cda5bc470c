import FlowGraph.Stmt.Basic

/-! # The statement pool

Statements live in numbered slots. A slot that was freed is used again with a
higher version, the slot freed last first; slot 0 is never used. An occupied slot
has an odd version and a vacant one an even version.
-/

namespace FlowGraph

/-- A place for one statement, with the version of what it holds or held. -/
structure Slot where
  version : UInt32
  stmt : Option Stmt
  deriving Repr, DecidableEq

/-- Statements by id. `free` lists the vacant slots to be used next. -/
structure StmtPool where
  slots : Array Slot := #[⟨0, none⟩]
  free : List Nat := []
  deriving Repr, DecidableEq

namespace StmtPool

/-- The version in a slot, 0 where there is no slot yet. -/
def versionAt (pool : StmtPool) (slot : Nat) : UInt32 :=
  match pool.slots[slot]? with
  | some content => content.version
  | none => 0

/-- The statement kept under an id. No slot has the index of the null id. -/
def get? (pool : StmtPool) (id : StmtId) : Option Stmt :=
  if id.isNull then none
  else
    match pool.slots[id.index.toNat]? with
    | some content => if content.version = id.version then content.stmt else none
    | none => none

def insert (pool : StmtPool) (stmt : Stmt) : StmtId × StmtPool :=
  match pool.free with
  | [] =>
      (⟨UInt32.ofNat pool.slots.size, 1⟩, { pool with slots := pool.slots.push ⟨1, some stmt⟩ })
  | slot :: free =>
      let version := pool.versionAt slot ||| 1
      (⟨UInt32.ofNat slot, version⟩,
        { slots := pool.slots.setIfInBounds slot ⟨version, some stmt⟩, free })

/-- Takes the statement kept under an id out of the pool. -/
def remove? (pool : StmtPool) (id : StmtId) : Option (Stmt × StmtPool) :=
  (pool.get? id).map fun stmt =>
    (stmt,
      { slots := pool.slots.setIfInBounds id.index.toNat ⟨id.version + 1, none⟩
        free := id.index.toNat :: pool.free })

/-- Puts another statement in the place of the one kept under an id. -/
def replace? (pool : StmtPool) (id : StmtId) (stmt : Stmt) : Option StmtPool :=
  (pool.get? id).map fun _ =>
    { pool with slots := pool.slots.setIfInBounds id.index.toNat ⟨id.version, some stmt⟩ }

/-- The ids in use, in slot order. -/
def keys (pool : StmtPool) : List StmtId :=
  pool.slots.toList.zipIdx.filterMap fun (content, slot) =>
    content.stmt.map fun _ => ⟨UInt32.ofNat slot, content.version⟩

def size (pool : StmtPool) : Nat := pool.keys.length

/-- The slot of a statement in the pool exists. -/
theorem index_lt_of_get? {pool : StmtPool} {id : StmtId} {stmt : Stmt}
    (h : pool.get? id = some stmt) : id.index.toNat < pool.slots.size := by
  unfold get? at h
  split at h
  · cases h
  · split at h
    · rename_i content hc
      exact (Array.getElem?_eq_some_iff.mp hc).1
    · cases h

theorem isNull_of_get? {pool : StmtPool} {id : StmtId} {stmt : Stmt}
    (h : pool.get? id = some stmt) : id.isNull = false := by
  cases hn : id.isNull with
  | false => rfl
  | true => simp [get?, hn] at h

theorem versionAt_of_get? {pool : StmtPool} {id : StmtId} {stmt : Stmt}
    (h : pool.get? id = some stmt) : pool.versionAt id.index.toNat = id.version := by
  unfold get? at h
  rw [isNull_of_get? h] at h
  cases hs : pool.slots[id.index.toNat]? with
  | none => simp [hs] at h
  | some content =>
      simp only [hs, Bool.false_eq_true, if_false, Option.ite_none_right_eq_some] at h
      simp only [versionAt, hs, h.1]

/-- Of the ids with one index at most one addresses a statement. -/
theorem eq_of_get? {pool : StmtPool} {left right : StmtId} {stmt stmt' : Stmt}
    (hl : pool.get? left = some stmt) (hr : pool.get? right = some stmt')
    (same : left.index = right.index) : left = right := by
  have versions : left.version = right.version := by
    rw [← versionAt_of_get? hl, ← versionAt_of_get? hr, same]
  cases left
  cases right
  simp_all only

theorem get?_replace? {pool after : StmtPool} {id : StmtId} {stmt : Stmt}
    (h : pool.replace? id stmt = some after) : after.get? id = some stmt := by
  obtain ⟨old, hold, rfl⟩ := Option.map_eq_some_iff.mp h
  simp [get?, isNull_of_get? hold, index_lt_of_get? hold]

theorem get?_remove? {pool after : StmtPool} {id : StmtId} {stmt : Stmt}
    (h : pool.remove? id = some (stmt, after)) : after.get? id = none := by
  obtain ⟨old, hold, heq⟩ := Option.map_eq_some_iff.mp h
  cases heq
  simp [get?, index_lt_of_get? hold]

end StmtPool

end FlowGraph
