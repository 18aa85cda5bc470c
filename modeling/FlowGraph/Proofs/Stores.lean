import FlowGraph.Proofs.LastAppend
import FlowGraph.Symbol

/-! # Stores

Statements, the blocks they were appended to and names are kept in three stores. What is used of
them are a few laws: no statement has the null id and a slot holds one version at a time, an
insertion leaves no trace for a null id or an outdated one only, and a name can be read back from
its symbol. The stores here keep these laws, and any others that keep them could stand in their
place.
-/

namespace FlowGraph

/-- How statements are looked up: not under a null id, and in one version for each slot. -/
structure LawfulLookup (get? : StmtId → Option Stmt) : Prop where
  null : ∀ id stmt, get? id = some stmt → id.isNull = false
  unique : ∀ left right stmt stmt', get? left = some stmt → get? right = some stmt' →
    left.index = right.index → left = right

theorem StmtPool.lawful (pool : StmtPool) : LawfulLookup pool.get? where
  null := fun _ _ => isNull_of_get?
  unique := fun _ _ _ _ => eq_of_get?

theorem LawfulLookup.exists_slot {get? : StmtId → Option Stmt} (lawful : LawfulLookup get?)
    (index : UInt32) : ∃ slot : Slot, ∀ version,
      (if slot.version = version then slot.stmt else none) = get? ⟨index, version⟩ := by
  by_cases live : ∃ version stmt, get? ⟨index, version⟩ = some stmt
  · obtain ⟨version, stmt, kept⟩ := live
    refine ⟨⟨version, some stmt⟩, fun other => ?_⟩
    by_cases same : version = other
    · rw [if_pos same, ← same, kept]
    · rw [if_neg same]
      cases kept' : get? ⟨index, other⟩ with
      | none => rfl
      | some stmt' =>
          have ids_eq := lawful.unique _ _ _ _ kept kept' rfl
          exact absurd (congrArg StmtId.version ids_eq) same
  · refine ⟨⟨0, none⟩, fun other => ?_⟩
    cases kept : get? ⟨index, other⟩ with
    | none => exact ite_self _
    | some stmt => exact absurd ⟨other, stmt, kept⟩ live

theorem StmtPool.get?_ofFn {count : Nat} (slotOf : UInt32 → Slot) {id : StmtId}
    (real : id.isNull = false) (below : id.index.toNat < count) :
    get? { slots := Array.ofFn fun slot : Fin count => slotOf (.ofNat slot) } id =
      if (slotOf id.index).version = id.version then (slotOf id.index).stmt else none := by
  unfold get?
  rw [real, Array.getElem?_ofFn, dif_pos below]
  simp only [UInt32.ofNat_toNat, Bool.false_eq_true, if_false]

/-- The lookups that keep the laws are those of the pools. So what holds for every pool holds for
    every store of statements that keeps them. -/
theorem lawfulLookup_iff {get? : StmtId → Option Stmt} :
    LawfulLookup get? ↔ ∃ pool : StmtPool, pool.get? = get? := by
  constructor
  · intro lawful
    obtain ⟨slotOf, answers⟩ := Classical.axiomOfChoice lawful.exists_slot
    obtain ⟨count, enough⟩ : ∃ count, ∀ index : UInt32, index.toNat < count :=
      ⟨_, UInt32.toNat_lt⟩
    refine ⟨{ slots := Array.ofFn fun slot : Fin count => slotOf (.ofNat slot) }, ?_⟩
    funext id
    cases null : id.isNull with
    | true =>
        rw [StmtPool.get?, if_pos null]
        cases kept : get? id with
        | none => rfl
        | some stmt => simp [lawful.null id stmt kept] at null
    | false =>
        rw [StmtPool.get?_ofFn slotOf null (enough id.index)]
        exact answers id.index id.version
  · rintro ⟨pool, rfl⟩
    exact pool.lawful

/-- A map from statements to blocks. -/
structure BlockMap (M : Type) where
  empty : M
  insert : M → StmtId → BlockId → M
  get? : M → StmtId → Option BlockId

namespace BlockMap

variable {M M' : Type} {map : BlockMap M} {map' : BlockMap M'} {appends : List (StmtId × BlockId)}

/-- The map has a version for the slot of the id that is newer than its own. -/
def Outdates (map : BlockMap M) (m : M) (stmt : StmtId) : Prop :=
  ∃ stored block, map.get? m stored = some block ∧ stored.index = stmt.index ∧
    stmt.olderThan stored = true

/-- The rule of insertion: a null id and an outdated one leave no trace, and any other takes the
    place of what the map has for its slot. -/
structure Lawful (map : BlockMap M) : Prop where
  get?_empty : ∀ stmt, map.get? map.empty stmt = none
  insert_null : ∀ m stmt block, stmt.isNull = true →
    ∀ other, map.get? (map.insert m stmt block) other = map.get? m other
  insert_outdated : ∀ m stmt block, map.Outdates m stmt →
    ∀ other, map.get? (map.insert m stmt block) other = map.get? m other
  insert_new : ∀ m stmt block, stmt.isNull = false → ¬ map.Outdates m stmt →
    ∀ other, map.get? (map.insert m stmt block) other =
      if other = stmt then some block
      else if other.index = stmt.index then none else map.get? m other

/-- The map after some appends, first to last. -/
def ofAppends (map : BlockMap M) (appends : List (StmtId × BlockId)) : M :=
  appends.foldl (fun m entry => map.insert m entry.1 entry.2) map.empty

theorem Lawful.get?_insert_eq (lawful : map.Lawful) (lawful' : map'.Lawful) {m : M} {m' : M'}
    (same : ∀ stmt, map.get? m stmt = map'.get? m' stmt) (new : StmtId) (block : BlockId)
    (stmt : StmtId) :
    map.get? (map.insert m new block) stmt = map'.get? (map'.insert m' new block) stmt := by
  have outdates_iff : map.Outdates m new ↔ map'.Outdates m' new := by
    simp only [Outdates, same]
  cases null : new.isNull with
  | true => rw [lawful.insert_null _ _ _ null, lawful'.insert_null _ _ _ null, same]
  | false =>
      by_cases outdated : map.Outdates m new
      · rw [lawful.insert_outdated _ _ _ outdated,
          lawful'.insert_outdated _ _ _ (outdates_iff.mp outdated), same]
      · rw [lawful.insert_new _ _ _ null outdated,
          lawful'.insert_new _ _ _ null (mt outdates_iff.mpr outdated), same]

theorem Lawful.get?_ofAppends_eq (lawful : map.Lawful) (lawful' : map'.Lawful) (stmt : StmtId) :
    map.get? (map.ofAppends appends) stmt = map'.get? (map'.ofAppends appends) stmt := by
  induction appends using List.reverseRecOn generalizing stmt with
  | nil => exact (lawful.get?_empty stmt).trans (lawful'.get?_empty stmt).symm
  | append_singleton appends entry ih =>
      rw [ofAppends, ofAppends, List.foldl_append, List.foldl_append]
      exact lawful.get?_insert_eq lawful' ih entry.1 entry.2 stmt

end BlockMap

namespace Placement

/-- Placements as a map. -/
def blockMap : BlockMap Placement where
  empty := {}
  insert := insert
  get? := get?

theorem outdates_iff {placement : Placement} {stmt : StmtId} :
    blockMap.Outdates placement stmt ↔
      ∃ entry, placement.current? stmt.index = some entry ∧ stmt.olderThan entry.1 = true := by
  constructor
  · rintro ⟨stored, block, found, same, older⟩
    exact ⟨(stored, block), same ▸ get?_eq_some.mp found, older⟩
  · rintro ⟨entry, current, older⟩
    have same : entry.1.index = stmt.index := by
      simpa using List.find?_some current
    exact ⟨entry.1, entry.2, get?_eq_some.mpr (same.symm ▸ current), same, older⟩

theorem lawful_blockMap : blockMap.Lawful where
  get?_empty := fun _ => rfl
  insert_null := by
    intro placement stmt block null other
    change (placement.insert stmt block).get? other = _
    rw [insert, if_pos null]
    rfl
  insert_outdated := by
    intro placement stmt block outdated other
    obtain ⟨entry, current, older⟩ := outdates_iff.mp outdated
    change (placement.insert stmt block).get? other = placement.get? other
    unfold insert
    split
    · rfl
    · simp only [current, older, if_true]
  insert_new := by
    intro placement stmt block real upToDate other
    change (placement.insert stmt block).get? other =
      if other = stmt then some block
      else if other.index = stmt.index then none else placement.get? other
    by_cases here : other.index = stmt.index
    · have current : (placement.insert stmt block).current? stmt.index = some (stmt, block) := by
        rw [current?_insert_self _ _ real]
        cases found : placement.current? stmt.index with
        | none => rfl
        | some entry =>
            have notOlder : ¬ stmt.olderThan entry.1 = true := fun older =>
              upToDate (outdates_iff.mpr ⟨entry, found, older⟩)
            exact if_neg notOlder
      rw [get?, here, current]
      simp only [eq_comm (a := stmt), if_true]
    · have apart : other ≠ stmt := fun same => here (congrArg StmtId.index same)
      rw [if_neg apart, if_neg here, get?, get?,
        current?_insert_of_ne _ _ fun same => here same.symm]

end Placement

/-- A graph answers as any map would that keeps the rule, after the same appends. -/
theorem Graph.blockOf?_eq {M : Type} {map : BlockMap M} (lawful : map.Lawful) {graph : Graph}
    (recorded : graph.placement = {}) (calls : List Operation) (stmt : StmtId) :
    (graph.calledAll calls).blockOf? stmt =
      map.get? (map.ofAppends (graph.acceptedAppends calls)) stmt := by
  have nothing : graph.placement = .ofAppends [] := recorded
  rw [blockOf?, placement_calledAll nothing]
  exact Placement.lawful_blockMap.get?_ofAppends_eq lawful stmt

/-- A table that gives a symbol for a name and the name for a symbol. -/
structure Interner (T : Type) where
  empty : T
  intern : T → String → Symbol × T
  resolve? : T → Symbol → Option String

namespace Interner

variable {T : Type} {interner : Interner T} {table : T}

/-- A name can be read back from its symbol, also when other names have come. -/
structure Lawful (interner : Interner T) : Prop where
  resolve?_intern : ∀ table name,
    interner.resolve? (interner.intern table name).2 (interner.intern table name).1 = some name
  resolve?_later : ∀ table name symbol known, interner.resolve? table symbol = some known →
    interner.resolve? (interner.intern table name).2 symbol = some known

/-- The symbols of some names, which are added one after the other. -/
def internAll (interner : Interner T) (table : T) : List String → List Symbol × T
  | [] => ([], table)
  | name :: names =>
      let (symbol, next) := interner.intern table name
      let (symbols, last) := interner.internAll next names
      (symbol :: symbols, last)

theorem Lawful.resolve?_kept (lawful : interner.Lawful) (names : List String) {symbol : Symbol}
    {known : String} (resolved : interner.resolve? table symbol = some known) :
    interner.resolve? (interner.internAll table names).2 symbol = some known := by
  induction names generalizing table with
  | nil => exact resolved
  | cons name names ih => exact ih (lawful.resolve?_later table name symbol known resolved)

/-- All names can be read back in the end. -/
theorem Lawful.resolve?_internAll (lawful : interner.Lawful) (table : T) (names : List String) :
    (interner.internAll table names).1.map
      (interner.resolve? (interner.internAll table names).2) = names.map some := by
  induction names generalizing table with
  | nil => rfl
  | cons name names ih =>
      have first := lawful.resolve?_kept names (lawful.resolve?_intern table name)
      exact congrArg₂ List.cons first (ih _)

end Interner

/-- Symbol tables as an interner. -/
def SymbolTable.interner : Interner SymbolTable where
  empty := {}
  intern := intern
  resolve? := resolve?

theorem SymbolTable.lawful_interner : interner.Lawful where
  resolve?_intern := resolve?_intern
  resolve?_later := fun _ _ _ _ => resolve?_intern_of_some

end FlowGraph
