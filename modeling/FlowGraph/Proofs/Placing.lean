import FlowGraph.Proofs.Building

/-! # Where the statements are

When no statement is visited twice, the placement of a built graph and the statement
lists of its blocks say the same: a statement is placed in the one block that lists it.
-/

namespace FlowGraph

def Operation.appended : Operation → List StmtId
  | append _ stmt => [stmt]
  | _ => []

theorem Operation.mem_appended {operation : Operation} {id : BlockId} {stmt : StmtId}
    (h : stmt ∈ operation.statements id) : stmt ∈ operation.appended := by
  cases operation with
  | append block other =>
      simp only [statements, appended] at h ⊢
      split at h
      · exact h
      · cases h
  | create | link | markTerminal | defer => cases h

theorem Placement.get?_of_current? {placement : Placement} {index : UInt32} {stmt : StmtId}
    {block : BlockId} (h : placement.current? index = some (stmt, block)) :
    stmt.index = index ∧ placement.get? stmt = some block := by
  have same : stmt.index = index := by simpa using List.find?_some h
  refine ⟨same, ?_⟩
  simp [get?, same, h]

namespace Graph

/-- Statements are placed in the blocks that list them, and listed once. -/
structure Placed (graph : Graph) : Prop where
  blockOf?_iff : ∀ stmt id, graph.blockOf? stmt = some id ↔ stmt ∈ graph.statements id
  nodup : ∀ id, (graph.statements id).Nodup

namespace Placed

theorem unique {graph : Graph} (placed : graph.Placed) {stmt : StmtId} {left right : BlockId}
    (hl : stmt ∈ graph.statements left) (hr : stmt ∈ graph.statements right) : left = right :=
  Option.some.inj (((placed.blockOf?_iff stmt left).mpr hl).symm.trans
    ((placed.blockOf?_iff stmt right).mpr hr))

theorem append {graph after : Graph} {block : BlockId} {stmt : StmtId} (placed : graph.Placed)
    (real : stmt.isNull = false)
    (fresh : ∀ id, ∀ other ∈ graph.statements id, other.index ≠ stmt.index)
    (h : graph.append block stmt = .ok after) : after.Placed := by
  have history := History.append h
  have statements : ∀ id, after.statements id =
      graph.statements id ++ if block = id then [stmt] else [] := by
    intro id
    rw [history.statements]
    simp [Operation.statements]
  have placement : after.placement = graph.placement.insert stmt block := history.placement
  have vacant : graph.placement.current? stmt.index = none := by
    cases found : graph.placement.current? stmt.index with
    | none => rfl
    | some entry =>
        obtain ⟨same, kept⟩ := Placement.get?_of_current? found
        exact absurd same (fresh entry.2 entry.1 ((placed.blockOf?_iff _ _).mp kept))
  constructor
  · intro other id
    rw [statements, List.mem_append, ← placed.blockOf?_iff]
    unfold blockOf? Placement.get?
    rw [placement]
    by_cases same : stmt.index = other.index
    · have inserted : (graph.placement.insert stmt block).current? other.index =
          some (stmt, block) := by
        simp only [Placement.insert, real, vacant, Bool.false_eq_true, if_false]
        simp [Placement.current?, same]
      rw [inserted, ← same, vacant]
      by_cases equal : stmt = other <;> by_cases here : block = id <;>
        simp [equal, here, eq_comm (a := other)]
    · have different : other ≠ stmt := fun equal => same (equal ▸ rfl)
      rw [Placement.current?_insert_of_ne _ _ same]
      by_cases here : block = id <;> simp [here, different]
  · intro id
    rw [statements]
    split
    · refine List.nodup_append.mpr ⟨placed.nodup id, by simp, ?_⟩
      rintro other member _ (_ | ⟨_, ⟨⟩⟩) rfl
      exact fresh id other member rfl
    · simpa using placed.nodup id

/-- An operation that appends nothing, or a statement of a new index, keeps the placement
    in order. -/
theorem perform {graph after : Graph} {operation : Operation} (placed : graph.Placed)
    (new : ∀ stmt ∈ operation.appended, stmt.isNull = false ∧
      ∀ id, ∀ other ∈ graph.statements id, other.index ≠ stmt.index)
    (h : graph.perform operation = .ok after) : after.Placed := by
  have history := history_perform h
  cases operation with
  | append block stmt =>
      have fresh := new stmt List.mem_cons_self
      exact placed.append fresh.1 fresh.2 h
  | create | link | markTerminal | defer =>
      have same : after.placement = graph.placement := history.placement
      have statements : ∀ id, after.statements id = graph.statements id := by
        intro id
        rw [history.statements]
        simp [Operation.statements]
      constructor
      · intro stmt id
        rw [blockOf?, same, statements]
        exact placed.blockOf?_iff stmt id
      · intro id
        rw [statements]
        exact placed.nodup id

theorem performAll {graph after : Graph} {operations : List Operation} (placed : graph.Placed)
    (real : ∀ stmt ∈ operations.flatMap Operation.appended, stmt.isNull = false)
    (apart : (operations.flatMap Operation.appended).Pairwise fun left right =>
      left.index ≠ right.index)
    (fresh : ∀ stmt ∈ operations.flatMap Operation.appended,
      ∀ id, ∀ other ∈ graph.statements id, other.index ≠ stmt.index)
    (h : graph.performAll operations = .ok after) : after.Placed := by
  induction operations generalizing graph with
  | nil =>
      cases h
      exact placed
  | cons operation operations ih =>
      obtain ⟨mid, first, rest⟩ := performAll_cons_eq_ok.mp h
      rw [List.flatMap_cons] at real apart fresh
      obtain ⟨_, apartRest, apartFirst⟩ := List.pairwise_append.mp apart
      refine ih (placed.perform ?_ first) ?_ apartRest ?_ rest
      · intro stmt member
        exact ⟨real stmt (List.mem_append_left _ member),
          fresh stmt (List.mem_append_left _ member)⟩
      · exact fun stmt member => real stmt (List.mem_append_right _ member)
      · intro stmt member id other listed
        rw [(history_perform first).statements, List.mem_append] at listed
        rcases listed with old | new
        · exact fresh stmt (List.mem_append_right _ member) id other old
        · exact apartFirst other (Operation.mem_appended (by simpa using new)) stmt member

end Placed

theorem placed_blank (entry : BlockId) : (blank entry).Placed := by
  constructor
  · intro stmt id
    rw [statements_blank]
    simp [blockOf?, blank, Placement.get?, Placement.current?]
  · intro id
    rw [statements_blank]
    exact List.nodup_nil

end Graph

/-- A script appends the statements of its flow, in their order. -/
theorem Flow.appended_script (flow : Flow) (cursor : BlockId) (next : Nat)
    (frame : Option LoopFrame) :
    (flow.script cursor next frame).flatMap Operation.appended = flow.stmts := by
  induction flow generalizing cursor next frame with
  | done => rfl
  | step id deferred rest ih => cases deferred <;> simp [script, stmts, Operation.appended, ih]
  | branch id body orelse rest ihBody ihOrelse ihRest =>
      simp [script, fork, stmts, Operation.appended, ihBody, ihOrelse, ihRest]
  | loop id body rest ihBody ihRest =>
      simp [script, fork, stmts, Operation.appended, ihBody, ihRest]
  | jump kind id rest ih =>
      have leave : (kind.leave cursor frame).flatMap Operation.appended = [] := by
        cases kind <;> cases frame <;> rfl
      simp [script, stmts, Operation.appended, leave, ih]

namespace Context

theorem kept_of_reads {context : Context} {inLoop : Bool} {ids : List StmtId} {flow : Flow}
    (reads : context.Reads inLoop ids flow) {id : StmtId} (member : id ∈ flow.stmts) :
    ∃ stmt, context.pool.get? id = some stmt := by
  induction reads with
  | done => cases member
  | plain treats _ ih | deferred treats _ ih | returns treats _ ih | breaks treats _ ih
  | continues treats _ ih =>
      rcases List.mem_cons.mp member with rfl | member
      · exact ⟨_, treats.kept⟩
      · exact ih member
  | branch treats _ _ _ ihBody ihOrelse ihRest =>
      simp only [Flow.stmts, List.mem_cons, List.mem_append] at member
      rcases member with rfl | (member | member) | member
      · exact ⟨_, treats.kept⟩
      · exact ihBody member
      · exact ihOrelse member
      · exact ihRest member
  | loop treats _ _ ihBody ihRest =>
      simp only [Flow.stmts, List.mem_cons, List.mem_append] at member
      rcases member with rfl | member | member
      · exact ⟨_, treats.kept⟩
      · exact ihBody member
      · exact ihRest member

variable {context : Context} {start : Numbering} {body : List StmtId} {last : BlockId}
  {graph : Graph}

theorem Built.stmts_eq (built : context.Built start body last graph) :
    context.visited body = (context.bodyFlow body).stmts :=
  (reads_of_faultless built.clean).2

theorem Built.listed (built : context.Built start body last graph) {stmt : StmtId}
    (visited : stmt ∈ context.visited body) : ∃ id, stmt ∈ graph.statements id := by
  have history := Graph.history_performAll built.laid
  rw [built.stmts_eq, ← Flow.appended_script _ start.next (start.next.index + 1) none,
    List.mem_flatMap] at visited
  obtain ⟨operation, member, appended⟩ := visited
  cases operation with
  | append id other =>
      obtain rfl : stmt = other := by simpa [Operation.appended] using appended
      refine ⟨id, ?_⟩
      rw [history.statements]
      have here : stmt ∈ (Operation.append id stmt).statements id := by simp [Operation.statements]
      exact List.mem_append_right _ (List.mem_flatMap.mpr ⟨_, member, here⟩)
  | create | link | markTerminal | defer => cases appended

/-- When no statement is visited twice, each is placed where it is listed. -/
theorem Built.placed (built : context.Built start body last graph)
    (once : (context.visited body).Nodup) : graph.Placed := by
  have reads := built.reads
  refine (Graph.placed_blank start.next).performAll ?_ ?_ ?_ built.laid <;>
    rw [Flow.appended_script]
  · intro stmt member
    obtain ⟨_, kept⟩ := kept_of_reads reads member
    exact StmtPool.isNull_of_get? kept
  · rw [built.stmts_eq] at once
    refine List.Pairwise.imp_of_mem ?_ once
    intro left right hl hr different same
    obtain ⟨_, keptLeft⟩ := kept_of_reads reads hl
    obtain ⟨_, keptRight⟩ := kept_of_reads reads hr
    exact different (StmtPool.eq_of_get? keptLeft keptRight same)
  · simp [Graph.statements_blank]

end Context

end FlowGraph
