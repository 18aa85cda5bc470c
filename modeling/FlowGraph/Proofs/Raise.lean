import FlowGraph.Build.Growth
import FlowGraph.Proofs.Building

/-! # Graphs at another place in the numbering

All block ids of a graph raised by the same number. No operation on a graph looks at an
id but to compare it with others and to find its place from the entry on, so what a list
of operations does to a graph it does to the raised graph. A build that begins at a
higher number therefore gives the graph of the build from zero, raised.
-/

namespace FlowGraph

def BlockId.raise (number : Nat) (id : BlockId) : BlockId := ⟨number + id.index⟩

/-- The block with its own id and those at its edges raised. -/
def Block.raise (number : Nat) (block : Block) : Block :=
  { block with
    id := block.id.raise number
    predecessors := block.predecessors.map (·.raise number)
    successors := block.successors.map (·.raise number) }

def Placement.raise (number : Nat) (placement : Placement) : Placement :=
  ⟨placement.entries.map fun entry => (entry.1, entry.2.raise number)⟩

/-- The graph with every block id raised. -/
def Graph.raise (number : Nat) (graph : Graph) : Graph :=
  { graph with
    entry := graph.entry.raise number
    base := number + graph.base
    numbering := ⟨graph.numbering.next.raise number⟩
    blocks := graph.blocks.map (·.raise number)
    placement := graph.placement.raise number }

def LoopFrame.raise (number : Nat) (frame : LoopFrame) : LoopFrame :=
  ⟨frame.header.raise number, frame.exit.raise number⟩

def Operation.raise (number : Nat) : Operation → Operation
  | create => create
  | link source target => link (source.raise number) (target.raise number)
  | append block stmt => append (block.raise number) stmt
  | markTerminal block => markTerminal (block.raise number)
  | defer stmt => defer stmt

variable {number : Nat}

theorem Placement.current?_raise (placement : Placement) (index : UInt32) :
    (placement.raise number).current? index =
      (placement.current? index).map fun entry => (entry.1, entry.2.raise number) := by
  simp only [current?, raise, List.find?_map]
  rfl

theorem Placement.raise_insert (placement : Placement) (stmt : StmtId) (block : BlockId) :
    (placement.insert stmt block).raise number =
      (placement.raise number).insert stmt (block.raise number) := by
  unfold insert
  rw [current?_raise]
  cases placement.current? stmt.index with
  | none => cases stmt.isNull <;> rfl
  | some entry =>
      cases older : stmt.olderThan entry.1 <;> cases stmt.isNull <;> simp [older, raise]

namespace Graph

variable {graph : Graph} {id : BlockId}

theorem size_raise : (graph.raise number).size = graph.size := by
  simp [size, raise]

theorem position?_raise :
    (graph.raise number).position? (id.raise number) = graph.position? id := by
  have base : (graph.raise number).base = number + graph.base := rfl
  simp only [position?, size_raise, base, BlockId.raise, Nat.add_le_add_iff_left,
    Nat.add_sub_add_left]

theorem contains_raise : (graph.raise number).contains (id.raise number) = graph.contains id := by
  rw [contains, position?_raise, contains]

theorem block?_raise : (graph.raise number).block? (id.raise number) =
    (graph.block? id).map (·.raise number) := by
  rw [block?, position?_raise, block?]
  cases graph.position? id <;> simp [raise]

/-- A change of a block that commutes with raising. -/
theorem update_raise {change change' : Block → Block}
    (same : ∀ block : Block, change' (block.raise number) = (change block).raise number) :
    (graph.raise number).update (id.raise number) change' =
      (graph.update id change).raise number := by
  have position : (id.raise number).index - (graph.raise number).base =
      id.index - graph.base := by
    simp only [raise, BlockId.raise, Nat.add_sub_add_left]
  have blocks : (graph.blocks.map (·.raise number)).modify (id.index - graph.base) change' =
      (graph.blocks.modify (id.index - graph.base) change).map (·.raise number) := by
    apply Array.ext
    · simp
    · intro i _ _
      simp only [Array.getElem_modify, Array.getElem_map]
      split
      · exact same _
      · rfl
  rw [update, position]
  simp only [raise, update, blocks]

theorem successors_raise : (graph.raise number).successors (id.raise number) =
    (graph.successors id).map (·.raise number) := by
  rw [successors, block?_raise, successors]
  cases graph.block? id <;> rfl

theorem isTerminal_raise :
    (graph.raise number).isTerminal (id.raise number) = graph.isTerminal id := by
  rw [isTerminal, block?_raise, isTerminal]
  cases graph.block? id <;> rfl

/-- What an operation does to a raised graph, it does to the graph itself. -/
theorem perform_raise {operation : Operation} {result : Graph}
    (h : (graph.raise number).perform (operation.raise number) = .ok result) :
    ∃ after, graph.perform operation = .ok after ∧ result = after.raise number := by
  cases operation with
  | create =>
      cases made : (graph.raise number).create with
      | error fault => simp [perform, Operation.raise, made, Except.map] at h
      | ok pair =>
          simp only [perform, Operation.raise, made, Except.map, Except.ok.injEq] at h
          obtain ⟨room, _, after⟩ := create_eq_ok made
          have room' : number + graph.numbering.next.index + 1 < BlockId.limit := room
          have created : graph.perform .create = .ok graph.grown := by
            rw [perform, create_ok (by omega)]
            rfl
          exact ⟨_, created,
            by simp [← h, after, grown, push, raise, Block.raise, BlockId.raise, Nat.add_assoc]⟩
  | link source target =>
      obtain ⟨knownSource, knownTarget, new, rfl⟩ := link_eq_ok h
      rw [contains_raise] at knownSource knownTarget
      rw [successors_raise] at new
      refine ⟨_, link_ok knownSource knownTarget fun old => new (List.mem_map_of_mem old), ?_⟩
      have forth : ∀ block : Block, (block.raise number).addSuccessor (target.raise number) =
          (block.addSuccessor target).raise number := by
        simp [Block.addSuccessor, Block.raise]
      have back : ∀ block : Block, (block.raise number).addPredecessor (source.raise number) =
          (block.addPredecessor source).raise number := by
        simp [Block.addPredecessor, Block.raise]
      rw [update_raise forth, update_raise back]
  | append block stmt =>
      obtain ⟨known, running, rfl⟩ := append_eq_ok h
      rw [contains_raise] at known
      rw [isTerminal_raise] at running
      refine ⟨_, append_ok known running, ?_⟩
      have placed : (graph.raise number).place stmt (block.raise number) =
          (graph.place stmt block).raise number := by
        simp only [place, raise, Placement.raise_insert]
      rw [placed]
      exact update_raise fun _ => rfl
  | markTerminal block =>
      obtain ⟨known, rfl⟩ := markTerminal_eq_ok h
      rw [contains_raise] at known
      exact ⟨_, markTerminal_ok known, update_raise fun _ => rfl⟩
  | defer stmt =>
      cases h
      exact ⟨_, rfl, rfl⟩

theorem performAll_raise {operations : List Operation} {result : Graph}
    (h : (graph.raise number).performAll (operations.map (·.raise number)) = .ok result) :
    ∃ after, graph.performAll operations = .ok after ∧ result = after.raise number := by
  induction operations generalizing graph with
  | nil =>
      cases h
      exact ⟨graph, rfl, rfl⟩
  | cons operation operations ih =>
      obtain ⟨mid, first, rest⟩ := performAll_cons_eq_ok.mp h
      obtain ⟨after, performed, rfl⟩ := perform_raise first
      obtain ⟨final, performedAll, rfl⟩ := ih rest
      exact ⟨final, performAll_cons_eq_ok.mpr ⟨after, performed, performedAll⟩, rfl⟩

theorem raise_zero (graph : Graph) : graph.raise 0 = graph := by
  have same : ∀ id : BlockId, id.raise 0 = id := fun id => by simp [BlockId.raise]
  have blocks : ∀ block : Block, block.raise 0 = block := fun block => by
    simp [Block.raise, same]
  simp [raise, Placement.raise, same, blocks]

theorem blank_raise (number : Nat) : (blank ⟨0⟩).raise number = blank ⟨number⟩ := by
  simp [blank, raise, Block.raise, BlockId.raise, Placement.raise, Nat.add_comm number]

/-- Operations leave a number for the next block. -/
theorem next_lt_of_perform {after : Graph} {operation : Operation}
    (below : graph.numbering.next.index < BlockId.limit)
    (h : graph.perform operation = .ok after) :
    after.numbering.next.index < BlockId.limit := by
  have next := (history_perform h).numbering
  cases operation with
  | create =>
      cases made : graph.create with
      | error fault => simp [perform, made, Except.map] at h
      | ok pair =>
          have room := (create_eq_ok made).1
          simp only [List.countP_singleton, Operation.isCreate, if_true] at next
          omega
  | link | append | markTerminal | defer =>
      simp only [List.countP_singleton, Operation.isCreate, Bool.false_eq_true, if_false] at next
      omega

theorem next_lt_of_performAll {after : Graph} {operations : List Operation}
    (below : graph.numbering.next.index < BlockId.limit)
    (h : graph.performAll operations = .ok after) :
    after.numbering.next.index < BlockId.limit := by
  induction operations generalizing graph with
  | nil =>
      cases h
      exact below
  | cons operation operations ih =>
      obtain ⟨mid, first, rest⟩ := performAll_cons_eq_ok.mp h
      exact ih (next_lt_of_perform below first) rest

end Graph

namespace Flow

theorem finish_raise (flow : Flow) (cursor : BlockId) (next : Nat) :
    flow.finish (cursor.raise number) (number + next) =
      (flow.finish cursor next).raise number := by
  have block : ∀ index : Nat, (⟨number + index⟩ : BlockId) = BlockId.raise number ⟨index⟩ :=
    fun _ => rfl
  induction flow generalizing cursor next with
  | done => rfl
  | step id deferred rest ih => exact ih cursor next
  | branch id body orelse rest _ _ ih => simp only [finish, Nat.add_assoc, block, ih]
  | loop id body rest _ ih => simp only [finish, Nat.add_assoc, block, ih]
  | jump kind id rest ih => simp only [finish, Nat.add_assoc, block, ih]

theorem leave_raise (kind : Jump) (cursor : BlockId) (frame : Option LoopFrame) :
    kind.leave (cursor.raise number) (frame.map (·.raise number)) =
      (kind.leave cursor frame).map (·.raise number) := by
  cases kind <;> cases frame <;> rfl

/-- A flow is laid out in the same way at every place in the numbering. -/
theorem script_raise (flow : Flow) (cursor : BlockId) (next : Nat) (frame : Option LoopFrame) :
    flow.script (cursor.raise number) (number + next) (frame.map (·.raise number)) =
      (flow.script cursor next frame).map (·.raise number) := by
  have block : ∀ index : Nat, (⟨number + index⟩ : BlockId) = BlockId.raise number ⟨index⟩ :=
    fun _ => rfl
  induction flow generalizing cursor next frame with
  | done => rfl
  | step id deferred rest ih =>
      simp only [script, ih]
      cases deferred <;> rfl
  | branch id body orelse rest ihBody ihOrelse ih =>
      simp only [script, fork, Nat.add_assoc, block, ihBody, ihOrelse, ih, finish_raise]
      simp [Operation.raise]
  | loop id body rest ihBody ih =>
      -- the loop is the innermost one of its own body
      have inner : some ⟨cursor.raise number, BlockId.raise number ⟨next + 1⟩⟩ =
          (some (⟨cursor, ⟨next + 1⟩⟩ : LoopFrame)).map (·.raise number) := rfl
      simp only [script, fork, Nat.add_assoc, block, inner, ihBody, ih, finish_raise]
      simp [Operation.raise]
  | jump kind id rest ih =>
      simp only [script, Nat.add_assoc, block, ih, leave_raise]
      simp [Operation.raise]

end Flow

namespace Context

variable {context : Context} {start : Numbering} {body : List StmtId} {log log' : Log}
  {graph : Graph} {last : BlockId}

/-- The graph of a build that began at a higher number is a raised one. -/
theorem Built.raised (built : context.Built start body last graph) :
    ∃ alone, (Graph.blank ⟨0⟩).performAll ((context.bodyFlow body).script ⟨0⟩ 1 none) = .ok alone ∧
      graph = alone.raise start.next.index := by
  apply Graph.performAll_raise
  rw [Graph.blank_raise, ← Flow.script_raise]
  exact built.laid

theorem next_lt_of_built (built : context.Built start body last graph)
    (room : start.next.index + 1 < BlockId.limit) :
    start.next.index + 1 + (context.bodyFlow body).width < BlockId.limit := by
  have below := Graph.next_lt_of_performAll room built.laid
  rw [(Graph.history_performAll built.laid).numbering, Flow.countP_isCreate_script] at below
  exact below

/-- A build that went through gives the graph of the build from zero, raised, whatever was
    logged before. -/
theorem build_raised (success : context.build start body log = .ok graph log') (other : Log) :
    ∃ alone log₁, context.build {} body other = .ok alone log₁ ∧
      graph = alone.raise start.next.index := by
  obtain ⟨last, _, built⟩ := built_of_build success
  have room := next_lt_of_built built (next_lt_of_build success).1
  obtain ⟨alone, log₁, fromZero⟩ : ∃ alone log₁, context.build {} body other = .ok alone log₁ :=
    build_succeeds built.clean (by simp only; omega) other
  obtain ⟨_, _, builtAlone⟩ := built_of_build fromZero
  obtain ⟨same, laid, graph_eq⟩ := built.raised
  obtain rfl : alone = same := Except.ok.inj (builtAlone.laid.symm.trans laid)
  exact ⟨alone, log₁, fromZero, graph_eq⟩

end Context

end FlowGraph
