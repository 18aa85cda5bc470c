import FlowGraph.Block.Basic
import FlowGraph.Block.Numbering
import FlowGraph.Graph.Placement

/-! # Control-flow graphs

A graph is a table of blocks, which are found by the distance of their number from that of
the first one. Blocks refer to each other by id only. Every operation checks its contract
first; when it reports a fault, no graph is given back and the caller still has the one it
started from.
-/

namespace FlowGraph

/-- The blocks of one statement sequence. -/
structure Graph where
  entry : BlockId
  /-- The number of the first block of the table. -/
  base : Nat
  blocks : Array Block
  /-- The numbering from which the next block takes its id. -/
  numbering : Numbering
  placement : Placement := {}
  /-- Definitions left as leaves, in the order in which they were met. -/
  deferred : List StmtId := []
  deriving Repr, DecidableEq

namespace Graph

def size (graph : Graph) : Nat := graph.blocks.size

/-- A graph that has no block yet. -/
def bare (start : Numbering) : Graph :=
  { entry := start.next, base := start.next.index, blocks := #[], numbering := start }

def push (graph : Graph) (block : Block) : Graph :=
  { graph with blocks := graph.blocks.push block }

/-- Adds a block with the next id of the numbering. -/
def create (graph : Graph) : Except GraphFault (BlockId × Graph) :=
  graph.numbering.fresh.map fun (id, numbering) => (id, { graph with numbering }.push { id })

/-- The graph with one more block, which has taken the next id of the numbering. -/
def grown (graph : Graph) : Graph :=
  { graph with numbering := ⟨⟨graph.numbering.next.index + 1⟩⟩ }.push { id := graph.numbering.next }

/-- The graph that has only its entry block. -/
def new (start : Numbering) : Except GraphFault Graph :=
  (bare start).create.map fun (entry, graph) => { graph with entry }

def position? (graph : Graph) (id : BlockId) : Option Nat :=
  if graph.base ≤ id.index ∧ id.index - graph.base < graph.size then some (id.index - graph.base)
  else none

def block? (graph : Graph) (id : BlockId) : Option Block :=
  (graph.position? id).bind fun position => graph.blocks[position]?

def contains (graph : Graph) (id : BlockId) : Bool := (graph.position? id).isSome

/-- The block with the given id, which has to be there. -/
def block (graph : Graph) (id : BlockId) : Except GraphFault Block :=
  match graph.block? id with
  | some block => .ok block
  | none => .error (.unknownBlock id)

/-- The edges out of a block, none for an unknown one. -/
def successors (graph : Graph) (id : BlockId) : List BlockId :=
  match graph.block? id with
  | some block => block.successors
  | none => []

/-- The edges into a block, none for an unknown one. -/
def predecessors (graph : Graph) (id : BlockId) : List BlockId :=
  match graph.block? id with
  | some block => block.predecessors
  | none => []

def blockOf? (graph : Graph) (stmt : StmtId) : Option BlockId := graph.placement.get? stmt

/-- The ids of the blocks, in the order in which they were made. -/
def ids (graph : Graph) : List BlockId := graph.blocks.toList.map (·.id)

/-- All edges, by source block and then in the order in which they were linked. -/
def edges (graph : Graph) : List (BlockId × BlockId) :=
  graph.blocks.toList.flatMap fun block => block.successors.map fun target => (block.id, target)

def edgeCount (graph : Graph) : Nat :=
  graph.blocks.toList.foldr (fun block count => block.successors.length + count) 0

def update (graph : Graph) (id : BlockId) (change : Block → Block) : Graph :=
  { graph with blocks := graph.blocks.modify (id.index - graph.base) change }

/-- Notes the block to which a statement belongs. -/
def place (graph : Graph) (stmt : StmtId) (id : BlockId) : Graph :=
  { graph with placement := graph.placement.insert stmt id }

/-- Adds an edge and notes it at both of its ends. -/
def link (graph : Graph) (source target : BlockId) : Except GraphFault Graph :=
  if graph.contains target then
    match graph.block? source with
    | none => .error (.unknownBlock source)
    | some block =>
        if target ∈ block.successors then .error (.duplicateEdge source target)
        else .ok ((graph.update source (·.addSuccessor target)).update target
          (·.addPredecessor source))
  else .error (.unknownBlock target)

/-- Appends a statement to a block that is not terminal. -/
def append (graph : Graph) (id : BlockId) (stmt : StmtId) : Except GraphFault Graph :=
  match graph.block? id with
  | none => .error (.unknownBlock id)
  | some block =>
      if block.terminal then .error (.terminalBlock id)
      else .ok ((graph.place stmt id).update id (·.addStatement stmt))

/-- Marks a block as one after which nothing runs. -/
def markTerminal (graph : Graph) (id : BlockId) : Except GraphFault Graph :=
  if graph.contains id then .ok (graph.update id Block.markTerminal)
  else .error (.unknownBlock id)

/-- Notes a definition whose body has a graph of its own. -/
def defer (graph : Graph) (stmt : StmtId) : Graph :=
  { graph with deferred := graph.deferred ++ [stmt] }

theorem create_eq_ok {graph after : Graph} {id : BlockId} (h : graph.create = .ok (id, after)) :
    graph.numbering.next.index + 1 < BlockId.limit ∧ id = graph.numbering.next ∧
      after = graph.grown := by
  unfold create at h
  cases hf : graph.numbering.fresh with
  | error fault => simp [hf, Except.map] at h
  | ok result =>
      obtain ⟨room, rfl⟩ := Numbering.fresh_eq_ok_iff.mp hf
      simp only [hf, Except.map, Except.ok.injEq, Prod.mk.injEq] at h
      exact ⟨room, h.1.symm, h.2.symm⟩

theorem create_eq_error {graph : Graph} {fault : GraphFault} (h : graph.create = .error fault) :
    BlockId.limit ≤ graph.numbering.next.index + 1 ∧
      fault = .idsExhausted graph.numbering.next := by
  unfold create Numbering.fresh at h
  split at h
  · cases h
  · rename_i full
    cases h
    exact ⟨Nat.le_of_not_lt full, rfl⟩

theorem create_ok {graph : Graph} (room : graph.numbering.next.index + 1 < BlockId.limit) :
    graph.create = .ok (graph.numbering.next, graph.grown) := by
  rw [create, Numbering.fresh_eq_ok_iff.mpr ⟨room, rfl⟩]
  rfl

theorem new_eq_grown {start : Numbering} {graph : Graph} (h : new start = .ok graph) :
    start.next.index + 1 < BlockId.limit ∧ graph = (bare start).grown := by
  unfold new at h
  cases made : (bare start).create with
  | error fault =>
      rw [made] at h
      cases h
  | ok result =>
      obtain ⟨entry, after⟩ := result
      obtain ⟨room, rfl, rfl⟩ := create_eq_ok made
      rw [made] at h
      cases h
      exact ⟨room, rfl⟩

theorem new_eq_error {start : Numbering} {fault : GraphFault} (h : new start = .error fault) :
    BlockId.limit ≤ start.next.index + 1 ∧ fault = .idsExhausted start.next := by
  unfold new at h
  cases made : (bare start).create with
  | error fault =>
      rw [made] at h
      cases h
      exact create_eq_error made
  | ok result =>
      rw [made] at h
      cases h

end Graph

end FlowGraph
