import FlowGraph.Build.Event
import FlowGraph.Error
import FlowGraph.Graph.Basic

/-! # Building

A build may fail and keeps a log, also up to a failure. A walk is a build that
works on a graph and knows the loops it is inside of; both are lost when the walk
fails.
-/

namespace FlowGraph

/-- Why a build gave no graph. -/
inductive Failure where
  /-- The input has no control-flow graph. -/
  | flow (error : FlowError)
  /-- A graph operation was refused. -/
  | fault (fault : GraphFault)
  deriving Repr, DecidableEq

/-- Computations that may fail and keep a log. -/
abbrev BuildM := EStateM Failure Log

/-- The blocks of a loop to which control can jump from inside it. -/
structure LoopFrame where
  header : BlockId
  exit : BlockId
  deriving Repr, DecidableEq

/-- What a walk works on: the graph and the loops around the cursor, innermost first. -/
structure WalkState where
  graph : Graph
  loops : List LoopFrame := []
  deriving Repr, DecidableEq

/-- Builds that work on a graph. -/
abbrev WalkM := StateT WalkState BuildM

namespace BuildM

/-- Adds an event to the log. -/
def record (event : Event) : BuildM Unit := modify (·.push event)

/-- Gives up because of the input. -/
def refuse {α : Type} (error : FlowError) : BuildM α := throw (.flow error)

/-- Passes on the outcome of a graph operation. -/
def ofGraph {α : Type} : Except GraphFault α → BuildM α
  | .ok value => pure value
  | .error fault => throw (.fault fault)

/-- A sequence of two builds succeeds when both do, one after the other. -/
theorem bind_eq_ok {α β : Type} {first : BuildM α} {next : α → BuildM β} {log log' : Log}
    {result : β} :
    (first >>= next) log = .ok result log' ↔
      ∃ value mid, first log = .ok value mid ∧ next value mid = .ok result log' := by
  simp only [bind, EStateM.bind]
  cases first log with
  | error failure mid => simp
  | ok value mid =>
      constructor
      · exact fun h => ⟨value, mid, rfl, h⟩
      · rintro ⟨_, _, h, hn⟩
        cases h
        exact hn

theorem ofGraph_eq_ok {α : Type} {outcome : Except GraphFault α} {log log' : Log} {value : α} :
    ofGraph outcome log = .ok value log' ↔ outcome = .ok value ∧ log = log' := by
  cases outcome with
  | error fault =>
      constructor
      · intro h
        cases h
      · rintro ⟨h, _⟩
        cases h
  | ok result =>
      constructor
      · intro h
        cases h
        exact ⟨rfl, rfl⟩
      · rintro ⟨h, rfl⟩
        cases h
        rfl

/-- The outcome of a build, and its log. -/
def outcome {α : Type} (build : BuildM α) : Except Failure α × Log :=
  match build.run #[] with
  | .ok value log => (.ok value, log)
  | .error failure log => (.error failure, log)

/-- What is read from the outcome of a build that succeeds is read from its result. -/
theorem exists_of_outcome {α β : Type} {build : BuildM α} {reading : α → β} {value : β}
    (read : build.outcome.1.toOption.map reading = some value) :
    ∃ result log, build #[] = .ok result log ∧ reading result = value := by
  rw [outcome, EStateM.run] at read
  cases ran : build #[] with
  | error failure log =>
      rw [ran] at read
      cases read
  | ok result log =>
      rw [ran] at read
      exact ⟨result, log, rfl, Option.some.inj read⟩

end BuildM

namespace WalkM

/-- A sequence of two walks succeeds when both do, the second from where the first ended. -/
theorem bind_eq_ok {α β : Type} {first : WalkM α} {next : α → WalkM β} {state after : WalkState}
    {log log' : Log} {result : β} :
    (first >>= next) state log = .ok (result, after) log' ↔
      ∃ value mid logMid, first state log = .ok (value, mid) logMid ∧
        next value mid logMid = .ok (result, after) log' := by
  change (first state >>= fun pair => next pair.1 pair.2) log = _ ↔ _
  rw [BuildM.bind_eq_ok]
  simp only [Prod.exists]

/-- Gives up because of the input. -/
def refuse {α : Type} (error : FlowError) : WalkM α := fun _ => BuildM.refuse error

/-- Adds an event to the log. -/
def record (event : Event) : WalkM Unit := fun state => do
  BuildM.record event
  return ((), state)

/-- Changes the graph by one of its operations. -/
def change (operation : Graph → Except GraphFault Graph) : WalkM Unit := fun ⟨graph, loops⟩ => do
  let graph ← BuildM.ofGraph (operation graph)
  return ((), ⟨graph, loops⟩)

def create : WalkM BlockId := fun ⟨graph, loops⟩ => do
  let (id, graph) ← BuildM.ofGraph graph.create
  return (id, ⟨graph, loops⟩)

def link (source target : BlockId) : WalkM Unit := change (·.link source target)

def append (id : BlockId) (stmt : StmtId) : WalkM Unit := change (·.append id stmt)

def markTerminal (id : BlockId) : WalkM Unit := change (·.markTerminal id)

def defer (stmt : StmtId) : WalkM Unit := change fun graph => .ok (graph.defer stmt)

def block (id : BlockId) : WalkM Block := fun state => do
  return (← BuildM.ofGraph (state.graph.block id), state)

def innermost : WalkM (Option LoopFrame) := fun state => return (state.loops.head?, state)

def enterLoop (frame : LoopFrame) : WalkM Unit := fun ⟨graph, loops⟩ =>
  return ((), ⟨graph, frame :: loops⟩)

def leaveLoop : WalkM Unit := fun ⟨graph, loops⟩ => return ((), ⟨graph, loops.tail⟩)

end WalkM

end FlowGraph
