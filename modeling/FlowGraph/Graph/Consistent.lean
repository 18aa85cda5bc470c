import FlowGraph.Graph.Basic

/-! # Consistent graphs

In a consistent graph every edge is noted at both of its ends, and once at its source.
`check` goes through the blocks and reports the first thing that is wrong; it finds
nothing exactly in a consistent graph.
-/

namespace FlowGraph.Graph

/-- No block has a successor twice, and successors and predecessors tell the same edges. -/
def Consistent (graph : Graph) : Prop :=
  ∀ block ∈ graph.blocks.toList,
    block.successors.Nodup ∧
      (∀ target ∈ block.successors, block.id ∈ graph.predecessors target) ∧
      (∀ source ∈ block.predecessors, block.id ∈ graph.successors source)

instance (graph : Graph) : Decidable graph.Consistent :=
  inferInstanceAs (Decidable (∀ block ∈ graph.blocks.toList, _))

/-- Looks up an edge, noted at its source, at its target. -/
def checkSuccessor (graph : Graph) (source target : BlockId) : Except GraphFault Unit :=
  match graph.block? target with
  | none => .error (.unknownSuccessor source target)
  | some block =>
      if source ∈ block.predecessors then .ok () else .error (.unnotedPredecessor source target)

/-- Looks up an edge, noted at its target, at its source. -/
def checkPredecessor (graph : Graph) (target source : BlockId) : Except GraphFault Unit :=
  match graph.block? source with
  | none => .error (.unknownPredecessor source target)
  | some block =>
      if target ∈ block.successors then .ok () else .error (.unnotedSuccessor source target)

/-- Checks the edges of one block. -/
def checkBlock (graph : Graph) (block : Block) : Except GraphFault Unit := do
  if block.successors.Nodup then pure ()
  else throw (.repeatedSuccessor block.id block.successors.eraseDups.length
    block.successors.length)
  block.successors.forM (graph.checkSuccessor block.id)
  block.predecessors.forM (graph.checkPredecessor block.id)

/-- Checks the edges of every block, in the order in which the blocks were made. -/
def check (graph : Graph) : Except GraphFault Unit :=
  graph.blocks.toList.forM graph.checkBlock

theorem forM_eq_ok {α : Type} {step : α → Except GraphFault Unit} (items : List α) :
    items.forM step = .ok () ↔ ∀ item ∈ items, step item = .ok () := by
  induction items with
  | nil => simp [List.forM, pure, Except.pure]
  | cons item items ih =>
      rw [List.forall_mem_cons, ← ih]
      change (step item >>= fun _ => items.forM step) = _ ↔ _
      cases step item <;> simp [bind, Except.bind]

theorem checkSuccessor_eq_ok {graph : Graph} {source target : BlockId} :
    graph.checkSuccessor source target = .ok () ↔ source ∈ graph.predecessors target := by
  unfold checkSuccessor predecessors
  cases graph.block? target with
  | none => simp
  | some block => by_cases h : source ∈ block.predecessors <;> simp [h]

theorem checkPredecessor_eq_ok {graph : Graph} {target source : BlockId} :
    graph.checkPredecessor target source = .ok () ↔ target ∈ graph.successors source := by
  unfold checkPredecessor successors
  cases graph.block? source with
  | none => simp
  | some block => by_cases h : target ∈ block.successors <;> simp [h]

theorem checkBlock_eq_ok {graph : Graph} {block : Block} :
    graph.checkBlock block = .ok () ↔
      block.successors.Nodup ∧
        (∀ target ∈ block.successors, block.id ∈ graph.predecessors target) ∧
        (∀ source ∈ block.predecessors, block.id ∈ graph.successors source) := by
  simp only [← checkSuccessor_eq_ok, ← checkPredecessor_eq_ok, ← forM_eq_ok]
  unfold checkBlock
  by_cases h : block.successors.Nodup
  · simp only [h, if_true, true_and]
    change (block.successors.forM _ >>= fun _ => block.predecessors.forM _) = _ ↔ _
    cases block.successors.forM (graph.checkSuccessor block.id) <;> simp [bind, Except.bind]
  · simp [h, bind, throw, throwThe, MonadExceptOf.throw, Except.bind]

/-- The check passes exactly on consistent graphs. -/
theorem check_eq_ok {graph : Graph} : graph.check = .ok () ↔ graph.Consistent := by
  simp only [check, forM_eq_ok, checkBlock_eq_ok, Consistent]

end FlowGraph.Graph
