import FlowGraph.Graph.Consistent

/-! # Histories of graphs

The operations that change a graph, as data, and what a graph looks like after a
list of them: every block is the sum of what the operations say about it. The edges
stay noted at both ends whatever is performed, so consistency needs no more than
that each operation went through.
-/

namespace FlowGraph

/-- One change of a graph. -/
inductive Operation where
  | create
  | link (source target : BlockId)
  | append (block : BlockId) (stmt : StmtId)
  | markTerminal (block : BlockId)
  | defer (stmt : StmtId)
  deriving Repr, DecidableEq

namespace Operation

def isCreate : Operation → Bool
  | create => true
  | _ => false

/-- The edges that an operation adds out of a block. -/
def targets (id : BlockId) : Operation → List BlockId
  | link source target => if source = id then [target] else []
  | _ => []

def sources (id : BlockId) : Operation → List BlockId
  | link source target => if target = id then [source] else []
  | _ => []

def statements (id : BlockId) : Operation → List StmtId
  | append block stmt => if block = id then [stmt] else []
  | _ => []

def terminates (id : BlockId) : Operation → Bool
  | markTerminal block => block = id
  | _ => false

def deferrals : Operation → List StmtId
  | defer stmt => [stmt]
  | _ => []

/-- A block after an operation, as far as the operation is about the given id. -/
def act (operation : Operation) (id : BlockId) (block : Block) : Block :=
  { block with
    statements := block.statements ++ operation.statements id
    predecessors := block.predecessors ++ operation.sources id
    successors := block.successors ++ operation.targets id
    terminal := block.terminal || operation.terminates id }

def place (placement : Placement) : Operation → Placement
  | append block stmt => placement.insert stmt block
  | _ => placement

end Operation

namespace Graph

def statements (graph : Graph) (id : BlockId) : List StmtId :=
  match graph.block? id with
  | some block => block.statements
  | none => []

def isTerminal (graph : Graph) (id : BlockId) : Bool :=
  match graph.block? id with
  | some block => block.terminal
  | none => false

def perform (graph : Graph) : Operation → Except GraphFault Graph
  | .create => graph.create.map (·.2)
  | .link source target => graph.link source target
  | .append block stmt => graph.append block stmt
  | .markTerminal block => graph.markTerminal block
  | .defer stmt => .ok (graph.defer stmt)

/-- The graph after a list of operations, first to last. -/
def performAll (graph : Graph) (operations : List Operation) : Except GraphFault Graph :=
  operations.foldlM perform graph

/-- The number behind that of the last block of the table. -/
def next (graph : Graph) : Nat := graph.base + graph.size

theorem contains_iff {graph : Graph} {id : BlockId} :
    graph.contains id = true ↔ graph.base ≤ id.index ∧ id.index < graph.next := by
  simp only [contains, position?, next]
  split
  · simp only [Option.isSome_some, true_iff]
    omega
  · simp only [Option.isSome_none, Bool.false_eq_true, false_iff]
    omega

theorem block?_isSome {graph : Graph} {id : BlockId} :
    (graph.block? id).isSome = graph.contains id := by
  unfold block? contains position? size
  split
  · rename_i h
    simp [h.2]
  · rfl

theorem block?_eq_none {graph : Graph} {id : BlockId} (h : graph.contains id = false) :
    graph.block? id = none := by
  rw [← Option.not_isSome_iff_eq_none, block?_isSome, h]
  exact Bool.false_ne_true

theorem successors_eq_nil {graph : Graph} {id : BlockId} (h : graph.contains id = false) :
    graph.successors id = [] := by
  simp [successors, block?_eq_none h]

theorem isTerminal_eq_false {graph : Graph} {id : BlockId} (h : graph.contains id = false) :
    graph.isTerminal id = false := by
  simp [isTerminal, block?_eq_none h]

theorem contains_of_block? {graph : Graph} {id : BlockId} {block : Block}
    (h : graph.block? id = some block) : graph.contains id = true := by
  rw [← block?_isSome, h]
  rfl

theorem mem_blocks_of_block? {graph : Graph} {id : BlockId} {block : Block}
    (h : graph.block? id = some block) : block ∈ graph.blocks.toList := by
  obtain ⟨position, _, found⟩ := Option.bind_eq_some_iff.mp h
  exact Array.mem_toList_iff.mpr (Array.mem_of_getElem? found)

theorem contains_of_mem_predecessors {graph : Graph} {source target : BlockId}
    (h : source ∈ graph.predecessors target) : graph.contains target = true := by
  cases hb : graph.block? target with
  | none => simp [predecessors, hb] at h
  | some block => exact contains_of_block? hb

theorem contains_of_mem_statements {graph : Graph} {id : BlockId} {stmt : StmtId}
    (h : stmt ∈ graph.statements id) : graph.contains id = true := by
  cases hb : graph.block? id with
  | none => simp [statements, hb] at h
  | some block => exact contains_of_block? hb

/-- A change of one block is seen at that block only. -/
theorem block?_update {graph : Graph} {id : BlockId} (known : graph.contains id = true)
    (change : Block → Block) (other : BlockId) :
    (graph.update id change).block? other =
      (graph.block? other).map fun block => if other = id then change block else block := by
  have above : graph.base ≤ id.index := (contains_iff.mp known).1
  unfold block? position? update size
  simp only [Array.size_modify]
  split
  · rename_i inside
    simp only [Option.bind_some, Array.getElem?_modify, Array.getElem?_eq_getElem inside.2,
      Option.map_some]
    by_cases same : other = id
    · simp [same]
    · have apart : id.index - graph.base ≠ other.index - graph.base := by
        intro equal
        apply same
        cases other
        cases id
        simp only [BlockId.mk.injEq] at *
        omega
      simp [same, apart]
  · rfl

theorem block?_push (graph : Graph) (block : Block) (other : BlockId) :
    (graph.push block).block? other =
      if other = ⟨graph.next⟩ then some block else graph.block? other := by
  unfold push block? position? next size
  simp only [Array.size_push]
  by_cases same : other = ⟨graph.base + graph.blocks.size⟩
  · simp [same]
  · have apart : other.index ≠ graph.base + graph.blocks.size :=
      fun equal => same (by cases other; simp_all)
    by_cases inside : graph.base ≤ other.index ∧ other.index - graph.base < graph.blocks.size
    · have inPush : graph.base ≤ other.index ∧
          other.index - graph.base < graph.blocks.size + 1 := by omega
      simp [same, inside, inPush, Array.getElem?_push, Nat.ne_of_lt inside.2]
    · have outside : ¬ (graph.base ≤ other.index ∧
          other.index - graph.base < graph.blocks.size + 1) := by omega
      rw [if_neg outside, if_neg inside, if_neg same]
      rfl

theorem link_eq_ok {graph after : Graph} {source target : BlockId}
    (h : graph.link source target = .ok after) :
    graph.contains source = true ∧ graph.contains target = true ∧
      target ∉ graph.successors source ∧
      after = (graph.update source (·.addSuccessor target)).update target
        (·.addPredecessor source) := by
  unfold link at h
  split at h
  · rename_i known
    cases hb : graph.block? source with
    | none => simp [hb] at h
    | some block =>
        simp only [hb] at h
        split at h
        · cases h
        · rename_i new
          cases h
          exact ⟨contains_of_block? hb, known, by simpa [successors, hb] using new, rfl⟩
  · cases h

theorem append_eq_ok {graph after : Graph} {id : BlockId} {stmt : StmtId}
    (h : graph.append id stmt = .ok after) :
    graph.contains id = true ∧ graph.isTerminal id = false ∧
      after = (graph.place stmt id).update id (·.addStatement stmt) := by
  unfold append at h
  cases hb : graph.block? id with
  | none => simp [hb] at h
  | some block =>
      simp only [hb] at h
      split at h
      · cases h
      · rename_i running
        cases h
        exact ⟨contains_of_block? hb, by simpa [isTerminal, hb] using running, rfl⟩

theorem markTerminal_eq_ok {graph after : Graph} {id : BlockId}
    (h : graph.markTerminal id = .ok after) :
    graph.contains id = true ∧ after = graph.update id Block.markTerminal := by
  unfold markTerminal at h
  split at h
  · rename_i known
    cases h
    exact ⟨known, rfl⟩
  · cases h

theorem link_ok {graph : Graph} {source target : BlockId}
    (knownSource : graph.contains source = true) (knownTarget : graph.contains target = true)
    (new : target ∉ graph.successors source) :
    graph.link source target =
      .ok ((graph.update source (·.addSuccessor target)).update target
        (·.addPredecessor source)) := by
  obtain ⟨block, here⟩ := Option.isSome_iff_exists.mp (block?_isSome.trans knownSource)
  have absent : target ∉ block.successors := by simpa [successors, here] using new
  simp [link, here, knownTarget, absent]

theorem append_ok {graph : Graph} {id : BlockId} {stmt : StmtId}
    (known : graph.contains id = true) (running : graph.isTerminal id = false) :
    graph.append id stmt = .ok ((graph.place stmt id).update id (·.addStatement stmt)) := by
  obtain ⟨block, here⟩ := Option.isSome_iff_exists.mp (block?_isSome.trans known)
  have unmarked : block.terminal = false := by simpa [isTerminal, here] using running
  simp [append, here, unmarked]

theorem markTerminal_ok {graph : Graph} {id : BlockId} (known : graph.contains id = true) :
    graph.markTerminal id = .ok (graph.update id Block.markTerminal) := by
  simp [markTerminal, known]

/-- Every block is kept under its own id, the table begins with the entry, and the numbering
    goes on behind the table. -/
structure Numbered (graph : Graph) : Prop where
  id_eq : ∀ id block, graph.block? id = some block → block.id = id
  base_eq : graph.base = graph.entry.index
  next_eq : graph.numbering.next = ⟨graph.next⟩

theorem Numbered.numbering_eq {graph : Graph} (numbered : graph.Numbered) :
    graph.numbering.next = ⟨graph.entry.index + graph.size⟩ := by
  rw [numbered.next_eq, next, numbered.base_eq]

theorem Numbered.block?_id {graph : Graph} (numbered : graph.Numbered) {block : Block}
    (member : block ∈ graph.blocks.toList) : graph.block? block.id = some block := by
  obtain ⟨position, inside, rfl⟩ := List.getElem_of_mem member
  rw [Array.length_toList] at inside
  have here : graph.block? ⟨graph.base + position⟩ = some graph.blocks.toList[position] := by
    simp [block?, position?, size, inside]
  rw [numbered.id_eq _ _ here, here]

theorem Numbered.successors_eq {graph : Graph} (numbered : graph.Numbered) {block : Block}
    (member : block ∈ graph.blocks.toList) : graph.successors block.id = block.successors := by
  rw [successors, numbered.block?_id member]

theorem Numbered.predecessors_eq {graph : Graph} (numbered : graph.Numbered) {block : Block}
    (member : block ∈ graph.blocks.toList) : graph.predecessors block.id = block.predecessors := by
  rw [predecessors, numbered.block?_id member]

/-- `after` is `graph` with all that the operations say added to it. -/
structure History (graph : Graph) (operations : List Operation) (after : Graph) : Prop where
  entry : after.entry = graph.entry
  base : after.base = graph.base
  numbering : after.numbering.next.index =
    graph.numbering.next.index + operations.countP Operation.isCreate
  size : after.size = graph.size + operations.countP Operation.isCreate
  successors : ∀ id, after.successors id =
    graph.successors id ++ operations.flatMap (Operation.targets id)
  predecessors : ∀ id, after.predecessors id =
    graph.predecessors id ++ operations.flatMap (Operation.sources id)
  statements : ∀ id, after.statements id =
    graph.statements id ++ operations.flatMap (Operation.statements id)
  isTerminal : ∀ id, after.isTerminal id =
    (graph.isTerminal id || operations.any (Operation.terminates id))
  placement : after.placement = operations.foldl Operation.place graph.placement
  deferred : after.deferred = graph.deferred ++ operations.flatMap Operation.deferrals
  numbered : graph.Numbered → after.Numbered

namespace History

theorem refl (graph : Graph) : graph.History [] graph := by
  constructor <;> simp

theorem trans {first second third : Graph} {before behind : List Operation}
    (h₁ : first.History before second) (h₂ : second.History behind third) :
    first.History (before ++ behind) third where
  entry := h₂.entry.trans h₁.entry
  base := h₂.base.trans h₁.base
  numbering := by rw [h₂.numbering, h₁.numbering, List.countP_append, Nat.add_assoc]
  size := by rw [h₂.size, h₁.size, List.countP_append, Nat.add_assoc]
  successors := by
    intro id; rw [h₂.successors, h₁.successors, List.flatMap_append, List.append_assoc]
  predecessors := by
    intro id; rw [h₂.predecessors, h₁.predecessors, List.flatMap_append, List.append_assoc]
  statements := by
    intro id; rw [h₂.statements, h₁.statements, List.flatMap_append, List.append_assoc]
  isTerminal := by intro id; rw [h₂.isTerminal, h₁.isTerminal, List.any_append, Bool.or_assoc]
  placement := by rw [h₂.placement, h₁.placement, List.foldl_append]
  deferred := by rw [h₂.deferred, h₁.deferred, List.flatMap_append, List.append_assoc]
  numbered := fun numbered => h₂.numbered (h₁.numbered numbered)

/-- An operation that changes blocks in place, and known ones only. -/
theorem inPlace {graph after : Graph} {operation : Operation}
    (old : operation.isCreate = false) (entry : after.entry = graph.entry)
    (base : after.base = graph.base) (numbering : after.numbering = graph.numbering)
    (size : after.size = graph.size)
    (blocks : ∀ id, after.block? id = (graph.block? id).map (operation.act id))
    (known : ∀ id, graph.contains id = false → operation.act id { id } = { id })
    (placement : after.placement = operation.place graph.placement)
    (deferred : after.deferred = graph.deferred ++ operation.deferrals) :
    graph.History [operation] after := by
  have about : ∀ id, graph.block? id = none → operation.statements id = [] ∧
      operation.sources id = [] ∧ operation.targets id = [] ∧ operation.terminates id = false := by
    intro id none
    have unknown : graph.contains id = false := by rw [← block?_isSome, none]; rfl
    simpa [Operation.act] using known id unknown
  constructor
  · exact entry
  · exact base
  · simp [numbering, old]
  · simp [size, old]
  · intro id
    cases hb : graph.block? id with
    | none => simp [Graph.successors, blocks, hb, about id hb]
    | some block => simp [Graph.successors, blocks, hb, Operation.act]
  · intro id
    cases hb : graph.block? id with
    | none => simp [Graph.predecessors, blocks, hb, about id hb]
    | some block => simp [Graph.predecessors, blocks, hb, Operation.act]
  · intro id
    cases hb : graph.block? id with
    | none => simp [Graph.statements, blocks, hb, about id hb]
    | some block => simp [Graph.statements, blocks, hb, Operation.act]
  · intro id
    cases hb : graph.block? id with
    | none => simp [Graph.isTerminal, blocks, hb, about id hb]
    | some block => simp [Graph.isTerminal, blocks, hb, Operation.act]
  · simpa using placement
  · simpa using deferred
  · intro numbered
    refine ⟨?_, base.trans (numbered.base_eq.trans (congrArg _ entry.symm)), ?_⟩
    · intro id block hb
      rw [blocks, Option.map_eq_some_iff] at hb
      obtain ⟨before, hb, rfl⟩ := hb
      exact numbered.id_eq id before hb
    · rw [numbering, numbered.next_eq, next, next, base, size]

theorem create {graph after : Graph} {id : BlockId} (h : graph.create = .ok (id, after)) :
    graph.History [.create] after := by
  obtain ⟨_, rfl, rfl⟩ := create_eq_ok h
  have unknown : graph.block? ⟨graph.next⟩ = none := by
    apply block?_eq_none
    simp [← Bool.not_eq_true, contains_iff]
  have blocks : ∀ other, graph.grown.block? other =
      if other = ⟨graph.next⟩ then some { id := graph.numbering.next } else graph.block? other :=
    block?_push _ _
  refine ⟨rfl, rfl, rfl, by simp [Graph.size, grown, push, Operation.isCreate], ?_, ?_, ?_, ?_,
    by simp [grown, push, Operation.place], by simp [grown, push, Operation.deferrals], ?_⟩
  · intro other
    by_cases same : other = ⟨graph.next⟩ <;>
      simp [Graph.successors, blocks, same, unknown, Operation.targets]
  · intro other
    by_cases same : other = ⟨graph.next⟩ <;>
      simp [Graph.predecessors, blocks, same, unknown, Operation.sources]
  · intro other
    by_cases same : other = ⟨graph.next⟩ <;>
      simp [Graph.statements, blocks, same, unknown, Operation.statements]
  · intro other
    by_cases same : other = ⟨graph.next⟩ <;>
      simp [Graph.isTerminal, blocks, same, unknown, Operation.terminates]
  · intro numbered
    refine ⟨?_, numbered.base_eq, ?_⟩
    · intro other block hb
      rw [blocks] at hb
      split at hb
      · rename_i last
        cases hb
        exact numbered.next_eq.trans last.symm
      · exact numbered.id_eq other block hb
    · have next_eq := congrArg BlockId.index numbered.next_eq
      simp only [Graph.next, Graph.size] at next_eq
      simp [grown, push, Graph.next, Graph.size, next_eq, Nat.add_assoc]

private theorem ne_of_contains {graph : Graph} {id other : BlockId}
    (known : graph.contains id = true) (unknown : graph.contains other = false) : id ≠ other := by
  rintro rfl
  simp [known] at unknown

theorem link {graph after : Graph} {source target : BlockId}
    (h : graph.link source target = .ok after) : graph.History [.link source target] after := by
  obtain ⟨knownSource, knownTarget, _, rfl⟩ := link_eq_ok h
  have knownTarget' : (graph.update source (·.addSuccessor target)).contains target = true := by
    rw [← block?_isSome, block?_update knownSource, Option.isSome_map, block?_isSome, knownTarget]
  refine inPlace rfl rfl rfl rfl (by simp [update, Graph.size]) ?_ ?_ rfl
    (by simp [update, Operation.deferrals])
  · intro id
    rw [block?_update knownTarget', block?_update knownSource, Option.map_map]
    congr 1
    funext block
    by_cases hs : source = id <;> by_cases ht : target = id <;>
      simp [Operation.act, Operation.targets, Operation.sources, Operation.statements,
        Operation.terminates, Block.addSuccessor, Block.addPredecessor, hs, ht, eq_comm (a := id)]
  · intro id unknown
    simp [Operation.act, Operation.targets, Operation.sources, Operation.statements,
      Operation.terminates, ne_of_contains knownSource unknown, ne_of_contains knownTarget unknown]

theorem append {graph after : Graph} {id : BlockId} {stmt : StmtId}
    (h : graph.append id stmt = .ok after) : graph.History [.append id stmt] after := by
  obtain ⟨known, _, rfl⟩ := append_eq_ok h
  refine inPlace rfl rfl rfl rfl (by simp [update, place, Graph.size]) ?_ ?_ rfl
    (by simp [update, place, Operation.deferrals])
  · intro other
    have placed : (graph.place stmt id).contains id = true := known
    rw [block?_update placed]
    change (graph.block? other).map _ = _
    congr 1
    funext block
    by_cases same : id = other <;>
      simp [Operation.act, Operation.targets, Operation.sources, Operation.statements,
        Operation.terminates, Block.addStatement, same, eq_comm (a := other)]
  · intro other unknown
    simp [Operation.act, Operation.targets, Operation.sources, Operation.statements,
      Operation.terminates, ne_of_contains known unknown]

theorem markTerminal {graph after : Graph} {id : BlockId}
    (h : graph.markTerminal id = .ok after) : graph.History [.markTerminal id] after := by
  obtain ⟨known, rfl⟩ := markTerminal_eq_ok h
  refine inPlace rfl rfl rfl rfl (by simp [update, Graph.size]) ?_ ?_ rfl
    (by simp [update, Operation.deferrals])
  · intro other
    rw [block?_update known]
    congr 1
    funext block
    by_cases same : id = other <;>
      simp [Operation.act, Operation.targets, Operation.sources, Operation.statements,
        Operation.terminates, Block.markTerminal, same, eq_comm (a := other)]
  · intro other unknown
    simp [Operation.act, Operation.targets, Operation.sources, Operation.statements,
      Operation.terminates, ne_of_contains known unknown]

theorem next {graph after : Graph} {operations : List Operation}
    (h : graph.History operations after) :
    after.next = graph.next + operations.countP Operation.isCreate := by
  simp only [Graph.next, h.base, h.size, Nat.add_assoc]

theorem contains_iff {graph after : Graph} {operations : List Operation} {id : BlockId}
    (h : graph.History operations after) : after.contains id = true ↔
      graph.base ≤ id.index ∧
        id.index < graph.next + operations.countP Operation.isCreate := by
  rw [Graph.contains_iff, h.base, h.next]

theorem contains {graph after : Graph} {operations : List Operation} {id : BlockId}
    (h : graph.History operations after) (known : graph.contains id = true) :
    after.contains id = true := by
  have bounds := Graph.contains_iff.mp known
  exact h.contains_iff.mpr ⟨bounds.1, by omega⟩

end History

theorem history_perform {graph after : Graph} {operation : Operation}
    (h : graph.perform operation = .ok after) : graph.History [operation] after := by
  cases operation with
  | create =>
      cases hc : graph.create with
      | error fault => simp [perform, hc, Except.map] at h
      | ok result =>
          simp only [perform, hc, Except.map, Except.ok.injEq] at h
          subst h
          exact .create hc
  | link source target => exact .link h
  | append block stmt => exact .append h
  | markTerminal block => exact .markTerminal h
  | defer stmt =>
      cases h
      refine .inPlace rfl rfl rfl rfl rfl ?_ ?_ rfl rfl
      · intro id
        change graph.block? id = _
        cases graph.block? id <;> simp [Operation.act, Operation.targets, Operation.sources,
          Operation.statements, Operation.terminates]
      · intro id _
        simp [Operation.act, Operation.targets, Operation.sources, Operation.statements,
          Operation.terminates]

theorem performAll_append (graph : Graph) (before behind : List Operation) :
    graph.performAll (before ++ behind) =
      graph.performAll before >>= fun mid => mid.performAll behind :=
  List.foldlM_append

theorem performAll_cons_eq_ok {graph after : Graph} {operation : Operation}
    {operations : List Operation} :
    graph.performAll (operation :: operations) = .ok after ↔
      ∃ mid, graph.perform operation = .ok mid ∧ mid.performAll operations = .ok after := by
  simp only [performAll, List.foldlM_cons]
  cases graph.perform operation <;> simp [bind, Except.bind]

theorem performAll_append_eq_ok {graph after : Graph} {before behind : List Operation} :
    graph.performAll (before ++ behind) = .ok after ↔
      ∃ mid, graph.performAll before = .ok mid ∧ mid.performAll behind = .ok after := by
  rw [performAll_append]
  cases graph.performAll before <;> simp [bind, Except.bind]

/-- What a list of operations does to a graph. -/
theorem history_performAll {graph after : Graph} {operations : List Operation}
    (h : graph.performAll operations = .ok after) : graph.History operations after := by
  induction operations generalizing graph with
  | nil =>
      cases h
      exact .refl _
  | cons operation operations ih =>
      obtain ⟨mid, first, rest⟩ := performAll_cons_eq_ok.mp h
      exact (history_perform first).trans (ih rest)

/-- Blocks are kept under their ids, and every edge is noted at both of its ends and
    once at its source. -/
structure Sound (graph : Graph) : Prop where
  numbered : graph.Numbered
  nodup : ∀ id, (graph.successors id).Nodup
  bothEnds : ∀ source target,
    target ∈ graph.successors source ↔ source ∈ graph.predecessors target

namespace Sound

theorem contains_target {graph : Graph} (sound : graph.Sound) {source target : BlockId}
    (h : target ∈ graph.successors source) : graph.contains target = true :=
  contains_of_mem_predecessors ((sound.bothEnds source target).mp h)

theorem consistent {graph : Graph} (sound : graph.Sound) : graph.Consistent := by
  intro block member
  have out := sound.numbered.successors_eq member
  have into := sound.numbered.predecessors_eq member
  refine ⟨out ▸ sound.nodup block.id, ?_, ?_⟩
  · intro target edge
    exact (sound.bothEnds block.id target).mp (out ▸ edge)
  · intro source edge
    exact (sound.bothEnds source block.id).mpr (into ▸ edge)

theorem perform {graph after : Graph} {operation : Operation} (sound : graph.Sound)
    (h : graph.perform operation = .ok after) : after.Sound := by
  have history := history_perform h
  refine ⟨history.numbered sound.numbered, ?_, ?_⟩
  · intro id
    rw [history.successors]
    cases operation with
    | link source target =>
        obtain ⟨_, _, new, _⟩ := link_eq_ok h
        by_cases same : source = id
        · subst same
          have apart : ∀ other ∈ graph.successors source, other ≠ target := by
            rintro other member rfl
            exact new member
          simpa [Operation.targets, List.nodup_append, sound.nodup] using apart
        · simpa [Operation.targets, same] using sound.nodup id
    | create | append | markTerminal | defer => simpa [Operation.targets] using sound.nodup id
  · intro tail head
    rw [history.successors, history.predecessors, List.mem_append, List.mem_append,
      sound.bothEnds]
    cases operation with
    | link source target =>
        by_cases hs : source = tail <;> by_cases ht : target = head <;>
          simp [Operation.targets, Operation.sources, hs, ht, Ne.symm]
    | create | append | markTerminal | defer => simp [Operation.targets, Operation.sources]

theorem performAll {graph after : Graph} {operations : List Operation} (sound : graph.Sound)
    (h : graph.performAll operations = .ok after) : after.Sound := by
  induction operations generalizing graph with
  | nil =>
      cases h
      exact sound
  | cons operation operations ih =>
      obtain ⟨mid, first, rest⟩ := performAll_cons_eq_ok.mp h
      exact ih (sound.perform first) rest

end Sound

end Graph

end FlowGraph
