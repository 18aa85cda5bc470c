import FlowGraph.Proofs.Pieces
import FlowGraph.Proofs.Raise

/-! # Calls on a graph

A graph changed in place by one call after the other, each with whatever arguments. A call
looks at everything that it can be refused for before it writes anything, so a call that
is refused leaves the graph as it was and the others do what the operation says. From
this it follows, by induction on the calls, what every graph is like that began with a
single block.
-/

namespace FlowGraph

/-- Calls that write to a graph in place: what was written before a fault stays written. -/
abbrev CallM := EStateM GraphFault Graph

namespace CallM

/-- Stops with the fault unless the graph meets the condition. -/
def require (condition : Graph → Bool) (fault : GraphFault) : CallM Unit := fun graph =>
  if condition graph then .ok () graph else .error fault graph

/-- Writes to a block, which has to be there. -/
def write (id : BlockId) (change : Block → Block) : CallM Unit := do
  require (·.contains id) (.unknownBlock id)
  modify (·.update id change)

/-- Takes the next id of the numbering, which moves on. The last number is not given out. -/
def takeId : CallM BlockId := do
  let id := (← get).numbering.next
  require (fun graph => graph.numbering.next.index + 1 < BlockId.limit) (.idsExhausted id)
  modify fun graph => { graph with numbering := ⟨⟨id.index + 1⟩⟩ }
  return id

end CallM

/-- The call of an operation, step by step: what it asks for, then what it writes. -/
def Operation.call : Operation → CallM Unit
  | create => do
      let id ← CallM.takeId
      modify (·.push { id })
  | link source target => do
      CallM.require (·.contains target) (.unknownBlock target)
      CallM.require (·.contains source) (.unknownBlock source)
      CallM.require (fun graph => target ∉ graph.successors source) (.duplicateEdge source target)
      CallM.write source (·.addSuccessor target)
      CallM.write target (·.addPredecessor source)
  | append block stmt => do
      CallM.require (·.contains block) (.unknownBlock block)
      CallM.require (fun graph => !graph.isTerminal block) (.terminalBlock block)
      CallM.write block (·.addStatement stmt)
      modify (·.place stmt block)
  | markTerminal block => CallM.write block Block.markTerminal
  | defer stmt => modify (·.defer stmt)

namespace CallM

variable {α : Type} {condition : Graph → Bool} {fault : GraphFault} {graph : Graph}
  {next : Unit → CallM α}

theorem require_bind_of_true (holds : condition graph = true) :
    (require condition fault >>= next) graph = next () graph := by
  simp [require, bind, EStateM.bind, holds]

theorem require_bind_of_false (fails : condition graph = false) :
    (require condition fault >>= next) graph = .error fault graph := by
  simp [require, bind, EStateM.bind, fails]

theorem write_of_contains {id : BlockId} (known : graph.contains id = true)
    (change : Block → Block) : write id change graph = .ok () (graph.update id change) := by
  rw [write, require_bind_of_true known]
  rfl

theorem write_bind_of_contains {id : BlockId} (known : graph.contains id = true)
    (change : Block → Block) : (write id change >>= next) graph =
      next () (graph.update id change) := by
  simp [bind, EStateM.bind, write_of_contains known]

theorem takeId_of_room (room : graph.numbering.next.index + 1 < BlockId.limit) :
    takeId graph = .ok graph.numbering.next
      { graph with numbering := ⟨⟨graph.numbering.next.index + 1⟩⟩ } := by
  change (require _ _ >>= _) graph = _
  rw [require_bind_of_true (decide_eq_true room)]
  rfl

theorem takeId_of_full (full : ¬ graph.numbering.next.index + 1 < BlockId.limit) :
    takeId graph = .error (.idsExhausted graph.numbering.next) graph := by
  change (require _ _ >>= _) graph = _
  rw [require_bind_of_false (decide_eq_false full)]

end CallM

theorem Placement.mem_insert {placement : Placement} {stmt : StmtId} {block : BlockId}
    {entry : StmtId × BlockId} (h : entry ∈ (placement.insert stmt block).entries) :
    entry ∈ placement.entries ∨ entry = (stmt, block) := by
  unfold insert at h
  split at h
  · exact .inl h
  · split at h
    · split at h
      · exact .inl h
      · exact (List.mem_cons.mp h).symm
    · exact (List.mem_cons.mp h).symm

/-- What a call on a graph comes to: the graph that it made, or its fault and the graph that
    was there. -/
def Graph.settle (graph : Graph) : Except GraphFault Graph → EStateM.Result GraphFault Graph Unit
  | .ok after => .ok () after
  | .error fault => .error fault graph

namespace Graph

variable {graph after : Graph} {operation : Operation} {id : BlockId}

theorem contains_update (graph : Graph) (id : BlockId) (change : Block → Block)
    (other : BlockId) : (graph.update id change).contains other = graph.contains other := by
  rw [Bool.eq_iff_iff, contains_iff, contains_iff]
  simp [next, update, size]

/-- The numbering and the table are written one after the other, or none of them. -/
theorem call_create (graph : Graph) :
    Operation.create.call graph = graph.settle (graph.perform .create) := by
  by_cases room : graph.numbering.next.index + 1 < BlockId.limit
  · have created : graph.perform .create = .ok graph.grown := by
      rw [perform, create_ok room]
      rfl
    rw [created]
    simp only [Operation.call, bind, EStateM.bind, CallM.takeId_of_room room]
    rfl
  · have failed : graph.perform .create = .error (.idsExhausted graph.numbering.next) := by
      rw [perform, create, Numbering.fresh, if_neg room]
      rfl
    rw [failed]
    simp only [Operation.call, bind, EStateM.bind, CallM.takeId_of_full room]
    rfl

/-- The second end of an edge is found once the first one is written. -/
theorem call_link (graph : Graph) (source target : BlockId) :
    (Operation.link source target).call graph = graph.settle (graph.link source target) := by
  simp only [Operation.call, link]
  cases knownTarget : graph.contains target with
  | false =>
      rw [CallM.require_bind_of_false knownTarget]
      rfl
  | true =>
      rw [CallM.require_bind_of_true knownTarget]
      cases here : graph.block? source with
      | none =>
          have unknown : graph.contains source = false := by rw [← block?_isSome, here]; rfl
          rw [CallM.require_bind_of_false unknown]
          rfl
      | some block =>
          have knownSource := contains_of_block? here
          have stillKnown := (contains_update graph source (·.addSuccessor target) target).trans
            knownTarget
          have out : graph.successors source = block.successors := by simp [successors, here]
          rw [CallM.require_bind_of_true knownSource]
          by_cases old : target ∈ block.successors
          · rw [CallM.require_bind_of_false (by simpa [out] using old)]
            simp [old, settle]
          · rw [CallM.require_bind_of_true (by simpa [out] using old),
              CallM.write_bind_of_contains knownSource, CallM.write_of_contains stillKnown]
            simp [old, settle]

theorem call_append (graph : Graph) (id : BlockId) (stmt : StmtId) :
    (Operation.append id stmt).call graph = graph.settle (graph.append id stmt) := by
  simp only [Operation.call, append]
  cases here : graph.block? id with
  | none =>
      have unknown : graph.contains id = false := by rw [← block?_isSome, here]; rfl
      rw [CallM.require_bind_of_false unknown]
      rfl
  | some block =>
      have known := contains_of_block? here
      have ended : graph.isTerminal id = block.terminal := by simp [isTerminal, here]
      rw [CallM.require_bind_of_true known]
      cases terminal : block.terminal with
      | true =>
          rw [CallM.require_bind_of_false (by simp [ended, terminal])]
          simp [terminal, settle]
      | false =>
          rw [CallM.require_bind_of_true (by simp [ended, terminal]),
            CallM.write_bind_of_contains known]
          simp only [terminal]
          rfl

theorem call_markTerminal (graph : Graph) (id : BlockId) :
    (Operation.markTerminal id).call graph = graph.settle (graph.markTerminal id) := by
  simp only [Operation.call, markTerminal]
  cases known : graph.contains id with
  | false =>
      rw [CallM.write, CallM.require_bind_of_false known]
      rfl
  | true =>
      rw [CallM.write_of_contains known]
      rfl

/-- A call goes through as the operation says, or leaves the whole graph as it was. -/
theorem call_eq (graph : Graph) (operation : Operation) :
    operation.call graph = graph.settle (graph.perform operation) := by
  cases operation with
  | create => exact call_create graph
  | link source target => exact call_link graph source target
  | append block stmt => exact call_append graph block stmt
  | markTerminal block => exact call_markTerminal graph block
  | defer stmt => rfl

theorem call_eq_ok : operation.call graph = .ok () after ↔ graph.perform operation = .ok after := by
  rw [call_eq]
  cases graph.perform operation <;> simp [settle]

theorem call_eq_error {fault : GraphFault} {left : Graph} :
    operation.call graph = .error fault left ↔
      left = graph ∧ graph.perform operation = .error fault := by
  rw [call_eq]
  cases graph.perform operation <;> simp [settle, and_comm, eq_comm]

/-- The graph as a call leaves it, whether or not the call went through. -/
def called (graph : Graph) (operation : Operation) : Graph :=
  match operation.call graph with
  | .ok _ after => after
  | .error _ left => left

/-- The graph as a list of calls leaves it, first to last. -/
def calledAll (graph : Graph) (operations : List Operation) : Graph :=
  operations.foldl called graph

theorem called_cases (graph : Graph) (operation : Operation) :
    graph.called operation = graph ∨ graph.perform operation = .ok (graph.called operation) := by
  rw [called, call_eq]
  cases performed : graph.perform operation with
  | ok after => exact .inr rfl
  | error fault => exact .inl rfl

/-- What calls keep, one by one, they keep in any number. -/
theorem calledAll_induction (kept : Graph → Prop)
    (step : ∀ graph operation after, kept graph → graph.perform operation = .ok after → kept after)
    (first : kept graph) (operations : List Operation) : kept (graph.calledAll operations) := by
  induction operations generalizing graph with
  | nil => exact first
  | cons operation operations ih =>
      apply ih
      rcases graph.called_cases operation with same | performed
      · exact same.symm ▸ first
      · exact step _ _ _ first performed

/-- Edges are noted once at each end, statements are placed where they are listed, and
    there is a number for the next block. -/
structure Regular (graph : Graph) : Prop where
  sound : graph.Sound
  predecessors_nodup : ∀ id, (graph.predecessors id).Nodup
  listed : ∀ entry ∈ graph.placement.entries, entry.1 ∈ graph.statements entry.2
  next_lt : graph.numbering.next.index < BlockId.limit

theorem Regular.blank {entry : BlockId} (room : entry.index + 1 < BlockId.limit) :
    (blank entry).Regular where
  sound := sound_blank entry
  predecessors_nodup := by simp [predecessors_blank]
  listed := by simp [Graph.blank]
  next_lt := room

theorem contains_of_mem_successors {other : BlockId} (h : other ∈ graph.successors id) :
    graph.contains id = true := by
  cases known : graph.contains id with
  | true => rfl
  | false => simp [successors_eq_nil known] at h

/-- A new edge is new at its target as well. -/
theorem predecessors_nodup_of_perform (sound : graph.Sound)
    (nodup : ∀ id, (graph.predecessors id).Nodup) (h : graph.perform operation = .ok after)
    (id : BlockId) : (after.predecessors id).Nodup := by
  rw [(history_perform h).predecessors]
  cases operation with
  | link source target =>
      obtain ⟨_, _, new, _⟩ := link_eq_ok h
      rw [sound.bothEnds] at new
      by_cases same : target = id
      · subst same
        have apart : ∀ other ∈ graph.predecessors target, other ≠ source := by
          rintro other member rfl
          exact new member
        simpa [Operation.sources, List.nodup_append, nodup] using apart
      · simpa [Operation.sources, same] using nodup id
  | create | append | markTerminal | defer => simpa [Operation.sources] using nodup id

/-- The placement has only what was appended. -/
theorem listed_of_perform (listed : ∀ entry ∈ graph.placement.entries,
      entry.1 ∈ graph.statements entry.2) (h : graph.perform operation = .ok after) :
    ∀ entry ∈ after.placement.entries, entry.1 ∈ after.statements entry.2 := by
  intro entry member
  have history := history_perform h
  rw [history.statements, List.mem_append]
  rw [history.placement] at member
  cases operation with
  | append block stmt =>
      rcases Placement.mem_insert member with old | rfl
      · exact .inl (listed entry old)
      · exact .inr (by simp [Operation.statements])
  | create | link | markTerminal | defer => exact .inl (listed entry member)

theorem Regular.perform (regular : graph.Regular) (h : graph.perform operation = .ok after) :
    after.Regular where
  sound := regular.sound.perform h
  predecessors_nodup := predecessors_nodup_of_perform regular.sound regular.predecessors_nodup h
  listed := listed_of_perform regular.listed h
  next_lt := next_lt_of_perform regular.next_lt h

theorem Regular.performAll {operations : List Operation}
    (regular : graph.Regular) (h : graph.performAll operations = .ok after) : after.Regular := by
  induction operations generalizing graph with
  | nil =>
      cases h
      exact regular
  | cons operation operations ih =>
      obtain ⟨mid, first, rest⟩ := performAll_cons_eq_ok.mp h
      exact ih (regular.perform first) rest

theorem Regular.statements_of_blockOf? (regular : graph.Regular) {stmt : StmtId}
    (placed : graph.blockOf? stmt = some id) : stmt ∈ graph.statements id := by
  unfold blockOf? Placement.get? at placed
  split at placed
  · rename_i stored block current
    split at placed
    · rename_i same
      cases placed
      exact same ▸ regular.listed _ (List.mem_of_find?_eq_some current)
    · cases placed
  · cases placed

theorem Regular.contains_neighbour (regular : graph.Regular) {other : BlockId}
    (member : other ∈ graph.successors id ++ graph.predecessors id) :
    graph.contains other = true := by
  rcases List.mem_append.mp member with out | into
  · exact regular.sound.contains_target out
  · exact contains_of_mem_successors ((regular.sound.bothEnds other id).mpr into)

/-- A terminal block is given no more statements. -/
theorem statements_of_perform (terminal : graph.isTerminal id = true)
    (h : graph.perform operation = .ok after) :
    after.isTerminal id = true ∧ after.statements id = graph.statements id := by
  have history := history_perform h
  refine ⟨by simp [history.isTerminal, terminal], ?_⟩
  rw [history.statements]
  cases operation with
  | append block stmt =>
      have other : block ≠ id := by
        rintro rfl
        simp [(append_eq_ok h).2.1] at terminal
      simp [Operation.statements, other]
  | create | link | markTerminal | defer => simp [Operation.statements]

theorem statements_calledAll (terminal : graph.isTerminal id = true)
    (operations : List Operation) :
    (graph.calledAll operations).isTerminal id = true ∧
      (graph.calledAll operations).statements id = graph.statements id := by
  apply calledAll_induction
    fun later => later.isTerminal id = true ∧ later.statements id = graph.statements id
  · rintro mid operation after ⟨still, same⟩ performed
    obtain ⟨marked, unchanged⟩ := statements_of_perform still performed
    exact ⟨marked, unchanged.trans same⟩
  · exact ⟨terminal, rfl⟩

/-- The call that ends a block goes through for every block there is. -/
theorem exists_call_markTerminal (known : graph.contains id = true) :
    ∃ after, (Operation.markTerminal id).call graph = .ok () after ∧
      after.isTerminal id = true ∧ after.statements id = graph.statements id := by
  have marked : graph.markTerminal id = .ok (graph.update id Block.markTerminal) := by
    rw [markTerminal, if_pos known]
  have history := History.markTerminal marked
  refine ⟨_, call_eq_ok.mpr marked, ?_, ?_⟩
  · simp [history.isTerminal, Operation.terminates]
  · simp [history.statements, Operation.statements]

theorem entry_calledAll (graph : Graph) (operations : List Operation) :
    (graph.calledAll operations).entry = graph.entry := by
  apply calledAll_induction (fun later => later.entry = graph.entry)
  · intro mid operation after same performed
    exact (history_perform performed).entry.trans same
  · rfl

theorem Regular.calledAll (regular : graph.Regular) (operations : List Operation) :
    (graph.calledAll operations).Regular :=
  calledAll_induction Regular (fun _ _ _ regular => regular.perform) regular operations

/-- The graph after some calls is numbered without gaps from where it began, its edges are
    noted once at each of their ends and lead to its own blocks, and statements are where
    they are said to be. -/
structure Kept (graph : Graph) (start : Numbering) : Prop where
  entry_eq : graph.entry = start.next
  base_eq : graph.base = start.next.index
  ids_eq : graph.ids = (List.range graph.size).map fun position => ⟨start.next.index + position⟩
  next_eq : graph.numbering.next.index = start.next.index + graph.size
  next_lt : graph.numbering.next.index < BlockId.limit
  nodup : ∀ id, (graph.successors id).Nodup ∧ (graph.predecessors id).Nodup
  known : ∀ id, ∀ other ∈ graph.successors id ++ graph.predecessors id, graph.contains other = true
  bothEnds : ∀ source target,
    target ∈ graph.successors source ↔ source ∈ graph.predecessors target
  checked : graph.check = .ok ()
  listed : ∀ stmt id, graph.blockOf? stmt = some id → stmt ∈ graph.statements id

theorem Regular.kept {start : Numbering} (regular : graph.Regular)
    (entry : graph.entry = start.next) : graph.Kept start where
  entry_eq := entry
  base_eq := by rw [regular.sound.numbered.base_eq, entry]
  ids_eq := by rw [regular.sound.numbered.ids_eq, entry]
  next_eq := by rw [regular.sound.numbered.numbering_eq, entry]
  next_lt := regular.next_lt
  nodup := fun id => ⟨regular.sound.nodup id, regular.predecessors_nodup id⟩
  known := fun _ _ => regular.contains_neighbour
  bothEnds := regular.sound.bothEnds
  checked := check_eq_ok.mpr regular.sound.consistent
  listed := fun _ _ => regular.statements_of_blockOf?

/-- How a graph takes the next call: one that is refused leaves it as it was, one that is
    accepted adds what the operation says, and from the call that ends a block on the
    statements of the block are fixed. -/
structure Takes (graph : Graph) : Prop where
  refused : ∀ operation fault left, operation.call graph = .error fault left →
    left = graph ∧ graph.perform operation = .error fault
  accepted : ∀ operation after, operation.call graph = .ok () after →
    graph.perform operation = .ok after ∧ graph.History [operation] after
  ended : ∀ id, graph.contains id = true → ∃ after,
    (Operation.markTerminal id).call graph = .ok () after ∧
      ∀ more, (after.calledAll more).isTerminal id = true ∧
        (after.calledAll more).statements id = graph.statements id
  fixed : ∀ id, graph.isTerminal id = true → ∀ more,
    (graph.calledAll more).isTerminal id = true ∧
      (graph.calledAll more).statements id = graph.statements id

theorem takes (graph : Graph) : graph.Takes where
  refused := fun _ _ _ => call_eq_error.mp
  accepted := by
    intro operation after called
    have performed := call_eq_ok.mp called
    exact ⟨performed, history_perform performed⟩
  ended := by
    intro id known
    obtain ⟨after, called, terminal, same⟩ := exists_call_markTerminal known
    refine ⟨after, called, fun more => ?_⟩
    obtain ⟨still, unchanged⟩ := statements_calledAll terminal more
    exact ⟨still, unchanged.trans same⟩
  fixed := fun _ terminal more => statements_calledAll terminal more

/-- Whatever is called on a new graph, the graph is kept in order, and it takes the next call
    as a whole or not at all. A block that is ended is given no more statements. -/
theorem kept_after_calls {start : Numbering} {first : Graph} (made : new start = .ok first)
    (calls : List Operation) :
    (first.calledAll calls).Kept start ∧ (first.calledAll calls).Takes := by
  obtain rfl := new_eq_blank made
  have regular := (Regular.blank (new_eq_ok made).1).calledAll calls
  exact ⟨regular.kept (entry_calledAll _ calls), takes _⟩

/-- Calls where the numbers end: the second block, the second edge from the first block to
    itself and the statement behind the end of the first block are refused. -/
def lastNumbers : List Operation :=
  [.create, .create, .link ⟨4294967293⟩ ⟨4294967293⟩, .link ⟨4294967293⟩ ⟨4294967293⟩,
    .append ⟨4294967293⟩ .null, .append ⟨4294967293⟩ ⟨1, 1⟩, .markTerminal ⟨4294967293⟩]

theorem kept_after_calls_lastNumbers :
    ∃ first, new (.startingFrom 4294967293) = .ok first ∧
      (first.calledAll lastNumbers).Kept (.startingFrom 4294967293) ∧
      (first.calledAll lastNumbers).size = 2 ∧
      (∃ after, (Operation.markTerminal ⟨4294967294⟩).call (first.calledAll lastNumbers) =
          .ok () after ∧
        (after.calledAll [.append ⟨4294967294⟩ ⟨2, 1⟩]).statements ⟨4294967294⟩ = []) ∧
      ((first.calledAll lastNumbers).calledAll
          [.append ⟨4294967293⟩ ⟨2, 1⟩]).statements ⟨4294967293⟩ = [.null, ⟨1, 1⟩] ∧
      Operation.create.call (first.calledAll lastNumbers) =
        .error (.idsExhausted ⟨4294967295⟩) (first.calledAll lastNumbers) := by
  have made : new (.startingFrom 4294967293) = .ok (blank ⟨4294967293⟩) := rfl
  obtain ⟨kept, takes⟩ := kept_after_calls made lastNumbers
  have refused : ∃ left, Operation.create.call ((blank ⟨4294967293⟩).calledAll lastNumbers) =
      .error (.idsExhausted ⟨4294967295⟩) left := ⟨_, rfl⟩
  obtain ⟨left, refused⟩ := refused
  obtain ⟨rfl, _⟩ := takes.refused .create _ left refused
  obtain ⟨after, called, fixed⟩ := takes.ended ⟨4294967294⟩ (by decide)
  refine ⟨_, made, kept, by decide, ⟨after, called, ?_⟩, ?_, refused⟩
  · rw [(fixed _).2]
    decide
  · rw [(takes.fixed ⟨4294967293⟩ (by decide) _).2]
    decide

end Graph

end FlowGraph
