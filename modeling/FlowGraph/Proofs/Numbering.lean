import FlowGraph.Proofs.Calls
import FlowGraph.Proofs.Scopes

/-! # One numbering for all the scopes of a module

Every graph of a module begins with the number at which the graph before it ended, so the
blocks of a module are numbered without gaps from zero on, and each number belongs to one
scope. A graph has no edges to other graphs and places no statement in them. The numbering
that a module hands on begins behind all of its blocks.
-/

namespace FlowGraph

namespace Graph

/-- Every graph begins with the number that the one before it had for its next block. -/
def Consecutive : Nat → List Graph → Prop
  | _, [] => True
  | start, graph :: graphs =>
      (graph.Numbered ∧ graph.entry.index = start) ∧ Consecutive graph.numbering.next.index graphs

/-- The number that is next behind some graphs. -/
def ending (start : Nat) (graphs : List Graph) : Nat :=
  graphs.foldl (fun _ graph => graph.numbering.next.index) start

variable {graph : Graph} {start : Nat} {graphs : List Graph}

theorem ending_append_singleton :
    ending start (graphs ++ [graph]) = graph.numbering.next.index := by
  simp [ending]

theorem consecutive_append_singleton : Consecutive start (graphs ++ [graph]) ↔
    Consecutive start graphs ∧ graph.Numbered ∧ graph.entry.index = ending start graphs := by
  induction graphs generalizing start with
  | nil => simp [Consecutive, ending]
  | cons first graphs ih => simp [Consecutive, ending, ih, and_assoc]

namespace Consecutive

theorem next_eq (consecutive : Consecutive start (graph :: graphs)) :
    graph.numbering.next.index = start + graph.size := by
  rw [consecutive.1.1.numbering_eq, consecutive.1.2]

theorem ending_eq (consecutive : Consecutive start graphs) :
    ending start graphs = start + graphs.foldr (fun graph count => graph.size + count) 0 := by
  induction graphs generalizing start with
  | nil => rfl
  | cons first graphs ih =>
      have rest := ih consecutive.2
      rw [List.foldr_cons, ← Nat.add_assoc, ← consecutive.next_eq]
      exact rest

/-- The highest of the numbers at which the graphs end is the last of them. -/
theorem foldl_max_eq (consecutive : Consecutive start graphs) :
    (graphs.map fun graph => graph.numbering.next.index).foldl max start =
      ending start graphs := by
  induction graphs generalizing start with
  | nil => rfl
  | cons first graphs ih =>
      have later : max start first.numbering.next.index = first.numbering.next.index := by
        rw [consecutive.next_eq]
        omega
      rw [List.map_cons, List.foldl_cons, later]
      exact ih consecutive.2

theorem flatMap_ids (consecutive : Consecutive start graphs) :
    graphs.flatMap Graph.ids =
      (List.range' start (graphs.foldr (fun graph count => graph.size + count) 0)).map .mk := by
  induction graphs generalizing start with
  | nil => rfl
  | cons first graphs ih =>
      have own : first.ids = (List.range' start first.size).map .mk := by
        rw [consecutive.1.1.ids_eq, consecutive.1.2, List.range'_eq_map_range, List.map_map]
        rfl
      rw [List.flatMap_cons, own, ih consecutive.2, consecutive.next_eq,
        ← List.map_append, List.range'_append_1]
      rfl

theorem entry_eq_of_getElem? (consecutive : Consecutive start graphs) {number : Nat}
    {before after : Graph} (here : graphs[number]? = some before)
    (behind : graphs[number + 1]? = some after) :
    after.entry.index = before.numbering.next.index := by
  induction graphs generalizing start number with
  | nil => cases here
  | cons first graphs ih =>
      cases number with
      | zero =>
          cases here
          cases graphs with
          | nil => cases behind
          | cons second graphs =>
              cases behind
              exact consecutive.2.1.2
      | succ number => exact ih consecutive.2 here behind

end Consecutive

/-- The graph knows of its own blocks only. -/
structure SelfContained (graph : Graph) : Prop where
  edges : ∀ source target, target ∈ graph.successors source →
    source ∈ graph.ids ∧ target ∈ graph.ids
  predecessors : ∀ id, ∀ other ∈ graph.predecessors id, other ∈ graph.ids
  placed : ∀ stmt id, graph.blockOf? stmt = some id → id ∈ graph.ids

theorem Regular.selfContained (regular : graph.Regular) : graph.SelfContained where
  edges := by
    intro source target edge
    simp only [mem_ids regular.sound]
    exact ⟨contains_of_mem_successors edge, regular.sound.contains_target edge⟩
  predecessors := by
    intro id other member
    rw [mem_ids regular.sound]
    exact regular.contains_neighbour (List.mem_append_right _ member)
  placed := by
    intro stmt id found
    rw [mem_ids regular.sound]
    exact contains_of_mem_statements (regular.statements_of_blockOf? found)

end Graph

namespace Context

variable {context : Context} {start : Numbering} {body : List StmtId} {log log' : Log}
  {graph : Graph} {last : BlockId} {scopes result : Array Scope} {queue : List Waiting}

theorem regular_of_build (success : context.build start body log = .ok graph log') :
    graph.Regular := by
  obtain ⟨_, _, built⟩ := built_of_build success
  exact (Graph.Regular.blank (next_lt_of_build success).1).performAll built.laid

/-- The scopes that have been built are numbered up to where the next one begins. -/
structure NumberedTo (scopes : Array Scope) (next : Nat) : Prop where
  consecutive : Graph.Consecutive 0 (scopes.toList.map Scope.graph)
  ending_eq : Graph.ending 0 (scopes.toList.map Scope.graph) = next
  regular : ∀ scope ∈ scopes.toList, scope.graph.Regular

theorem NumberedTo.push {scope : Scope} (numbered : NumberedTo scopes start.next.index)
    (success : context.build start body log = .ok scope.graph log') :
    NumberedTo (scopes.push scope) scope.graph.numbering.next.index := by
  obtain ⟨_, _, built⟩ := built_of_build success
  constructor
  · rw [Array.toList_push, List.map_append, List.map_singleton,
      Graph.consecutive_append_singleton, numbered.ending_eq, built.entry_eq]
    exact ⟨numbered.consecutive, built.sound.numbered, rfl⟩
  · rw [Array.toList_push, List.map_append, List.map_singleton, Graph.ending_append_singleton]
  · rw [Array.toList_push, List.forall_mem_append, List.forall_mem_singleton]
    exact ⟨numbered.regular, regular_of_build success⟩

theorem Enumerates.numberedTo (enumerates : context.Enumerates start scopes queue result)
    (numbered : NumberedTo scopes start.next.index) : ∃ next, NumberedTo result next := by
  induction enumerates with
  | done => exact ⟨_, numbered⟩
  | next _ built _ ih => exact ih (numbered.push built)

variable {graphs : ModuleGraphs}

theorem numberedTo_of_buildModule (success : context.buildModule body log = .ok graphs log') :
    ∃ next, NumberedTo graphs.scopes next ∧ graphs.scopes.toList ≠ [] := by
  obtain ⟨_, _, ⟨⟩, success⟩ := BuildM.bind_eq_ok.mp success
  obtain ⟨top, _, built, success⟩ := BuildM.bind_eq_ok.mp success
  obtain ⟨scopes, _, waited, ⟨⟩⟩ := BuildM.bind_eq_ok.mp success
  have enumerates := enumerates_of_buildWaiting waited
  have none : NumberedTo #[] ({} : Numbering).next.index := ⟨trivial, rfl, by simp⟩
  obtain ⟨next, numbered⟩ := enumerates.numberedTo (none.push built)
  exact ⟨next, numbered, enumerates.isPrefix.ne_nil (List.cons_ne_nil _ _)⟩

namespace NumberedTo

variable {next : Nat}

theorem blockCount_eq (numbered : NumberedTo graphs.scopes next) : graphs.blockCount = next := by
  have ending := numbered.consecutive.ending_eq
  rw [numbered.ending_eq, List.foldr_map, Nat.zero_add] at ending
  exact ending.symm

theorem numbering_eq (numbered : NumberedTo graphs.scopes next) :
    graphs.numbering.next = ⟨graphs.blockCount⟩ := by
  have highest := numbered.consecutive.foldl_max_eq
  rw [List.map_map, numbered.ending_eq, ← numbered.blockCount_eq] at highest
  exact congrArg BlockId.mk highest

theorem ids_eq (numbered : NumberedTo graphs.scopes next) :
    graphs.scopes.toList.flatMap (·.graph.ids) = (List.range graphs.blockCount).map .mk := by
  have ids := numbered.consecutive.flatMap_ids
  rw [List.flatMap_map, List.foldr_map, ← List.range_eq_range'] at ids
  exact ids

theorem index_lt (numbered : NumberedTo graphs.scopes next) {scope : Scope}
    (listed : scope ∈ graphs.scopes.toList) {id : BlockId} (member : id ∈ scope.graph.ids) :
    id.index < graphs.blockCount := by
  have among : id ∈ graphs.scopes.toList.flatMap (·.graph.ids) :=
    List.mem_flatMap.mpr ⟨scope, listed, member⟩
  rw [numbered.ids_eq] at among
  obtain ⟨number, below, rfl⟩ := List.mem_map.mp among
  exact List.mem_range.mp below

end NumberedTo

theorem Built.le_index (built : context.Built start body last graph) {id : BlockId}
    (member : id ∈ graph.ids) : start.next.index ≤ id.index := by
  rw [built.sound.numbered.ids_eq, built.entry_eq] at member
  obtain ⟨number, _, rfl⟩ := List.mem_map.mp member
  exact Nat.le_add_right _ _

/-- The blocks of a module are numbered from zero on without gaps, scope by scope. Each graph
    knows of its own blocks only, and what is built with the numbering of the module shares
    no block id with it. -/
theorem module_numbered_without_gaps (success : context.buildModule body log = .ok graphs log') :
    (∃ top, graphs.scopes[0]? = some top ∧ top.graph.entry = ⟨0⟩) ∧
    (∀ (number : Nat) (scope after : Scope), graphs.scopes[number]? = some scope →
      graphs.scopes[number + 1]? = some after →
      after.graph.entry = scope.graph.numbering.next) ∧
    graphs.scopes.toList.flatMap (·.graph.ids) = (List.range graphs.blockCount).map .mk ∧
    (∀ scope ∈ graphs.scopes.toList, scope.graph.SelfContained) ∧
    graphs.numbering.next = ⟨graphs.blockCount⟩ ∧
    ∀ (other : Context) (later : Graph) (before after : Log),
      (∃ more, other.build graphs.numbering more before = .ok later after) ∨
        (∃ root, other.buildDef graphs.numbering root before = .ok later after) →
      ∀ scope ∈ graphs.scopes.toList, ∀ id ∈ scope.graph.ids, id ∉ later.ids := by
  obtain ⟨next, numbered, nonempty⟩ := numberedTo_of_buildModule success
  refine ⟨?_, ?_, numbered.ids_eq, ?_, numbered.numbering_eq, ?_⟩
  · obtain ⟨top, others, scopes_eq⟩ := List.exists_cons_of_ne_nil nonempty
    have first := numbered.consecutive
    rw [scopes_eq] at first
    exact ⟨top, by simp [← Array.getElem?_toList, scopes_eq], BlockId.eq_iff.mpr first.1.2⟩
  · have graphAt : ∀ {number : Nat} {scope : Scope}, graphs.scopes[number]? = some scope →
        (graphs.scopes.toList.map Scope.graph)[number]? = some scope.graph := by
      intro number scope here
      rw [List.getElem?_map, Array.getElem?_toList, here]
      rfl
    intro number scope after here behind
    exact BlockId.eq_iff.mpr
      (numbered.consecutive.entry_eq_of_getElem? (graphAt here) (graphAt behind))
  · exact fun scope listed => (numbered.regular scope listed).selfContained
  · intro other later before after building scope listed id member shared
    have below := numbered.index_lt listed member
    have success : ∃ more, other.build graphs.numbering more before = .ok later after := by
      rcases building with success | ⟨root, success⟩
      · exact success
      · obtain ⟨stmt, _, success⟩ := build_of_buildDef success
        exact ⟨stmt.body, success⟩
    obtain ⟨more, success⟩ := success
    obtain ⟨_, _, built⟩ := built_of_build success
    have above := built.le_index shared
    rw [numbered.numbering_eq] at above
    exact Nat.not_le.mpr below above

/-- A function with a loop, in a function with a branch, in a module with that same loop. -/
def functionInFunction : Context where
  pool := { slots := #[⟨0, none⟩, ⟨1, some (.define .functionDef 0 1 [⟨2, 1⟩, ⟨4, 1⟩])⟩,
    ⟨1, some (.ifElse 2 [⟨3, 1⟩] [])⟩, ⟨1, some (.returnAt 3)⟩,
    ⟨1, some (.define .functionDef 1 4 [⟨5, 1⟩])⟩, ⟨1, some (.whileLoop 5 [⟨6, 1⟩])⟩,
    ⟨1, some (.simple .pass 6)⟩] }
  dialect := .python3
  maxDepth := 2

theorem module_numbered_without_gaps_functionInFunction :
    ∃ graphs log later log',
      functionInFunction.buildModule [⟨1, 1⟩, ⟨5, 1⟩] #[] = .ok graphs log ∧
      graphs.scopes.toList.map (·.graph.entry) = [⟨0⟩, ⟨3⟩, ⟨8⟩] ∧ graphs.blockCount = 11 ∧
      graphs.scopes.toList.flatMap (·.graph.ids) = (List.range 11).map .mk ∧
      (∀ scope ∈ graphs.scopes.toList, scope.graph.SelfContained) ∧
      graphs.numbering.next = ⟨11⟩ ∧
      functionInFunction.build graphs.numbering [⟨5, 1⟩] #[] = .ok later log' ∧
      ∀ scope ∈ graphs.scopes.toList, ∀ id ∈ scope.graph.ids, id ∉ later.ids := by
  have evaluated : (functionInFunction.buildModule [⟨1, 1⟩, ⟨5, 1⟩]).outcome.1.toOption.map
      (fun graphs => (graphs.scopes.toList.map (·.graph.entry), graphs.blockCount)) =
        some ([⟨0⟩, ⟨3⟩, ⟨8⟩], 11) := by decide +kernel
  cases success : functionInFunction.buildModule [⟨1, 1⟩, ⟨5, 1⟩] #[] with
  | error failure log => simp [BuildM.outcome, EStateM.run, success, Except.toOption] at evaluated
  | ok graphs log =>
      obtain ⟨entries, count⟩ : graphs.scopes.toList.map (·.graph.entry) = [⟨0⟩, ⟨3⟩, ⟨8⟩] ∧
          graphs.blockCount = 11 := by
        simpa [BuildM.outcome, EStateM.run, success, Except.toOption] using evaluated
      obtain ⟨_, _, ids, within, next, apart⟩ := module_numbered_without_gaps success
      rw [count] at ids next
      have continued : ∃ later log',
          functionInFunction.build graphs.numbering [⟨5, 1⟩] #[] = .ok later log' :=
        build_succeeds (by decide) (by rw [next]; decide) #[]
      obtain ⟨later, log', continued⟩ := continued
      exact ⟨graphs, log, later, log', rfl, entries, count, ids, within, next, continued,
        apart _ _ _ _ (.inl ⟨_, continued⟩)⟩

end Context

end FlowGraph
