import FlowGraph.Proofs.Isolation

/-! # How many blocks and edges a body has

The rules of the statements in the walk of a body say how large its graph is. A branch
opens three blocks and a loop two, and each of them has four edges, also when its body ends
with a jump; a jump opens the block behind it. So it is known beforehand from which numbers
on a body can be built.
-/

namespace FlowGraph

theorem Graph.edgeCount_eq_length (graph : Graph) :
    graph.edgeCount = (graph.blocks.toList.flatMap (·.successors)).length := by
  unfold edgeCount
  induction graph.blocks.toList with
  | nil => rfl
  | cons block blocks ih => rw [List.foldr_cons, ih, List.flatMap_cons, List.length_append]

theorem Graph.length_edges (graph : Graph) : graph.edges.length = graph.edgeCount := by
  rw [edgeCount_eq_length]
  simp only [edges, List.length_flatMap, List.length_map]

theorem Graph.Numbered.edgeCount_eq {graph : Graph} (numbered : graph.Numbered) :
    graph.edgeCount = (graph.ids.flatMap graph.successors).length := by
  have own : graph.blocks.toList.map (·.successors) =
      graph.blocks.toList.map fun block => graph.successors block.id := by
    exact List.map_congr_left fun block member => (numbered.successors_eq member).symm
  rw [edgeCount_eq_length, List.flatMap_def, own, ids, List.flatMap_map, List.flatMap_def]

namespace Context

/-- How many statements of a walk have a rule, each counted as often as it occurs. -/
def occurrences (context : Context) (walk : List StmtId) (rule : Rule) : Nat :=
  walk.countP fun id => context.rule? id = some rule

/-- The blocks of a graph with the given walk: the entry, the arms of branches and the blocks
    where they join, the bodies and the ends of loops, and what follows a jump. -/
def blocksFor (context : Context) (walk : List StmtId) : Nat :=
  1 + 3 * context.occurrences walk .branch + 2 * context.occurrences walk .loop +
    context.occurrences walk .returns + context.occurrences walk .breaks +
    context.occurrences walk .continues

/-- The edges of a graph with the given walk: four for a branch or a loop, and one for a jump
    that stays in the graph. -/
def edgesFor (context : Context) (walk : List StmtId) : Nat :=
  4 * context.occurrences walk .branch + 4 * context.occurrences walk .loop +
    context.occurrences walk .breaks + context.occurrences walk .continues

variable {context : Context} {inLoop : Bool} {ids walk : List StmtId} {flow : Flow}
  {id : StmtId} {stmt : Stmt} {rule : Rule}

theorem occurrences_append (before behind : List StmtId) (rule : Rule) :
    context.occurrences (before ++ behind) rule =
      context.occurrences before rule + context.occurrences behind rule :=
  List.countP_append

theorem occurrences_cons (treats : context.Treats id stmt rule) (counted : Rule) :
    context.occurrences (id :: walk) counted =
      context.occurrences walk counted + if rule = counted then 1 else 0 := by
  simp only [occurrences, List.countP_cons, treats.rule?_eq, Option.some.injEq, decide_eq_true_eq]

/-- A flow opens the blocks that the rules of its statements ask for. -/
theorem blocksFor_stmts (reads : context.Reads inLoop ids flow) :
    context.blocksFor flow.stmts = 1 + flow.width := by
  unfold blocksFor
  induction reads with
  | done => rfl
  | plain treats _ ih | deferred treats _ ih =>
      simp only [Flow.stmts, Flow.width, occurrences_cons treats, reduceCtorEq, if_false] at ih ⊢
      omega
  | branch treats _ _ _ ihBody ihOrelse ih =>
      simp only [Flow.stmts, Flow.width, occurrences_cons treats, occurrences_append, reduceCtorEq,
        if_false, if_true] at ihBody ihOrelse ih ⊢
      omega
  | loop treats _ _ ihBody ih =>
      simp only [Flow.stmts, Flow.width, occurrences_cons treats, occurrences_append, reduceCtorEq,
        if_false, if_true] at ihBody ih ⊢
      omega
  | returns treats _ ih | breaks treats _ ih | continues treats _ ih =>
      simp only [Flow.stmts, Flow.width, occurrences_cons treats, reduceCtorEq, if_false,
        if_true] at ih ⊢
      omega

/-- The pieces of a flow have the edges that the rules of its statements ask for, and those
    that lead on from its end. -/
theorem edgesFor_stmts (reads : context.Reads inLoop ids flow) {frame : Option LoopFrame}
    (framed : frame.isSome = inLoop) (before : List StmtId) (cursor : BlockId) (next : Nat)
    (out : List BlockId) :
    ((flow.pieces before cursor next frame out).flatMap (·.successors)).length =
      context.edgesFor flow.stmts + out.length := by
  unfold edgesFor
  induction reads generalizing before cursor next frame out with
  | done => simp [Flow.pieces, Flow.stmts, occurrences]
  | plain treats _ ih | deferred treats _ ih =>
      simp only [Flow.stmts, Flow.pieces, occurrences_cons treats, reduceCtorEq, if_false,
        ih framed]
      omega
  | branch treats _ _ _ ihBody ihOrelse ih =>
      simp only [Flow.stmts, Flow.pieces, occurrences_cons treats, occurrences_append,
        List.flatMap_cons, List.flatMap_append, List.length_append, List.length_cons,
        List.length_nil, reduceCtorEq, if_false, if_true, ihBody framed, ihOrelse framed,
        ih framed]
      omega
  | loop treats _ _ ihBody ih =>
      simp only [Flow.stmts, Flow.pieces, occurrences_cons treats, occurrences_append,
        List.flatMap_cons, List.flatMap_append, List.length_append, List.length_cons,
        List.length_nil, reduceCtorEq, if_false, if_true, ihBody Option.isSome_some, ih framed]
      omega
  | returns treats _ ih =>
      simp only [Flow.stmts, Flow.pieces, Jump.targets, occurrences_cons treats, List.flatMap_cons,
        List.nil_append, reduceCtorEq, if_false, ih framed]
      omega
  | breaks treats _ ih | continues treats _ ih =>
      -- only a jump inside a loop has somewhere to go
      obtain ⟨inner, rfl⟩ := Option.isSome_iff_exists.mp framed
      simp only [Flow.stmts, Flow.pieces, Jump.targets, occurrences_cons treats, List.flatMap_cons,
        Option.toList_some, List.map_cons, List.map_nil, List.length_append, List.length_cons,
        List.length_nil, reduceCtorEq, if_false, if_true, ih framed]
      omega

section Build

variable {start : Numbering} {body : List StmtId} {last : BlockId} {graph : Graph} {log log' : Log}

theorem Built.size_eq (built : context.Built start body last graph) :
    graph.size = context.blocksFor (context.visited body) := by
  rw [(Graph.history_performAll built.laid).size, Flow.countP_isCreate_script, built.stmts_eq,
    blocksFor_stmts built.reads]
  rfl

theorem Built.edgeCount_eq (built : context.Built start body last graph) :
    graph.edgeCount = context.edgesFor (context.visited body) := by
  have shown : (context.pieces start body).map (fun piece => graph.successors piece.id) =
      (context.pieces start body).map (·.successors) :=
    List.map_congr_left fun piece member => (built.shows piece member).successors_eq
  rw [built.sound.numbered.edgeCount_eq,
    ← (built.perm_ids.flatMap_right graph.successors).length_eq, List.flatMap_map,
    List.flatMap_def, shown, ← List.flatMap_def, pieces,
    edgesFor_stmts built.reads rfl, built.stmts_eq, List.length_nil, Nat.add_zero]

theorem exists_build_iff_room (accepted : context.firstFault? body = none) (start : Numbering)
    (log : Log) : (∃ graph log', context.build start body log = .ok graph log') ↔
      start.next.index + context.blocksFor (context.visited body) ≤ 4294967295 := by
  obtain ⟨reads, walk_eq⟩ := reads_of_faultless accepted
  have blocks : context.blocksFor (context.visited body) = 1 + (context.bodyFlow body).width :=
    (congrArg context.blocksFor walk_eq).trans (blocksFor_stmts reads)
  constructor
  · rintro ⟨graph, log', success⟩
    obtain ⟨_, _, built⟩ := built_of_build success
    have below := next_lt_of_built built (next_lt_of_build success).1
    simp only [BlockId.limit] at below
    omega
  · intro room
    apply build_succeeds accepted
    simp only [BlockId.limit]
    omega

/-- A body that is accepted can be built from exactly those numbers that leave room for the
    blocks of its walk, and runs out of block ids from any other. Its graph has these blocks
    and the edges of its walk. -/
theorem built_iff_room (accepted : context.firstFault? body = none) :
    ∃ walk, (∀ other, context.Unfolds body other ↔ other = walk) ∧
      ∀ (start : Numbering) (log : Log),
        ((∃ graph log', context.build start body log = .ok graph log') ↔
          start.next.index + context.blocksFor walk ≤ 4294967295) ∧
        (4294967295 < start.next.index + context.blocksFor walk →
          RanOut (context.build start body log)) ∧
        ∀ graph log', context.build start body log = .ok graph log' →
          graph.size = context.blocksFor walk ∧ graph.edges.length = context.edgesFor walk ∧
          graph.edgeCount = context.edgesFor walk ∧
          graph.numbering.next = ⟨start.next.index + context.blocksFor walk⟩ := by
  obtain ⟨reads, walk_eq⟩ := reads_of_faultless accepted
  have unfolds : context.Unfolds body (context.visited body) := by
    rw [visited, visits, walk_eq]
    exact unfolds_of_reads reads
  refine ⟨context.visited body, fun other => ?_, fun start log => ?_⟩
  · constructor
    · exact fun unfolds' => unfolds'.unique unfolds
    · rintro rfl
      exact unfolds
  have room_iff := exists_build_iff_room accepted start log
  refine ⟨room_iff, fun full => ?_, ?_⟩
  · by_cases ran : RanOut (context.build start body log)
    · exact ran
    · have decided := decided_build ran
      rw [accepted] at decided
      exact absurd (room_iff.mp decided) (Nat.not_le.mpr full)
  · intro graph log' success
    obtain ⟨_, _, built⟩ := built_of_build success
    refine ⟨built.size_eq, graph.length_edges.trans built.edgeCount_eq, built.edgeCount_eq, ?_⟩
    rw [← built.size_eq, ← built.entry_eq]
    exact built.sound.numbered.numbering_eq

/-- A loop that occurs twice, with a branch in it that ends or repeats its turns. -/
def repeatedLoop : Context where
  pool := { slots := #[⟨0, none⟩, ⟨1, some (.whileLoop 1 [⟨2, 1⟩])⟩,
    ⟨1, some (.ifElse 2 [⟨3, 1⟩] [⟨4, 1⟩])⟩, ⟨1, some (.breakAt 3)⟩, ⟨1, some (.continueAt 4)⟩,
    ⟨1, some (.returnAt 5)⟩] }
  dialect := .python3
  maxDepth := 2

theorem built_iff_room_repeatedLoop :
    (∃ graph log, repeatedLoop.build ⟨⟨4294967279⟩⟩ [⟨1, 1⟩, ⟨5, 1⟩, ⟨1, 1⟩] #[] = .ok graph log ∧
      graph.size = 16 ∧ graph.edgeCount = 20 ∧ graph.numbering.next = ⟨4294967295⟩) ∧
    RanOut (repeatedLoop.build ⟨⟨4294967280⟩⟩ [⟨1, 1⟩, ⟨5, 1⟩, ⟨1, 1⟩] #[]) := by
  have accepted : repeatedLoop.firstFault? [⟨1, 1⟩, ⟨5, 1⟩, ⟨1, 1⟩] = none := by decide
  have unfolds : repeatedLoop.Unfolds [⟨1, 1⟩, ⟨5, 1⟩, ⟨1, 1⟩] [⟨1, 1⟩, ⟨2, 1⟩, ⟨3, 1⟩, ⟨4, 1⟩,
      ⟨5, 1⟩, ⟨1, 1⟩, ⟨2, 1⟩, ⟨3, 1⟩, ⟨4, 1⟩] := unfolds_of_reads (reads_of_faultless accepted).1
  obtain ⟨walk, walk_iff, counted⟩ := built_iff_room accepted
  obtain rfl := (walk_iff _).mp unfolds
  obtain ⟨room_iff, _, counts⟩ := counted ⟨⟨4294967279⟩⟩ #[]
  obtain ⟨_, full, _⟩ := counted ⟨⟨4294967280⟩⟩ #[]
  constructor
  · obtain ⟨graph, log, success⟩ := room_iff.mpr (by decide)
    obtain ⟨size, _, edgeCount, next⟩ := counts graph log success
    exact ⟨graph, log, success, size, edgeCount, next⟩
  · exact full (by decide)

end Build

end Context

end FlowGraph
