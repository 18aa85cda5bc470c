import FlowGraph.Proofs.Extension

/-! # What a walk leaves as it was

A walk of a sequence begins at a cursor to which nothing was added yet that ends it, and it ends
at one like that. In between it writes to the cursor and to the blocks that it makes itself.
To the blocks of the loops around it the walk adds nothing but ways into the innermost of them,
from the blocks it writes to. So the end of the body of a loop is always open, and control can be
led on from there without a look at it.
-/

namespace FlowGraph

namespace Operation

variable {operation : Operation} {source target : BlockId}

theorem eq_link_of_mem_sources (member : source ∈ operation.sources target) :
    operation = .link source target := by
  cases operation <;> simp_all [sources]

end Operation

namespace Flow

theorem region_of_mem_sources {flow : Flow} {cursor source target : BlockId} {next : Nat}
    {frame : Option LoopFrame}
    (member : source ∈ (flow.script cursor next frame).flatMap (Operation.sources target)) :
    flow.Region cursor next source := by
  obtain ⟨operation, performed, leads⟩ := List.mem_flatMap.mp member
  obtain rfl := Operation.eq_link_of_mem_sources leads
  exact region_of_subject performed rfl

end Flow

theorem Graph.Numbered.sound {graph : Graph} (numbered : graph.Numbered)
    (consistent : graph.Consistent) : graph.Sound := by
  refine ⟨numbered, ?_, ?_⟩
  · intro id
    cases here : graph.block? id with
    | none => simp [successors, here]
    | some block =>
        rw [successors, here]
        exact (consistent block (mem_blocks_of_block? here)).1
  · intro source target
    constructor
    · intro edge
      cases here : graph.block? source with
      | none => simp [successors, here] at edge
      | some block =>
          rw [successors, here] at edge
          have noted := (consistent block (mem_blocks_of_block? here)).2.1 target edge
          rwa [numbered.id_eq source block here] at noted
    · intro edge
      cases here : graph.block? target with
      | none => simp [predecessors, here] at edge
      | some block =>
          rw [predecessors, here] at edge
          have noted := (consistent block (mem_blocks_of_block? here)).2.2 source edge
          rwa [numbered.id_eq target block here] at noted

namespace WalkState

/-- A walk can begin at the cursor: every edge is noted at both ends, the cursor is open and none
    of the blocks of the innermost loop, and the blocks of all loops are there. -/
structure Poised (state : WalkState) (cursor : BlockId) : Prop where
  numbered : state.graph.Numbered
  consistent : state.graph.Consistent
  known : state.graph.contains cursor = true
  running : state.graph.isTerminal cursor = false
  unlinked : state.graph.successors cursor = []
  frames : ∀ frame ∈ state.loops,
    state.graph.contains frame.header = true ∧ state.graph.contains frame.exit = true
  apart : ∀ frame ∈ state.loops.head?, cursor ≠ frame.header ∧ cursor ≠ frame.exit

variable {state after : WalkState} {cursor last id : BlockId} {flow : Flow} {frame : LoopFrame}

theorem Poised.ready (poised : state.Poised cursor) : state.Ready cursor :=
  ⟨poised.numbered.sound poised.consistent, poised.known, poised.running, poised.unlinked,
    poised.frames⟩

theorem not_region_of_contains (flow : Flow) (known : state.graph.contains id = true)
    (other : id ≠ cursor) : ¬ flow.Region cursor state.graph.next id := by
  have below := (Graph.contains_iff.mp known).2
  rintro (same | inside)
  · exact other same
  · omega

namespace Laid

variable (laid : state.Laid flow cursor last after)

include laid

theorem poised (poised : state.Poised cursor) : after.Poised last := by
  obtain ⟨sound, known, running, unlinked, frames⟩ := laid.ready poised.ready
  refine ⟨sound.numbered, sound.consistent, known, running, unlinked, frames, ?_⟩
  intro frame inner
  rw [laid.after.loops] at inner
  obtain ⟨notHeader, notExit⟩ := poised.apart frame inner
  obtain ⟨header, exit⟩ := poised.frames frame (List.mem_of_mem_head? inner)
  have ends := flow.region_finish cursor state.graph.next
  rw [← laid.last_eq] at ends
  constructor
  · rintro rfl
    exact not_region_of_contains flow header notHeader.symm ends
  · rintro rfl
    exact not_region_of_contains flow exit notExit.symm ends

/-- The blocks that were there before are as they were, but for the cursor and the blocks of the
    innermost loop. -/
theorem block?_eq (numbered : state.graph.Numbered) (known : state.graph.contains id = true)
    (other : id ≠ cursor)
    (apart : ∀ frame ∈ state.loops.head?, id ≠ frame.header ∧ id ≠ frame.exit) :
    after.graph.block? id = state.graph.block? id := by
  have outside := not_region_of_contains flow known other
  apply laid.after.history.block?_eq numbered known
  · intro operation member subject
    exact outside (Flow.region_of_subject member subject)
  · intro operation member object
    rcases Flow.region_of_object member object with inside | ⟨frame, inner, same⟩
    · exact outside inside
    · exact same.elim (apart frame inner).1 (apart frame inner).2

/-- To an old block that is not the cursor at most ways in are added, from the cursor and from
    new blocks. -/
theorem exists_added {block : Block} (poised : state.Poised cursor)
    (here : state.graph.block? id = some block) (other : id ≠ cursor) :
    ∃ added, after.graph.block? id =
        some { block with predecessors := block.predecessors ++ added } ∧
      ∀ source ∈ added, source = cursor ∨
        state.graph.contains source = false ∧ after.graph.contains source = true := by
  have outside := not_region_of_contains flow (Graph.contains_of_block? here) other
  refine ⟨_, laid.after.history.block?_eq_of_unwritten poised.numbered here
    fun operation member subject => outside (Flow.region_of_subject member subject), ?_⟩
  intro source member
  refine (Flow.region_of_mem_sources member).imp_right fun inside => ?_
  have bounds := Graph.contains_iff.mp poised.known
  have base := laid.after.history.base
  have next := laid.next
  rw [← Bool.not_eq_true, Graph.contains_iff, Graph.contains_iff]
  omega

end Laid

end WalkState

theorem WalkM.bind_congr {α β : Type} {first first' : WalkM α} {next next' : α → WalkM β}
    {state : WalkState} {log : Log} (alike : first state log = first' state log)
    (onward : ∀ value after mid, first state log = .ok (value, after) mid →
      next value after mid = next' value after mid) :
    (first >>= next) state log = (first' >>= next') state log :=
  BuildM.bind_congr alike fun pair mid went => onward pair.1 pair.2 mid went

namespace Context

open WalkM

variable {context : Context} {levels : Nat} {cursor : BlockId} {ids : List StmtId} {id : StmtId}
  {stmt : Stmt} {state : WalkState} {log : Log}

/-- The walk of a loop that leads control on from the end of the body without a look at it. -/
def walkLoopThrough (context : Context) (walk : BlockId → List StmtId → WalkM BlockId)
    (header : BlockId) (id : StmtId) (stmt : Stmt) : WalkM BlockId :=
  if !stmt.orelse.isEmpty then
    context.unsupported (stmt.kind.loopKeyword ++ "-else") id stmt
  else if stmt.hasClauses then context.unsupported stmt.kind.name id stmt
  else do
    let entries ← fork header id (.looped header)
    enterLoop ⟨header, entries.2⟩
    let bodyExit ← walk entries.1 stmt.body
    leaveLoop
    link bodyExit header
    link bodyExit entries.2
    return entries.2

theorem finishLoop_eq {header exit bodyExit : BlockId} (ready : state.Ready bodyExit) :
    finishLoop header exit bodyExit state log =
      (do
        leaveLoop
        link bodyExit header
        link bodyExit exit
        return exit : WalkM BlockId) state log := by
  obtain ⟨block, here⟩ := Option.isSome_iff_exists.mp (Graph.block?_isSome.trans ready.known)
  have unlinked : block.successors = [] := by simpa [Graph.successors, here] using ready.unlinked
  unfold finishLoop
  refine WalkM.bind_congr rfl fun _ left mid leaving => ?_
  cases leaving
  have found : WalkM.block bodyExit ⟨state.graph, state.loops.tail⟩ log =
      .ok (block, ⟨state.graph, state.loops.tail⟩) log := by
    simp only [WalkM.block, Graph.block, here]
    rfl
  refine (BuildM.bind_of_ok found).trans ?_
  simp only [unlinked, List.isEmpty_nil, if_true]

/-- The walk of a statement that leads control on from the end of the body of every loop without a
    look at it. -/
def walkThrough (context : Context) (levels : Nat) (cursor : BlockId) (id : StmtId) :
    WalkM BlockId :=
  match levels, context.pool.get? id with
  | _, none => .refuse (.missingStatement id)
  | 0, some stmt => .refuse (.nestingTooDeep id stmt.line context.maxDepth)
  | levels + 1, some stmt =>
      let within (entry : BlockId) (ids : List StmtId) : WalkM BlockId :=
        ids.foldlM (context.walkThrough levels) entry
      if context.dialect.ruleOf? stmt = some .loop then do
        WalkM.record (.visited stmt.line stmt.kind .loop cursor)
        context.walkLoopThrough within cursor id stmt
      else context.visit within cursor id stmt

section Through

variable {walk : BlockId → List StmtId → WalkM BlockId}
  (same : ∀ entry ids inside mid, inside.Ready entry →
    context.walkSeq levels entry ids inside mid = walk entry ids inside mid)

include same

theorem walkLoop_eq_through (ready : state.Ready cursor) :
    context.walkLoop (context.walkSeq levels) cursor id stmt state log =
      context.walkLoopThrough walk cursor id stmt state log := by
  rw [walkLoop_eq, walkLoopThrough]
  split
  · rfl
  split
  · rfl
  refine WalkM.bind_congr rfl fun entries forked mid forking => ?_
  obtain ⟨rfl, opened⟩ := fork_eq_ok ready forking
  have inside := ready.enter opened
  refine WalkM.bind_congr rfl fun _ entered mid entering => ?_
  cases entering
  refine WalkM.bind_congr (same _ _ _ _ inside) fun bodyExit after mid walked => ?_
  -- the body begins at a new block, so its end is open as the end of any walk
  exact finishLoop_eq ((laid_of_walkSeq inside walked).2.ready inside)

theorem walkBranch_congr (ready : state.Ready cursor) :
    context.walkBranch (context.walkSeq levels) cursor id stmt state log =
      context.walkBranch walk cursor id stmt state log := by
  rw [walkBranch_eq, walkBranch_eq]
  split
  · rfl
  refine WalkM.bind_congr rfl fun entries forked mid forking => ?_
  obtain ⟨rfl, opened⟩ := fork_eq_ok ready forking
  have first := ready.fork opened (.inl rfl)
  refine WalkM.bind_congr (same _ _ _ _ first) fun left after mid walked => ?_
  have laid := (laid_of_walkSeq first walked).2.after
  have next : forked.graph.next = state.graph.next + 2 := opened.history.next
  rw [next] at laid
  exact WalkM.bind_congr (same _ _ _ _ (ready.fork_second opened laid)) fun _ _ _ _ => rfl

end Through

theorem walkSeq_eq_through
    (alike : ∀ cursor id state log, state.Ready cursor →
      context.walkStmt levels cursor id state log = context.walkThrough levels cursor id state log)
    (ready : state.Ready cursor) :
    context.walkSeq levels cursor ids state log =
      ids.foldlM (context.walkThrough levels) cursor state log := by
  induction ids generalizing cursor state log with
  | nil => rfl
  | cons id ids ih =>
      rw [walkSeq, List.foldlM_cons, List.foldlM_cons]
      refine WalkM.bind_congr (alike _ _ _ _ ready) fun next after mid walked => ?_
      exact ih ((laid_of_walkStmt ready walked).2.ready ready)

theorem walkStmt_eq_through (ready : state.Ready cursor) :
    context.walkStmt levels cursor id state log =
      context.walkThrough levels cursor id state log := by
  induction levels generalizing cursor id state log with
  | zero =>
      unfold walkThrough
      cases kept : context.pool.get? id with
      | none => rw [walkStmt_of_missing kept]
      | some stmt => rw [walkStmt_zero kept]
  | succ levels ih =>
      unfold walkThrough
      cases kept : context.pool.get? id with
      | none => rw [walkStmt_of_missing kept]
      | some stmt =>
          have same : ∀ entry ids inside mid, WalkState.Ready inside entry →
              context.walkSeq levels entry ids inside mid =
                ids.foldlM (context.walkThrough levels) entry inside mid :=
            fun _ _ _ _ begun => walkSeq_eq_through (fun _ _ _ _ => ih) begun
          rw [walkStmt_succ kept]
          simp only [visit]
          cases treated : context.dialect.ruleOf? stmt with
          | none => rfl
          | some rule =>
              cases rule with
              | sequential | deferred | returns | breaks | continues | unsupported => rfl
              | branch =>
                  refine WalkM.bind_congr rfl ?_
                  rintro _ _ _ ⟨⟩
                  exact walkBranch_congr same ready
              | loop =>
                  refine WalkM.bind_congr rfl ?_
                  rintro _ _ _ ⟨⟩
                  exact walkLoop_eq_through same ready

/-- A walk that goes through ends at a block at which one can begin again, in the same loops. Of
    the blocks that were there before, it has changed the cursor and given the blocks of the
    innermost loop more ways in, behind the others and from the cursor or from new blocks. The end
    of the body of each loop in the walk is such a block too, so control is always led on from
    there. -/
theorem walk_leaves_rest_alone (poised : state.Poised cursor) :
    (∀ last after log', context.walkSeq levels cursor ids state log = .ok (last, after) log' →
      after.Poised last ∧ after.loops = state.loops ∧
      (∀ id, state.graph.contains id = true → id ≠ cursor →
        (∀ frame ∈ state.loops.head?, id ≠ frame.header ∧ id ≠ frame.exit) →
        after.graph.block? id = state.graph.block? id) ∧
      ∀ frame ∈ state.loops.head?, ∀ id, id = frame.header ∨ id = frame.exit →
        ∃ block added, state.graph.block? id = some block ∧
          after.graph.block? id =
            some { block with predecessors := block.predecessors ++ added } ∧
          ∀ source ∈ added, source = cursor ∨
            state.graph.contains source = false ∧ after.graph.contains source = true) ∧
    context.walkSeq levels cursor ids state log =
      ids.foldlM (context.walkThrough levels) cursor state log := by
  refine ⟨?_, walkSeq_eq_through (fun _ _ _ _ => walkStmt_eq_through) poised.ready⟩
  intro last after log' walked
  obtain ⟨_, laid⟩ := laid_of_walkSeq poised.ready walked
  refine ⟨laid.poised poised, laid.after.loops, ?_, ?_⟩
  · intro id known other apart
    exact laid.block?_eq poised.numbered known other apart
  · intro frame inner id ofLoop
    obtain ⟨notHeader, notExit⟩ := poised.apart frame inner
    obtain ⟨header, exit⟩ := poised.frames frame (List.mem_of_mem_head? inner)
    have old : state.graph.contains id = true ∧ id ≠ cursor := by
      rcases ofLoop with rfl | rfl
      · exact ⟨header, notHeader.symm⟩
      · exact ⟨exit, notExit.symm⟩
    obtain ⟨block, here⟩ := Option.isSome_iff_exists.mp (Graph.block?_isSome.trans old.1)
    obtain ⟨added, after_eq, sources⟩ := laid.exists_added poised here old.2
    exact ⟨block, added, here, after_eq, sources⟩

/-- A loop in a loop, as the walk finds it when it comes to the body of the inner one. -/
def insideTwoLoops : WalkState where
  graph :=
    { entry := ⟨0⟩
      base := 0
      blocks := #[{ id := ⟨0⟩, successors := [⟨1⟩, ⟨2⟩] },
        { id := ⟨1⟩, predecessors := [⟨0⟩], successors := [⟨3⟩, ⟨4⟩] },
        { id := ⟨2⟩, predecessors := [⟨0⟩] }, { id := ⟨3⟩, predecessors := [⟨1⟩] },
        { id := ⟨4⟩, predecessors := [⟨1⟩] }]
      numbering := ⟨⟨5⟩⟩ }
  loops := [⟨⟨1⟩, ⟨4⟩⟩, ⟨⟨0⟩, ⟨2⟩⟩]

/-- A branch with a jump in each arm, and a loop behind it. -/
def jumpsInArms : Context where
  pool := { slots := #[⟨0, none⟩, ⟨1, some (.ifElse 1 [⟨2, 1⟩] [⟨3, 1⟩])⟩,
    ⟨1, some (.breakAt 2)⟩, ⟨1, some (.continueAt 3)⟩, ⟨1, some (.whileLoop 4 [⟨5, 1⟩])⟩,
    ⟨1, some (.simple .pass 5)⟩] }
  dialect := .python3

theorem walk_leaves_rest_alone_insideTwoLoops :
    insideTwoLoops.Poised ⟨3⟩ ∧ ∃ last after log,
      jumpsInArms.walkSeq 2 ⟨3⟩ [⟨1, 1⟩, ⟨4, 1⟩] insideTwoLoops #[] = .ok (last, after) log ∧
      after.Poised last ∧ after.loops = insideTwoLoops.loops ∧
      after.graph.block? ⟨0⟩ = insideTwoLoops.graph.block? ⟨0⟩ ∧
      after.graph.block? ⟨2⟩ = insideTwoLoops.graph.block? ⟨2⟩ := by
  have laid : (Graph.blank ⟨0⟩).performAll [.create, .create, .link ⟨0⟩ ⟨1⟩, .link ⟨0⟩ ⟨2⟩,
      .create, .create, .link ⟨1⟩ ⟨3⟩, .link ⟨1⟩ ⟨4⟩] = .ok insideTwoLoops.graph := rfl
  have sound := (Graph.sound_blank ⟨0⟩).performAll laid
  have poised : insideTwoLoops.Poised ⟨3⟩ :=
    ⟨sound.numbered, sound.consistent, rfl, rfl, rfl, by decide, by decide⟩
  have evaluated : (jumpsInArms.walkSeq 2 ⟨3⟩ [⟨1, 1⟩, ⟨4, 1⟩]
      insideTwoLoops).outcome.1.toOption.map Prod.fst = some ⟨11⟩ := by decide +kernel
  obtain ⟨⟨last, after⟩, log, walked, _⟩ := BuildM.exists_of_outcome evaluated
  obtain ⟨ready, loops, others, _⟩ := (walk_leaves_rest_alone poised).1 last after log walked
  exact ⟨poised, last, after, log, walked, ready, loops, others ⟨0⟩ rfl (by decide) (by decide),
    others ⟨2⟩ rfl (by decide) (by decide)⟩

end Context

end FlowGraph
