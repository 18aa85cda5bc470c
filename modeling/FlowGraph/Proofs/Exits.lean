import FlowGraph.Proofs.Pieces

/-! # How control leaves a block

Only the last statement of a block can be one after which control does not simply go
on. Its rule says whether control ends there and which ways out the block has; a block
that ends otherwise was left open by the sequence that put it there, and it was closed
by what is around that sequence. Just the block where the walk ended stays open.
-/

namespace FlowGraph

theorem Graph.Shows.of_block? {graph : Graph} {id : BlockId} {statements : List StmtId}
    {successors : List BlockId} {terminal : Bool} {block : Block}
    (shows : graph.Shows id statements successors terminal) (here : graph.block? id = some block) :
    block.statements = statements ∧ block.successors = successors ∧ block.terminal = terminal := by
  refine ⟨?_, ?_, ?_⟩
  · simpa [Graph.statements, here] using shows.statements_eq
  · simpa [Graph.successors, here] using shows.successors_eq
  · simpa [Graph.isTerminal, here] using shows.isTerminal_eq

theorem Graph.Shows.exists_block {graph : Graph} {id : BlockId} {before : List StmtId}
    {stmt : StmtId} {successors : List BlockId} {terminal : Bool}
    (shows : graph.Shows id (before ++ [stmt]) successors terminal) :
    ∃ block, graph.block? id = some block := by
  have listed : stmt ∈ graph.statements id := by simp [shows.statements_eq]
  exact Option.isSome_iff_exists.mp (block?_isSome.trans (contains_of_mem_statements listed))

namespace Context

/-- A statement after which control goes on in the same block. -/
def GoesOn (context : Context) (id : StmtId) : Prop :=
  context.rule? id = some .sequential ∨ context.rule? id = some .deferred

/-- The block ends with a statement of the given rule. -/
def EndsBy (context : Context) (block : Block) (rule : Rule) : Prop :=
  ∃ id, block.last? = some id ∧ context.rule? id = some rule

/-- The ways out of a block that was left open at the end of a sequence: none, the block
    where two arms join, or the header and the end of a loop. -/
def Rejoins (context : Context) (graph : Graph) (targets : List BlockId) : Prop :=
  targets = [] ∨ (∃ join, targets = [join]) ∨
    ∃ header exit, targets = [header, exit] ∧ ∃ block entry, graph.block? header = some block ∧
      context.EndsBy block .loop ∧ block.successors = [entry, exit]

/-- How control leaves a block, by the rule of the statement that ends it. -/
def Leaves (context : Context) (graph : Graph) (targets : List BlockId) (terminal : Bool) :
    Rule → Prop
  | .returns => terminal = true ∧ targets = []
  | .branch | .loop => terminal = false ∧ ∃ number, targets = [⟨number⟩, ⟨number + 1⟩]
  | .breaks | .continues => terminal = false ∧ ∃ target, targets = [target]
  | .sequential | .deferred => terminal = false ∧ context.Rejoins graph targets
  | .unsupported => False

/-- Control goes on in a block up to its last statement and leaves it as that statement
    says. An empty block is left like one that ends with a plain statement. -/
structure Shaped (context : Context) (graph : Graph) (block : Block) : Prop where
  inner : ∀ id ∈ block.statements.dropLast, context.GoesOn id
  ended : ∀ id, block.last? = some id →
    ∃ rule, context.EndsBy block rule ∧ context.Leaves graph block.successors block.terminal rule
  empty : block.statements = [] →
    context.Leaves graph block.successors block.terminal .sequential

section Shaped

variable {context : Context} {graph : Graph} {block : Block} {before : List StmtId} {id : StmtId}
  {stmt : Stmt} {rule : Rule} {targets : List BlockId} {terminal : Bool}

theorem endsBy_of_treats (statements : block.statements = before ++ [id])
    (treats : context.Treats id stmt rule) : context.EndsBy block rule :=
  ⟨id, by simp [Block.last?, statements], treats.rule?_eq⟩

theorem EndsBy.unique {other : Rule} (left : context.EndsBy block rule)
    (right : context.EndsBy block other) : rule = other := by
  obtain ⟨id, last, ruled⟩ := left
  obtain ⟨id', last', ruled'⟩ := right
  rw [last, Option.some.injEq] at last'
  rw [← last', ruled, Option.some.injEq] at ruled'
  exact ruled'

theorem shaped_of_leaves (goesOn : ∀ id ∈ before, context.GoesOn id)
    (treats : context.Treats id stmt rule)
    (shows : graph.Shows block.id (before ++ [id]) targets terminal)
    (leaves : context.Leaves graph targets terminal rule)
    (here : graph.block? block.id = some block) : context.Shaped graph block := by
  obtain ⟨statements, rfl, rfl⟩ := shows.of_block? here
  constructor
  · simpa [statements] using goesOn
  · exact fun _ _ => ⟨rule, endsBy_of_treats statements treats, leaves⟩
  · simp [statements]

theorem shaped_of_rejoins (goesOn : ∀ id ∈ before, context.GoesOn id)
    (shows : graph.Shows block.id before targets false) (rejoins : context.Rejoins graph targets)
    (here : graph.block? block.id = some block) : context.Shaped graph block := by
  obtain ⟨rfl, rfl, terminal⟩ := shows.of_block? here
  have leaves : context.Leaves graph block.successors block.terminal .sequential :=
    ⟨terminal, rejoins⟩
  constructor
  · exact fun id member => goesOn id (List.dropLast_subset _ member)
  · intro id last
    rcases goesOn id (List.mem_of_getLast? last) with ruled | ruled
    · exact ⟨.sequential, ⟨id, last, ruled⟩, leaves⟩
    · exact ⟨.deferred, ⟨id, last, ruled⟩, leaves⟩
  · exact fun _ => leaves

theorem Shaped.terminal_iff (shaped : context.Shaped graph block) :
    block.terminal = true ↔ context.EndsBy block .returns := by
  constructor
  · intro terminal
    cases last : block.last? with
    | none =>
        have leaves := shaped.empty (List.getLast?_eq_none_iff.mp last)
        simp [Leaves, terminal] at leaves
    | some id =>
        obtain ⟨rule, endsBy, leaves⟩ := shaped.ended id last
        cases rule with
        | returns => exact endsBy
        | sequential | deferred | branch | loop | breaks | continues | unsupported =>
            simp [Leaves, terminal] at leaves
  · intro returns
    have ⟨id, last, _⟩ := returns
    obtain ⟨rule, endsBy, leaves⟩ := shaped.ended id last
    obtain rfl := endsBy.unique returns
    exact leaves.1

end Shaped

/-- The last of some pieces is left open, with `out` as its ways out, and all the others
    are closed. -/
def LeavesOpen (pieces : List Piece) (last : BlockId) (out : List BlockId) : Prop :=
  ∃ front statements, pieces = front ++ [⟨last, statements, out, false⟩] ∧
    ∀ piece ∈ front, piece.terminal = true ∨ piece.successors ≠ []

theorem LeavesOpen.cons {piece : Piece} {pieces : List Piece} {last : BlockId}
    {out : List BlockId} (closed : piece.terminal = true ∨ piece.successors ≠ [])
    (leaves : LeavesOpen pieces last out) : LeavesOpen (piece :: pieces) last out := by
  obtain ⟨front, statements, rfl, frontClosed⟩ := leaves
  exact ⟨piece :: front, statements, rfl, List.forall_mem_cons.mpr ⟨closed, frontClosed⟩⟩

/-- The ways out of the first pieces close the block that they leave open. -/
theorem LeavesOpen.append {pieces more : List Piece} {last final : BlockId}
    {out out' : List BlockId} (first : LeavesOpen pieces last out) (ways : out ≠ [])
    (second : LeavesOpen more final out') : LeavesOpen (pieces ++ more) final out' := by
  obtain ⟨front, statements, rfl, closed⟩ := first
  obtain ⟨front', statements', rfl, closed'⟩ := second
  refine ⟨front ++ ⟨last, statements, out, false⟩ :: front', statements', by simp, ?_⟩
  rw [List.forall_mem_append, List.forall_mem_cons]
  exact ⟨closed, .inr ways, closed'⟩

variable {context : Context} {graph : Graph} {inLoop : Bool} {ids before : List StmtId}
  {flow : Flow} {frame : Option LoopFrame} {cursor : BlockId} {next : Nat} {out : List BlockId}

theorem leavesOpen_of_reads (reads : context.Reads inLoop ids flow)
    (framed : frame.isSome = inLoop) :
    LeavesOpen (flow.pieces before cursor next frame out) (flow.finish cursor next) out := by
  induction reads generalizing before cursor next frame out with
  | done => exact ⟨[], before, rfl, List.forall_mem_nil _⟩
  | plain _ _ ih | deferred _ _ ih => exact ih framed
  | branch _ _ _ _ ihBody ihOrelse ihRest =>
      exact .cons (.inr (by simp)) (((ihBody framed).append (List.cons_ne_nil _ _)
        (ihOrelse framed)).append (List.cons_ne_nil _ _) (ihRest framed))
  | loop _ _ _ ihBody ihRest =>
      exact .cons (.inr (by simp)) ((ihBody rfl).append (by simp) (ihRest framed))
  | returns _ _ ih => exact .cons (.inl rfl) (ih framed)
  | breaks _ _ ih | continues _ _ ih =>
      obtain ⟨inner, rfl⟩ := Option.isSome_iff_exists.mp framed
      exact .cons (.inr (by simp [Jump.targets])) (ih framed)

/-- The blocks of a flow are shaped, when the cursor was and `out` are ways out of an open
    block. -/
theorem shaped_of_reads (reads : context.Reads inLoop ids flow) (framed : frame.isSome = inLoop)
    (goesOn : ∀ id ∈ before, context.GoesOn id) (rejoins : context.Rejoins graph out)
    (shown : ∀ piece ∈ flow.pieces before cursor next frame out,
      graph.Shows piece.id piece.statements piece.successors piece.terminal) :
    ∀ piece ∈ flow.pieces before cursor next frame out, ∀ block, block.id = piece.id →
      graph.block? block.id = some block → context.Shaped graph block := by
  have fresh : ∀ id ∈ [], context.GoesOn id := List.forall_mem_nil _
  induction reads generalizing before cursor next frame out with
  | done =>
      simp only [Flow.pieces, List.forall_mem_singleton] at shown ⊢
      exact fun block same => shaped_of_rejoins goesOn (same ▸ shown) rejoins
  | plain treats _ ih =>
      refine ih framed (List.forall_mem_append.mpr ⟨goesOn, ?_⟩) rejoins shown
      exact List.forall_mem_singleton.mpr (.inl treats.rule?_eq)
  | deferred treats _ ih =>
      refine ih framed (List.forall_mem_append.mpr ⟨goesOn, ?_⟩) rejoins shown
      exact List.forall_mem_singleton.mpr (.inr treats.rule?_eq)
  | branch treats _ _ _ ihBody ihOrelse ihRest =>
      simp only [Flow.pieces, List.forall_mem_cons, List.forall_mem_append] at shown ⊢
      obtain ⟨here, ⟨inBody, inOrelse⟩, inRest⟩ := shown
      have join : ∀ id, context.Rejoins graph [id] := fun id => .inr (.inl ⟨id, rfl⟩)
      refine ⟨fun block same => ?_, ⟨ihBody framed fresh (join _) inBody,
        ihOrelse framed fresh (join _) inOrelse⟩, ihRest framed fresh rejoins inRest⟩
      exact shaped_of_leaves goesOn treats (same ▸ here) ⟨rfl, _, rfl⟩
  | loop treats _ _ ihBody ihRest =>
      simp only [Flow.pieces, List.forall_mem_cons, List.forall_mem_append] at shown ⊢
      obtain ⟨here, inBody, inRest⟩ := shown
      -- control that falls off the body finds the header already closed
      have again : context.Rejoins graph [cursor, ⟨next + 1⟩] := by
        obtain ⟨header, found⟩ := here.exists_block
        obtain ⟨statements, successors, _⟩ := here.of_block? found
        exact .inr (.inr ⟨_, _, rfl, header, _, found, endsBy_of_treats statements treats,
          successors⟩)
      refine ⟨fun block same => ?_, ihBody rfl fresh again inBody,
        ihRest framed fresh rejoins inRest⟩
      exact shaped_of_leaves goesOn treats (same ▸ here) ⟨rfl, _, rfl⟩
  | returns treats _ ih =>
      simp only [Flow.pieces, List.forall_mem_cons] at shown ⊢
      refine ⟨fun block same => ?_, ih framed fresh rejoins shown.2⟩
      exact shaped_of_leaves goesOn treats (same ▸ shown.1) ⟨rfl, rfl⟩
  | breaks treats _ ih | continues treats _ ih =>
      obtain ⟨inner, rfl⟩ := Option.isSome_iff_exists.mp framed
      simp only [Flow.pieces, List.forall_mem_cons] at shown ⊢
      refine ⟨fun block same => ?_, ih framed fresh rejoins shown.2⟩
      exact shaped_of_leaves goesOn treats (same ▸ shown.1) ⟨rfl, _, rfl⟩

variable {start : Numbering} {body : List StmtId} {last : BlockId}

namespace Built

theorem exists_piece (built : context.Built start body last graph) {block : Block}
    (member : block ∈ graph.blocks.toList) :
    graph.block? block.id = some block ∧
      ∃ piece ∈ context.pieces start body, piece.id = block.id := by
  have listed : block.id ∈ graph.ids := List.mem_map_of_mem member
  exact ⟨built.sound.numbered.block?_id member,
    List.mem_map.mp (built.perm_ids.mem_iff.mpr listed)⟩

theorem shaped (built : context.Built start body last graph) {block : Block}
    (member : block ∈ graph.blocks.toList) : context.Shaped graph block := by
  obtain ⟨here, piece, listed, same⟩ := built.exists_piece member
  exact shaped_of_reads built.reads rfl (List.forall_mem_nil _) (.inl rfl) built.shows piece listed
    block same.symm here

theorem leavesOpen (built : context.Built start body last graph) :
    LeavesOpen (context.pieces start body) last [] :=
  built.last_eq ▸ leavesOpen_of_reads built.reads rfl

theorem filter_open (built : context.Built start body last graph) :
    ∃ block, block.id = last ∧
      graph.blocks.toList.filter (fun block => !block.terminal && block.successors.isEmpty) =
        [block] := by
  obtain ⟨front, statements, pieces_eq, closed⟩ := built.leavesOpen
  have known : last ∈ graph.ids := built.perm_ids.mem_iff.mp (by simp [pieces_eq])
  obtain ⟨block, member, rfl⟩ := List.mem_map.mp known
  have here := built.sound.numbered.block?_id member
  have distinct : graph.blocks.toList.Nodup :=
    (List.pairwise_map.mp built.sound.numbered.nodup_ids).imp fun different same =>
      different (congrArg Block.id same)
  refine ⟨block, rfl, List.perm_singleton.mp
    ((List.perm_ext_iff_of_nodup (distinct.filter _) (List.pairwise_singleton ..)).mpr ?_)⟩
  intro other
  simp only [List.mem_filter, List.mem_singleton, Bool.and_eq_true, Bool.not_eq_true',
    List.isEmpty_iff]
  constructor
  · rintro ⟨listed, running, unlinked⟩
    obtain ⟨here', piece, found, same⟩ := built.exists_piece listed
    obtain ⟨_, successors, terminal⟩ := (same ▸ built.shows piece found).of_block? here'
    rw [pieces_eq, List.mem_append, List.mem_singleton] at found
    rcases found with found | rfl
    · have := closed piece found
      simp [← successors, ← terminal, running, unlinked] at this
    · rw [← same, here, Option.some.injEq] at here'
      exact here'.symm
  · rintro rfl
    have ending := built.shows ⟨other.id, statements, [], false⟩ (by simp [pieces_eq])
    obtain ⟨_, successors, terminal⟩ := ending.of_block? here
    exact ⟨member, terminal, successors⟩

end Built

/-- The blocks of a built graph are left as their last statements say, and exactly one of
    them is left open, the one where the walk ended. -/
theorem blocks_exit_by_rule {log log' : Log}
    (success : context.build start body log = .ok graph log') :
    (∀ block ∈ graph.blocks.toList, context.Shaped graph block ∧
      (block.terminal = true ↔ context.EndsBy block .returns)) ∧
    ∃ last block, context.buildToEnd start body log = .ok (last, graph) log' ∧ block.id = last ∧
      graph.blocks.toList.filter (fun block => !block.terminal && block.successors.isEmpty) =
        [block] := by
  obtain ⟨last, walked, built⟩ := built_of_build success
  obtain ⟨block, ended, opened⟩ := built.filter_open
  refine ⟨fun block member => ?_, last, block, walked, ended, opened⟩
  have shaped := built.shaped member
  exact ⟨shaped, shaped.terminal_iff⟩

/-- A loop whose body ends with two jumps in the arms of a branch, and a return with a dead
    statement behind it. -/
def jumpingLoop : Context where
  pool := { slots := #[⟨0, none⟩, ⟨1, some (.whileLoop 1 [⟨2, 1⟩])⟩,
    ⟨1, some (.ifElse 2 [⟨3, 1⟩] [⟨4, 1⟩])⟩, ⟨1, some (.breakAt 3)⟩, ⟨1, some (.continueAt 4)⟩,
    ⟨1, some (.returnAt 5)⟩, ⟨1, some (.simple .pass 6)⟩] }
  dialect := .python3
  maxDepth := 2

theorem blocks_exit_by_rule_jumpingLoop :
    ∃ graph log last block,
      jumpingLoop.build {} [⟨1, 1⟩, ⟨5, 1⟩, ⟨6, 1⟩] #[] = .ok graph log ∧
      (∀ block ∈ graph.blocks.toList, jumpingLoop.Shaped graph block ∧
        (block.terminal = true ↔ jumpingLoop.EndsBy block .returns)) ∧
      jumpingLoop.buildToEnd {} [⟨1, 1⟩, ⟨5, 1⟩, ⟨6, 1⟩] #[] = .ok (last, graph) log ∧
      block.id = last ∧
      graph.blocks.toList.filter (fun block => !block.terminal && block.successors.isEmpty) =
        [block] := by
  have success :
      ∃ graph log, jumpingLoop.build {} [⟨1, 1⟩, ⟨5, 1⟩, ⟨6, 1⟩] #[] = .ok graph log :=
    build_succeeds (by decide) (by decide) #[]
  obtain ⟨graph, log, success⟩ := success
  obtain ⟨shaped, last, block, walked, ended, opened⟩ := blocks_exit_by_rule success
  exact ⟨graph, log, last, block, success, shaped, walked, ended, opened⟩

end Context

end FlowGraph
