import FlowGraph.Proofs.Reachability
import FlowGraph.Proofs.Shape

/-! # The blocks of a flow, one after the other

A flow is laid out in pieces, one for each of its blocks, in the order in which a walk
comes to them. The numbers of the blocks are not in that order, but a block that was
left is not come to again. So the pieces have all the blocks of the flow, each once, and
what they list, one after the other, are the statements of the flow.
-/

namespace FlowGraph

/-- A block as a flow leaves it. -/
structure Piece where
  id : BlockId
  statements : List StmtId
  successors : List BlockId
  terminal : Bool
  deriving Repr, DecidableEq

theorem BlockId.eq_iff {left right : BlockId} : left = right ↔ left.index = right.index := by
  cases left
  cases right
  simp

namespace Jump

def isReturn : Jump → Bool
  | returns => true
  | _ => false

/-- Where control goes from a block that ends with a jump. -/
def targets (frame : Option LoopFrame) : Jump → List BlockId
  | returns => []
  | breaks => frame.toList.map (·.exit)
  | continues => frame.toList.map (·.header)

end Jump

namespace Flow

/-- The blocks of a flow in the order in which a walk comes to them, when the cursor has
    the statements `before` already and control goes on to `out` at the end. -/
def pieces : Flow → (before : List StmtId) → (cursor : BlockId) → (next : Nat) →
    (frame : Option LoopFrame) → (out : List BlockId) → List Piece
  | done, before, cursor, _, _, out => [⟨cursor, before, out, false⟩]
  | step id _ rest, before, cursor, next, frame, out =>
      rest.pieces (before ++ [id]) cursor next frame out
  | branch id body orelse rest, before, cursor, next, frame, out =>
      let join : BlockId := ⟨next + 2 + body.width + orelse.width⟩
      ⟨cursor, before ++ [id], [⟨next⟩, ⟨next + 1⟩], false⟩ ::
        (body.pieces [] ⟨next⟩ (next + 2) frame [join] ++
          orelse.pieces [] ⟨next + 1⟩ (next + 2 + body.width) frame [join] ++
          rest.pieces [] join (next + 3 + body.width + orelse.width) frame out)
  | loop id body rest, before, cursor, next, frame, out =>
      let exit : BlockId := ⟨next + 1⟩
      ⟨cursor, before ++ [id], [⟨next⟩, exit], false⟩ ::
        (body.pieces [] ⟨next⟩ (next + 2) (some ⟨cursor, exit⟩) [cursor, exit] ++
          rest.pieces [] exit (next + 2 + body.width) frame out)
  | jump kind id rest, before, cursor, next, frame, out =>
      ⟨cursor, before ++ [id], kind.targets frame, kind.isReturn⟩ ::
        rest.pieces [] ⟨next⟩ (next + 1) frame out

section Parts

variable {id cursor : BlockId} {stmt : StmtId} {body orelse rest : Flow} {next : Nat}

theorem region_branch_iff : (branch stmt body orelse rest).Region cursor next id ↔
    id = cursor ∨ (body.Region ⟨next⟩ (next + 2) id ∨
      orelse.Region ⟨next + 1⟩ (next + 2 + body.width) id) ∨
      rest.Region ⟨next + 2 + body.width + orelse.width⟩
        (next + 3 + body.width + orelse.width) id := by
  simp only [Region, BlockId.eq_iff, width]
  apply or_congr_right
  omega

theorem region_loop_iff : (loop stmt body rest).Region cursor next id ↔
    id = cursor ∨ body.Region ⟨next⟩ (next + 2) id ∨
      rest.Region ⟨next + 1⟩ (next + 2 + body.width) id := by
  simp only [Region, BlockId.eq_iff, width]
  apply or_congr_right
  omega

theorem region_jump_iff {kind : Jump} : (jump kind stmt rest).Region cursor next id ↔
    id = cursor ∨ rest.Region ⟨next⟩ (next + 1) id := by
  simp only [Region, BlockId.eq_iff, width]
  apply or_congr_right
  omega

end Parts

/-- There is a piece for every block of a flow, and for no other block. -/
theorem mem_pieces_iff {flow : Flow} {before : List StmtId} {cursor id : BlockId} {next : Nat}
    {frame : Option LoopFrame} {out : List BlockId} :
    id ∈ (flow.pieces before cursor next frame out).map (·.id) ↔ flow.Region cursor next id := by
  induction flow generalizing before cursor next frame out with
  | done =>
      simp only [pieces, List.map_cons, List.map_nil, List.mem_singleton, Region, width,
        BlockId.eq_iff]
      omega
  | step stmt deferred rest ih => exact ih
  | branch stmt body orelse rest ihBody ihOrelse ihRest =>
      simp only [pieces, List.map_cons, List.map_append, List.mem_cons, List.mem_append,
        region_branch_iff, ihBody, ihOrelse, ihRest]
  | loop stmt body rest ihBody ihRest =>
      simp only [pieces, List.map_cons, List.map_append, List.mem_cons, List.mem_append,
        region_loop_iff, ihBody, ihRest]
  | jump kind stmt rest ih =>
      simp only [pieces, List.map_cons, List.mem_cons, region_jump_iff, ih]

theorem nodup_pieces {flow : Flow} {before : List StmtId} {cursor : BlockId} {next : Nat}
    {frame : Option LoopFrame} {out : List BlockId} (old : cursor.index < next) :
    ((flow.pieces before cursor next frame out).map (·.id)).Nodup := by
  induction flow generalizing before cursor next frame out with
  | done => simp [pieces]
  | step stmt deferred rest ih => exact ih old
  | branch stmt body orelse rest ihBody ihOrelse ihRest =>
      simp only [pieces, List.map_cons, List.map_append, List.nodup_cons, List.nodup_append,
        List.mem_append, mem_pieces_iff]
      refine ⟨?_, ⟨ihBody (by simp only; omega), ihOrelse (by simp only; omega), ?_⟩,
        ihRest (by simp only; omega), ?_⟩
      · rintro ((inside | inside) | inside) <;>
        · have := inside.index
          simp only at this
          omega
      · intro left inBody right inOrelse same
        have hl := inBody.index
        have hr := inOrelse.index
        simp only [same] at hl hr
        omega
      · intro left inArm right inRest same
        have hr := inRest.index
        rcases inArm with inBody | inOrelse
        · have hl := inBody.index
          simp only [same] at hl hr
          omega
        · have hl := inOrelse.index
          simp only [same] at hl hr
          omega
  | loop stmt body rest ihBody ihRest =>
      simp only [pieces, List.map_cons, List.map_append, List.nodup_cons, List.nodup_append,
        List.mem_append, mem_pieces_iff]
      refine ⟨?_, ihBody (by simp only; omega), ihRest (by simp only; omega), ?_⟩
      · rintro (inside | inside) <;>
        · have := inside.index
          simp only at this
          omega
      · intro left inBody right inRest same
        have hl := inBody.index
        have hr := inRest.index
        simp only [same] at hl hr
        omega
  | jump kind stmt rest ih =>
      simp only [pieces, List.map_cons, List.nodup_cons, mem_pieces_iff]
      refine ⟨fun inside => ?_, ih (by simp only; omega)⟩
      have := inside.index
      simp only at this
      omega

theorem statements_pieces (flow : Flow) (before : List StmtId) (cursor : BlockId) (next : Nat)
    (frame : Option LoopFrame) (out : List BlockId) :
    (flow.pieces before cursor next frame out).flatMap (·.statements) = before ++ flow.stmts := by
  induction flow generalizing before cursor next frame out with
  | done => simp [pieces, stmts]
  | step id deferred rest ih => simp [pieces, stmts, ih]
  | branch id body orelse rest ihBody ihOrelse ihRest =>
      simp [pieces, stmts, ihBody, ihOrelse, ihRest]
  | loop id body rest ihBody ihRest => simp [pieces, stmts, ihBody, ihRest]
  | jump kind id rest ih => simp [pieces, stmts, ih]

theorem shows_jump {graph : Graph} {cursor : BlockId} {before : List StmtId} {stmt : StmtId}
    {kind : Jump} {frame : Option LoopFrame}
    (h : graph.Holds cursor
      (before.map (.append cursor) ++ .append cursor stmt :: kind.leave cursor frame)) :
    graph.Shows cursor (before ++ [stmt]) (kind.targets frame) kind.isReturn := by
  cases kind <;> cases frame <;>
    simpa [Jump.leave, Jump.targets, Jump.isReturn, Operation.statements, Operation.targets,
      Operation.terminates] using h.shows

/-- The blocks of a flow that was laid out are as its pieces say. -/
theorem shows_pieces {graph : Graph} {flow : Flow} {frame : Option LoopFrame} {cursor : BlockId}
    {next : Nat} {before : List StmtId} {out : List BlockId} (old : cursor.index < next)
    (lays : graph.Lays frame flow cursor next (before.map (.append cursor))
      (out.map (.link (flow.finish cursor next)))) :
    ∀ piece ∈ flow.pieces before cursor next frame out,
      graph.Shows piece.id piece.statements piece.successors piece.terminal := by
  induction flow generalizing before cursor next frame out with
  | done => simpa [pieces] using shows_done lays
  | step id deferred rest ih =>
      apply ih old
      rw [List.map_append]
      exact lays_step lays
  | branch id body orelse rest ihBody ihOrelse ihRest =>
      simp only [pieces, List.forall_mem_cons, List.forall_mem_append]
      exact ⟨(holds_branch old lays).shows_fork,
        ⟨ihBody (by simp only; omega) (lays_branch_body old lays),
          ihOrelse (by simp only; omega) (lays_branch_orelse old lays)⟩,
        ihRest (by simp only; omega) (lays_branch_rest old lays)⟩
  | loop id body rest ihBody ihRest =>
      simp only [pieces, List.forall_mem_cons, List.forall_mem_append]
      exact ⟨(holds_loop old lays).shows_fork,
        ihBody (by simp only; omega) (lays_loop_body old lays),
        ihRest (by simp only; omega) (lays_loop_rest old lays)⟩
  | jump kind id rest ih =>
      simp only [pieces, List.forall_mem_cons]
      exact ⟨shows_jump (holds_jump old lays), ih (by simp only; omega) (lays_jump_rest old lays)⟩

end Flow

namespace Graph

theorem Numbered.ids_eq {graph : Graph} (numbered : graph.Numbered) :
    graph.ids = (List.range graph.size).map fun number => ⟨graph.entry.index + number⟩ := by
  apply List.ext_getElem
  · simp [ids, size]
  · intro position inside _
    simp only [ids, List.length_map, Array.length_toList] at inside
    have here : graph.block? ⟨graph.base + position⟩ = some graph.blocks.toList[position] := by
      simp [block?, position?, size, inside]
    simpa [ids, numbered.base_eq] using numbered.id_eq _ _ here

theorem Numbered.nodup_ids {graph : Graph} (numbered : graph.Numbered) : graph.ids.Nodup := by
  rw [numbered.ids_eq]
  refine List.pairwise_map.mpr (List.nodup_range.imp fun different same => different ?_)
  simpa using same

end Graph

namespace Context

variable {context : Context} {start : Numbering} {body : List StmtId} {last : BlockId}
  {graph : Graph}

/-- The blocks of a body in the order in which its walk comes to them. -/
def pieces (context : Context) (start : Numbering) (body : List StmtId) : List Piece :=
  (context.bodyFlow body).pieces [] start.next (start.next.index + 1) none []

namespace Built

theorem shows (built : context.Built start body last graph) :
    ∀ piece ∈ context.pieces start body,
      graph.Shows piece.id piece.statements piece.successors piece.terminal :=
  Flow.shows_pieces (Nat.lt_succ_self _) built.lays

theorem contains_iff_region (built : context.Built start body last graph) {id : BlockId} :
    graph.contains id = true ↔
      (context.bodyFlow body).Region start.next (start.next.index + 1) id := by
  have history := Graph.history_performAll built.laid
  rw [history.contains_iff, Flow.countP_isCreate_script]
  simp only [Flow.Region, Graph.next, Graph.blank, Graph.size, List.size_toArray, List.length_cons,
    List.length_nil, BlockId.eq_iff]
  omega

/-- The pieces of a body have the blocks of its graph, each once. -/
theorem perm_ids (built : context.Built start body last graph) :
    ((context.pieces start body).map (·.id)).Perm graph.ids := by
  apply (List.perm_ext_iff_of_nodup (Flow.nodup_pieces (Nat.lt_succ_self _))
    built.sound.numbered.nodup_ids).mpr
  intro id
  rw [Flow.mem_pieces_iff, Graph.mem_ids built.sound, built.contains_iff_region]

end Built

end Context

end FlowGraph
