import FlowGraph.Proofs.Flow
import FlowGraph.Proofs.History

/-! # Where a flow puts its blocks

The operations that lay a flow out in a graph, from the cursor on, when the next new
block has a given number. The blocks of a flow are its cursor and the new ones, an
interval of numbers; nothing else is written to, the ways out of them lead to them or to
the loop around the flow, and the block where the flow ends is left open.
-/

namespace FlowGraph

namespace Operation

/-- The block to which an operation adds a statement or a way out. -/
def subject : Operation → Option BlockId
  | link source _ => some source
  | append block _ => some block
  | markTerminal block => some block
  | _ => none

/-- The block to which an operation adds a way out. -/
def closes : Operation → Option BlockId
  | link source _ => some source
  | markTerminal block => some block
  | _ => none

/-- The block to which an operation adds a way in. -/
def object : Operation → Option BlockId
  | link _ target => some target
  | _ => none

variable {operations : List Operation} {id : BlockId}

theorem statements_eq_nil (h : ∀ operation ∈ operations, operation.subject ≠ some id) :
    operations.flatMap (statements id) = [] := by
  rw [List.flatMap_eq_nil_iff]
  intro operation member
  have := h operation member
  cases operation <;> simp_all [statements, subject]

theorem sources_eq_nil (h : ∀ operation ∈ operations, operation.object ≠ some id) :
    operations.flatMap (sources id) = [] := by
  rw [List.flatMap_eq_nil_iff]
  intro operation member
  have := h operation member
  cases operation <;> simp_all [sources, object]

theorem targets_eq_nil (h : ∀ operation ∈ operations, operation.closes ≠ some id) :
    operations.flatMap (targets id) = [] := by
  rw [List.flatMap_eq_nil_iff]
  intro operation member
  have := h operation member
  cases operation <;> simp_all [targets, closes]

theorem any_terminates_eq_false (h : ∀ operation ∈ operations, operation.closes ≠ some id) :
    operations.any (terminates id) = false := by
  rw [List.any_eq_false]
  intro operation member
  have := h operation member
  cases operation <;> simp_all [terminates, closes]

theorem subject_of_closes {operation : Operation} (h : operation.closes = some id) :
    operation.subject = some id := by
  cases operation <;> simp_all [closes, subject]

end Operation

namespace Jump

/-- How a jump leaves the block that it ends. -/
def leave (cursor : BlockId) (frame : Option LoopFrame) : Jump → List Operation
  | returns => [.markTerminal cursor]
  | breaks => frame.toList.map fun frame => .link cursor frame.exit
  | continues => frame.toList.map fun frame => .link cursor frame.header

theorem subject_of_mem_leave {kind : Jump} {cursor : BlockId} {frame : Option LoopFrame}
    {operation : Operation} (h : operation ∈ kind.leave cursor frame) :
    operation.subject = some cursor ∧ operation.isCreate = false := by
  cases kind <;> cases frame <;> simp_all [leave, Operation.subject, Operation.isCreate]

end Jump

namespace Flow

def width : Flow → Nat
  | done => 0
  | step _ _ rest => rest.width
  | branch _ body orelse rest => body.width + orelse.width + rest.width + 3
  | loop _ body rest => body.width + rest.width + 2
  | jump _ _ rest => rest.width + 1

def finish : Flow → (cursor : BlockId) → (next : Nat) → BlockId
  | done, cursor, _ => cursor
  | step _ _ rest, cursor, next => rest.finish cursor next
  | branch _ body orelse rest, _, next =>
      rest.finish ⟨next + 2 + body.width + orelse.width⟩
        (next + 3 + body.width + orelse.width)
  | loop _ body rest, _, next => rest.finish ⟨next + 1⟩ (next + 2 + body.width)
  | jump _ _ rest, _, next => rest.finish ⟨next⟩ (next + 1)

/-- The operations that end a block with a statement after which control goes on in one
    of two new blocks. -/
def fork (cursor : BlockId) (id : StmtId) (next : Nat) : List Operation :=
  [.append cursor id, .create, .create, .link cursor ⟨next⟩, .link cursor ⟨next + 1⟩]

theorem subject_of_mem_fork {cursor : BlockId} {id : StmtId} {next : Nat} {operation : Operation}
    (h : operation ∈ fork cursor id next) :
    operation.subject = some cursor ∨ operation.subject = none := by
  simp only [fork, List.mem_cons, List.not_mem_nil, or_false] at h
  rcases h with rfl | rfl | rfl | rfl | rfl <;> simp [Operation.subject]

theorem closes_ne_of_mem_fork {cursor block : BlockId} {id : StmtId} {next : Nat}
    {operation : Operation} (h : operation ∈ fork cursor id next) (other : block ≠ cursor) :
    operation.closes ≠ some block := by
  intro closes
  have subject := Operation.subject_of_closes closes
  rcases subject_of_mem_fork h with same | none
  · exact other (Option.some.inj (subject.symm.trans same))
  · simp [none] at subject

/-- The operations that lay a flow out from the cursor on. -/
def script : Flow → (cursor : BlockId) → (next : Nat) → (frame : Option LoopFrame) →
    List Operation
  | done, _, _, _ => []
  | step id deferred rest, cursor, next, frame =>
      .append cursor id :: (if deferred then [.defer id] else []) ++
        rest.script cursor next frame
  | branch id body orelse rest, cursor, next, frame =>
      let bodyEntry : BlockId := ⟨next⟩
      let orelseEntry : BlockId := ⟨next + 1⟩
      let after : BlockId := ⟨next + 2 + body.width + orelse.width⟩
      fork cursor id next ++
        body.script bodyEntry (next + 2) frame ++
        orelse.script orelseEntry (next + 2 + body.width) frame ++
        [.create, .link (body.finish bodyEntry (next + 2)) after,
          .link (orelse.finish orelseEntry (next + 2 + body.width)) after] ++
        rest.script after (next + 3 + body.width + orelse.width) frame
  | loop id body rest, cursor, next, frame =>
      let bodyEntry : BlockId := ⟨next⟩
      let exit : BlockId := ⟨next + 1⟩
      fork cursor id next ++
        body.script bodyEntry (next + 2) (some ⟨cursor, exit⟩) ++
        [.link (body.finish bodyEntry (next + 2)) cursor,
          .link (body.finish bodyEntry (next + 2)) exit] ++
        rest.script exit (next + 2 + body.width) frame
  | jump kind id rest, cursor, next, frame =>
      .append cursor id :: kind.leave cursor frame ++ .create :: rest.script ⟨next⟩ (next + 1) frame

/-- The blocks of a flow: the cursor and the new ones. -/
def Region (flow : Flow) (cursor : BlockId) (next : Nat) (id : BlockId) : Prop :=
  id = cursor ∨ next ≤ id.index ∧ id.index < next + flow.width

theorem width_append (flow more : Flow) : (flow.append more).width = flow.width + more.width := by
  induction flow with
  | done => simp [append, width]
  | step id deferred rest ih => simp only [append, width, ih]
  | branch id body orelse rest _ _ ih => simp only [append, width, ih]; omega
  | loop id body rest _ ih => simp only [append, width, ih]; omega
  | jump kind id rest ih => simp only [append, width, ih]; omega

theorem finish_append (flow more : Flow) (cursor : BlockId) (next : Nat) :
    (flow.append more).finish cursor next =
      more.finish (flow.finish cursor next) (next + flow.width) := by
  induction flow generalizing cursor next with
  | done => rfl
  | step id deferred rest ih => simp only [append, finish, width, ih]
  | branch id body orelse rest _ _ ih => simp only [append, finish, width, ih]; congr 1; omega
  | loop id body rest _ ih => simp only [append, finish, width, ih]; congr 1; omega
  | jump kind id rest ih => simp only [append, finish, width, ih]; congr 1; omega

theorem script_append (flow more : Flow) (cursor : BlockId) (next : Nat)
    (frame : Option LoopFrame) :
    (flow.append more).script cursor next frame =
      flow.script cursor next frame ++
        more.script (flow.finish cursor next) (next + flow.width) frame := by
  induction flow generalizing cursor next with
  | done => rfl
  | step id deferred rest ih => simp [append, script, finish, width, ih]
  | branch id body orelse rest _ _ ih =>
      have next_eq : next + 3 + body.width + orelse.width + rest.width =
          next + (body.width + orelse.width + rest.width + 3) := by omega
      simp only [append, script, finish, width, ih, next_eq, List.append_assoc]
  | loop id body rest _ ih =>
      have next_eq : next + 2 + body.width + rest.width = next + (body.width + rest.width + 2) := by
        omega
      simp only [append, script, finish, width, ih, next_eq, List.append_assoc]
  | jump kind id rest ih =>
      have next_eq : next + 1 + rest.width = next + (rest.width + 1) := by omega
      simp only [append, script, finish, width, ih, next_eq, List.cons_append, List.append_assoc]

theorem countP_isCreate_script (flow : Flow) (cursor : BlockId) (next : Nat)
    (frame : Option LoopFrame) :
    (flow.script cursor next frame).countP Operation.isCreate = flow.width := by
  induction flow generalizing cursor next frame with
  | done => rfl
  | step id deferred rest ih =>
      cases deferred <;> simp [script, width, Operation.isCreate, ih]
  | branch id body orelse rest ihb iho ih =>
      simp only [script, fork, width, List.countP_append, List.countP_cons, List.countP_nil,
        Operation.isCreate, ihb, iho, ih]
      simp
      omega
  | loop id body rest ihb ih =>
      simp only [script, fork, width, List.countP_append, List.countP_cons, List.countP_nil,
        Operation.isCreate, ihb, ih]
      simp
      omega
  | jump kind id rest ih =>
      have leave : (kind.leave cursor frame).countP Operation.isCreate = 0 := by
        rw [List.countP_eq_zero]
        intro operation member
        simp [(Jump.subject_of_mem_leave member).2]
      simp [script, width, List.countP_append, List.countP_cons, Operation.isCreate, ih, leave]

section Parts

variable {id block cursor : BlockId} {stmt : StmtId} {body orelse rest : Flow} {next : Nat}

theorem Region.index {flow : Flow} (h : flow.Region cursor next id) :
    id.index = cursor.index ∨ next ≤ id.index ∧ id.index < next + flow.width :=
  h.imp_left (congrArg BlockId.index)

theorem Region.part {flow part : Flow} {partCursor : BlockId} {partNext : Nat}
    (h : part.Region partCursor partNext id)
    (entry : flow.Region cursor next partCursor) (above : next ≤ partNext)
    (below : partNext + part.width ≤ next + flow.width) : flow.Region cursor next id := by
  rcases h with rfl | inside
  · exact entry
  · exact .inr ⟨by omega, by omega⟩

theorem Region.of_branch_body (h : body.Region ⟨next⟩ (next + 2) id) :
    (branch stmt body orelse rest).Region cursor next id := by
  refine h.part (.inr ?_) (by omega) ?_ <;> simp only [width] <;> omega

theorem Region.of_branch_orelse (h : orelse.Region ⟨next + 1⟩ (next + 2 + body.width) id) :
    (branch stmt body orelse rest).Region cursor next id := by
  refine h.part (.inr ?_) (by omega) ?_ <;> simp only [width] <;> omega

theorem Region.of_branch_rest
    (h : rest.Region ⟨next + 2 + body.width + orelse.width⟩
      (next + 3 + body.width + orelse.width) id) :
    (branch stmt body orelse rest).Region cursor next id := by
  refine h.part (.inr ?_) (by omega) ?_ <;> simp only [width] <;> omega

theorem Region.of_loop_body (h : body.Region ⟨next⟩ (next + 2) id) :
    (loop stmt body rest).Region cursor next id := by
  refine h.part (.inr ?_) (by omega) ?_ <;> simp only [width] <;> omega

theorem Region.of_loop_rest (h : rest.Region ⟨next + 1⟩ (next + 2 + body.width) id) :
    (loop stmt body rest).Region cursor next id := by
  refine h.part (.inr ?_) (by omega) ?_ <;> simp only [width] <;> omega

theorem Region.of_jump_rest {kind : Jump} (h : rest.Region ⟨next⟩ (next + 1) id) :
    (jump kind stmt rest).Region cursor next id := by
  refine h.part (.inr ?_) (by omega) ?_ <;> simp only [width] <;> omega

end Parts

theorem region_finish (flow : Flow) (cursor : BlockId) (next : Nat) :
    flow.Region cursor next (flow.finish cursor next) := by
  induction flow generalizing cursor next with
  | done => exact .inl rfl
  | step id deferred rest ih => exact ih cursor next
  | branch id body orelse rest _ _ ih => exact .of_branch_rest (ih ..)
  | loop id body rest _ ih => exact .of_loop_rest (ih ..)
  | jump kind id rest ih => exact .of_jump_rest (ih ..)

/-- A flow writes to its own blocks only. -/
theorem region_of_subject {flow : Flow} {cursor : BlockId} {next : Nat} {frame : Option LoopFrame}
    {operation : Operation} {id : BlockId} (member : operation ∈ flow.script cursor next frame)
    (subject : operation.subject = some id) : flow.Region cursor next id := by
  induction flow generalizing cursor next frame with
  | done => simp [script] at member
  | step stmt deferred rest ih =>
      simp only [script, List.mem_append, List.mem_cons] at member
      rcases member with (rfl | member) | member
      · exact .inl (Option.some.inj subject).symm
      · cases deferred <;> simp at member
        subst member
        cases subject
      · exact ih member
  | branch stmt body orelse rest ihb iho ih =>
      simp only [script, List.mem_append, List.mem_cons, List.not_mem_nil, or_false] at member
      rcases member with (((opening | member) | member) | closing) | member
      · have := subject_of_mem_fork opening
        simp_all [Region]
      · exact .of_branch_body (ihb member)
      · exact .of_branch_orelse (iho member)
      · rcases closing with rfl | rfl | rfl <;> simp only [Operation.subject] at subject
        · cases subject
        · exact Option.some.inj subject ▸ .of_branch_body (region_finish ..)
        · exact Option.some.inj subject ▸ .of_branch_orelse (region_finish ..)
      · exact .of_branch_rest (ih member)
  | loop stmt body rest ihb ih =>
      simp only [script, List.mem_append, List.mem_cons, List.not_mem_nil, or_false] at member
      rcases member with ((opening | member) | closing) | member
      · have := subject_of_mem_fork opening
        simp_all [Region]
      · exact .of_loop_body (ihb member)
      · rcases closing with rfl | rfl <;>
          exact Option.some.inj subject ▸ .of_loop_body (region_finish ..)
      · exact .of_loop_rest (ih member)
  | jump kind stmt rest ih =>
      simp only [script, List.mem_append, List.mem_cons] at member
      rcases member with (rfl | leave) | rfl | member
      · exact .inl (Option.some.inj subject).symm
      · exact .inl (Option.some.inj ((Jump.subject_of_mem_leave leave).1.symm.trans subject)).symm
      · cases subject
      · exact .of_jump_rest (ih member)

/-- A flow leads to its own blocks and to those of the loop around it only. -/
theorem region_of_object {flow : Flow} {cursor : BlockId} {next : Nat} {frame : Option LoopFrame}
    {operation : Operation} {id : BlockId} (member : operation ∈ flow.script cursor next frame)
    (object : operation.object = some id) :
    flow.Region cursor next id ∨ ∃ around ∈ frame, id = around.header ∨ id = around.exit := by
  induction flow generalizing cursor next frame with
  | done => simp [script] at member
  | step stmt deferred rest ih =>
      simp only [script, List.mem_append, List.mem_cons] at member
      rcases member with (rfl | member) | member
      · cases object
      · cases deferred <;> simp at member
        subst member
        cases object
      · exact ih member
  | branch stmt body orelse rest ihb iho ih =>
      have opened : ∀ number, next ≤ number →
          number < next + (branch stmt body orelse rest).width →
          (branch stmt body orelse rest).Region cursor next ⟨number⟩ :=
        fun number above below => .inr ⟨above, below⟩
      simp only [width] at opened
      simp only [script, fork, List.mem_append, List.mem_cons, List.not_mem_nil, or_false] at member
      rcases member with (((opening | member) | member) | closing) | member
      · rcases opening with rfl | rfl | rfl | rfl | rfl <;> cases object
        · exact .inl (opened next (by omega) (by omega))
        · exact .inl (opened (next + 1) (by omega) (by omega))
      · exact (ihb member).imp_left .of_branch_body
      · exact (iho member).imp_left .of_branch_orelse
      · rcases closing with rfl | rfl | rfl <;> cases object
        · exact .inl (opened _ (by omega) (by omega))
        · exact .inl (opened _ (by omega) (by omega))
      · exact (ih member).imp_left .of_branch_rest
  | loop stmt body rest ihb ih =>
      have opened : ∀ number, next ≤ number → number < next + (loop stmt body rest).width →
          (loop stmt body rest).Region cursor next ⟨number⟩ :=
        fun number above below => .inr ⟨above, below⟩
      simp only [width] at opened
      simp only [script, fork, List.mem_append, List.mem_cons, List.not_mem_nil, or_false] at member
      rcases member with ((opening | member) | closing) | member
      · rcases opening with rfl | rfl | rfl | rfl | rfl <;> cases object
        · exact .inl (opened next (by omega) (by omega))
        · exact .inl (opened (next + 1) (by omega) (by omega))
      · -- the loop around the body is this one
        rcases ihb member with inside | ⟨around, same, header | exit⟩
        · exact .inl (.of_loop_body inside)
        · cases same
          exact .inl (.inl header)
        · cases same
          rw [exit]
          exact .inl (opened (next + 1) (by omega) (by omega))
      · rcases closing with rfl | rfl <;> cases object
        · exact .inl (.inl rfl)
        · exact .inl (opened (next + 1) (by omega) (by omega))
      · exact (ih member).imp_left .of_loop_rest
  | jump kind stmt rest ih =>
      simp only [script, List.mem_append, List.mem_cons] at member
      rcases member with (rfl | leave) | rfl | member
      · cases object
      · cases kind <;> cases frame <;> simp_all [Jump.leave, Operation.object]
      · cases object
      · exact (ih member).imp_left .of_jump_rest

/-- A flow leaves the block in which it ends open. -/
theorem closes_ne_finish {flow : Flow} {cursor : BlockId} {next : Nat} {frame : Option LoopFrame}
    (old : cursor.index < next) {operation : Operation}
    (member : operation ∈ flow.script cursor next frame) :
    operation.closes ≠ some (flow.finish cursor next) := by
  induction flow generalizing cursor next frame with
  | done => simp [script] at member
  | step stmt deferred rest ih =>
      simp only [script, List.mem_append, List.mem_cons] at member
      rcases member with (rfl | member) | member
      · simp [Operation.closes]
      · cases deferred <;> simp at member
        subst member
        simp [Operation.closes]
      · exact ih old member
  | branch stmt body orelse rest ihb iho ih =>
      intro closes
      have last := (region_finish rest ⟨next + 2 + body.width + orelse.width⟩
        (next + 3 + body.width + orelse.width)).index
      -- every part of the script but the last one closes blocks that are older than the end
      have older : ∀ id : BlockId, operation.closes = some id →
          id.index < next + 2 + body.width + orelse.width → False := by
        intro id closes' before
        have same := Option.some.inj (closes'.symm.trans closes)
        simp only [finish] at same
        simp only [← same] at last
        omega
      simp only [script, List.mem_append, List.mem_cons, List.not_mem_nil, or_false] at member
      rcases member with (((opening | member) | member) | closing) | member
      · have subject := Operation.subject_of_closes closes
        rcases subject_of_mem_fork opening with same | none
        · exact older cursor (closes.trans (subject.symm.trans same)) (by omega)
        · simp [none] at subject
      · have inside := (region_of_subject member (Operation.subject_of_closes closes)).index
        exact older _ closes (by simp only at inside; omega)
      · have inside := (region_of_subject member (Operation.subject_of_closes closes)).index
        exact older _ closes (by simp only at inside; omega)
      · rcases closing with rfl | rfl | rfl
        · cases closes
        · have inside := (region_finish body ⟨next⟩ (next + 2)).index
          exact older _ rfl (by simp only at inside; omega)
        · have inside := (region_finish orelse ⟨next + 1⟩ (next + 2 + body.width)).index
          exact older _ rfl (by simp only at inside; omega)
      · exact ih (by simp only; omega) member closes
  | loop stmt body rest ihb ih =>
      intro closes
      have last := (region_finish rest ⟨next + 1⟩ (next + 2 + body.width)).index
      have apart : ∀ id : BlockId, operation.closes = some id →
          id.index < next ∨ body.Region ⟨next⟩ (next + 2) id → False := by
        intro id closes' before
        have same := Option.some.inj (closes'.symm.trans closes)
        simp only [finish] at same
        simp only [← same] at last
        have inside := before.imp_right Region.index
        simp only at inside
        omega
      simp only [script, List.mem_append, List.mem_cons, List.not_mem_nil, or_false] at member
      rcases member with ((opening | member) | closing) | member
      · have subject := Operation.subject_of_closes closes
        rcases subject_of_mem_fork opening with same | none
        · exact apart cursor (closes.trans (subject.symm.trans same)) (.inl old)
        · simp [none] at subject
      · exact apart _ closes (.inr (region_of_subject member (Operation.subject_of_closes closes)))
      · rcases closing with rfl | rfl <;> exact apart _ rfl (.inr (region_finish ..))
      · exact ih (by simp only; omega) member closes
  | jump kind stmt rest ih =>
      intro closes
      have last := (region_finish rest ⟨next⟩ (next + 1)).index
      simp only [script, List.mem_append, List.mem_cons] at member
      rcases member with (rfl | leave) | rfl | member
      · cases closes
      · have same := (Jump.subject_of_mem_leave leave).1.symm.trans
          (Operation.subject_of_closes closes)
        simp only [finish] at same
        simp only [← Option.some.inj same] at last
        omega
      · cases closes
      · exact ih (by simp only; omega) member closes

theorem closes_ne_of_not_region {flow : Flow} {cursor : BlockId} {next : Nat}
    {frame : Option LoopFrame} {id : BlockId} (outside : ¬ flow.Region cursor next id)
    {operation : Operation} (member : operation ∈ flow.script cursor next frame) :
    operation.closes ≠ some id :=
  fun closes => outside (region_of_subject member (Operation.subject_of_closes closes))

end Flow

end FlowGraph
