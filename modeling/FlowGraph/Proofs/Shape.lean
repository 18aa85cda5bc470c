import FlowGraph.Proofs.Building

/-! # The shape of a built graph

What the graph of a flow looks like, without the numbers of its blocks: which
statements each block has, where control goes from it, and how the blocks of the parts
of a flow are joined. Whatever a build gives has the shape of the flow of its body.
-/

namespace FlowGraph

namespace Graph

/-- What a block holds: its statements, the ways out of it, and whether control ends there. -/
structure Shows (graph : Graph) (id : BlockId) (statements : List StmtId)
    (successors : List BlockId) (terminal : Bool) : Prop where
  statements_eq : graph.statements id = statements
  successors_eq : graph.successors id = successors
  isTerminal_eq : graph.isTerminal id = terminal

/-- A flow is found in the graph from the cursor on, where the cursor has the statements
    `before` already, and up to the block `last`, from which control goes on to `out`. -/
inductive Realizes (graph : Graph) : Option LoopFrame → Flow → List StmtId → BlockId → BlockId →
    List BlockId → Prop where
  | done {frame before cursor out} : graph.Shows cursor before out false →
      Realizes graph frame .done before cursor cursor out
  | step {frame id deferred rest before cursor last out} :
      Realizes graph frame rest (before ++ [id]) cursor last out →
      Realizes graph frame (.step id deferred rest) before cursor last out
  | branch {frame id body orelse rest before cursor left right leftEnd rightEnd join last out} :
      graph.Shows cursor (before ++ [id]) [left, right] false →
      Realizes graph frame body [] left leftEnd [join] →
      Realizes graph frame orelse [] right rightEnd [join] →
      Realizes graph frame rest [] join last out →
      Realizes graph frame (.branch id body orelse rest) before cursor last out
  | loop {frame id body rest before cursor entry exit bodyEnd last out} :
      graph.Shows cursor (before ++ [id]) [entry, exit] false →
      Realizes graph (some ⟨cursor, exit⟩) body [] entry bodyEnd [cursor, exit] →
      Realizes graph frame rest [] exit last out →
      Realizes graph frame (.loop id body rest) before cursor last out
  | returns {frame id rest before cursor next last out} :
      graph.Shows cursor (before ++ [id]) [] true →
      Realizes graph frame rest [] next last out →
      Realizes graph frame (.jump .returns id rest) before cursor last out
  | breaks {frame id rest before cursor next last out} :
      graph.Shows cursor (before ++ [id]) [frame.exit] false →
      Realizes graph (some frame) rest [] next last out →
      Realizes graph (some frame) (.jump .breaks id rest) before cursor last out
  | continues {frame id rest before cursor next last out} :
      graph.Shows cursor (before ++ [id]) [frame.header] false →
      Realizes graph (some frame) rest [] next last out →
      Realizes graph (some frame) (.jump .continues id rest) before cursor last out

section Realizes

variable {graph : Graph} {frame : Option LoopFrame} {flow : Flow} {before : List StmtId}
  {cursor last : BlockId} {out : List BlockId}

/-- Control goes on from the block where a flow ends. -/
theorem Realizes.last_shows (shape : graph.Realizes frame flow before cursor last out) :
    ∃ statements, graph.Shows last statements out false := by
  induction shape with
  | done shows => exact ⟨_, shows⟩
  | step _ ih | returns _ _ ih | breaks _ _ ih | continues _ _ ih => exact ih
  | branch _ _ _ _ _ _ ih => exact ih
  | loop _ _ _ _ ih => exact ih

theorem Realizes.last_successors (shape : graph.Realizes frame flow before cursor last out) :
    graph.successors last = out :=
  shape.last_shows.elim fun _ shows => shows.successors_eq

end Realizes

end Graph

namespace Operation

def about (id : BlockId) (operations : List Operation) : List Operation :=
  operations.filter fun operation => operation.subject = some id

/-- Some operations on one block, as far as they are about the given id. -/
def only (here id : BlockId) (operations : List Operation) : List Operation :=
  if id = here then operations else []

variable {operations more : List Operation} {operation : Operation} {id here : BlockId}

theorem only_self : only id id operations = operations := if_pos rfl

theorem only_of_ne (h : id ≠ here) : only here id operations = [] := if_neg h

theorem only_nil : only here id [] = [] := ite_self _

theorem only_cons_append : only here id [operation] ++ (only here id operations ++ more) =
    only here id (operation :: operations) ++ more := by
  by_cases same : id = here <;> simp [only, same]

theorem about_nil : about id [] = [] := rfl

theorem about_append : about id (operations ++ more) = about id operations ++ about id more :=
  List.filter_append ..

theorem about_cons_of_some (h : operation.subject = some here) :
    about id (operation :: operations) = only here id [operation] ++ about id operations := by
  by_cases same : id = here
  · simp [about, only, h, same]
  · simp [about, only, h, same, Ne.symm same]

theorem about_cons_of_none (h : operation.subject = none) :
    about id (operation :: operations) = about id operations := by
  simp [about, h]

theorem about_eq_nil (h : ∀ operation ∈ operations, operation.subject ≠ some id) :
    about id operations = [] := by
  simpa [about] using h

theorem flatMap_about {α : Type} {f : Operation → List α}
    (h : ∀ operation, operation.subject ≠ some id → f operation = []) :
    (about id operations).flatMap f = operations.flatMap f := by
  induction operations with
  | nil => rfl
  | cons operation operations ih =>
      by_cases same : operation.subject = some id
      · rw [about_cons_of_some same, only_self, List.cons_append, List.nil_append,
          List.flatMap_cons, List.flatMap_cons, ih]
      · rw [about, List.filter_cons_of_neg (by simpa using same), List.flatMap_cons,
          h operation same, List.nil_append]
        exact ih

theorem any_about {f : Operation → Bool}
    (h : ∀ operation, operation.subject ≠ some id → f operation = false) :
    (about id operations).any f = operations.any f := by
  induction operations with
  | nil => rfl
  | cons operation operations ih =>
      by_cases same : operation.subject = some id
      · rw [about_cons_of_some same, only_self, List.cons_append, List.nil_append,
          List.any_cons, List.any_cons, ih]
      · rw [about, List.filter_cons_of_neg (by simpa using same), List.any_cons,
          h operation same, Bool.false_or]
        exact ih

end Operation

namespace Graph

/-- A block is as a list of operations leaves it. -/
def Holds (graph : Graph) (id : BlockId) (operations : List Operation) : Prop :=
  graph.Shows id (operations.flatMap (Operation.statements id))
    (operations.flatMap (Operation.targets id)) (operations.any (Operation.terminates id))

theorem Holds.of_about {graph : Graph} {id : BlockId} {operations : List Operation}
    (h : graph.Holds id operations) : graph.Holds id (Operation.about id operations) := by
  unfold Holds
  rw [Operation.flatMap_about, Operation.flatMap_about, Operation.any_about]
  · exact h
  all_goals
    intro operation other
    cases operation <;>
      simp_all [Operation.subject, Operation.terminates, Operation.targets, Operation.statements]

/-- The script of a flow was performed between operations that only write to the cursor
    and others that only write to the block where the flow ends. -/
def Lays (graph : Graph) (frame : Option LoopFrame) (flow : Flow) (cursor : BlockId) (next : Nat)
    (before behind : List Operation) : Prop :=
  ∀ id, flow.Region cursor next id →
    graph.Holds id (Operation.only cursor id before ++
      Operation.about id (flow.script cursor next frame) ++
      Operation.only (flow.finish cursor next) id behind)

end Graph

namespace Flow

open Operation

variable {graph : Graph} {frame : Option LoopFrame} {stmt : StmtId} {body orelse rest : Flow}
  {cursor id : BlockId} {next : Nat} {before behind : List Operation}

theorem about_script_eq_nil {flow : Flow} (outside : ¬ flow.Region cursor next id) :
    about id (flow.script cursor next frame) = [] :=
  about_eq_nil fun _ member subject => outside (region_of_subject member subject)

theorem about_fork : about id (fork cursor stmt next) =
    only cursor id [.append cursor stmt, .link cursor ⟨next⟩, .link cursor ⟨next + 1⟩] := by
  by_cases same : id = cursor
  · simp [about, fork, subject, only, same]
  · simp [about, fork, subject, only, same, Ne.symm same]

theorem about_step {deferred : Bool} :
    about id ((step stmt deferred rest).script cursor next frame) =
      only cursor id [.append cursor stmt] ++ about id (rest.script cursor next frame) := by
  have append : subject (.append cursor stmt) = some cursor := rfl
  have defer : about id (if deferred then [.defer stmt] else []) = [] :=
    about_eq_nil (by cases deferred <;> simp [subject])
  simp only [script, about_append, about_cons_of_some append, defer, List.append_nil]

theorem about_branch : about id ((branch stmt body orelse rest).script cursor next frame) =
    only cursor id [.append cursor stmt, .link cursor ⟨next⟩, .link cursor ⟨next + 1⟩] ++
      (about id (body.script ⟨next⟩ (next + 2) frame) ++
      (about id (orelse.script ⟨next + 1⟩ (next + 2 + body.width) frame) ++
      (only (body.finish ⟨next⟩ (next + 2)) id
          [.link (body.finish ⟨next⟩ (next + 2)) ⟨next + 2 + body.width + orelse.width⟩] ++
        (only (orelse.finish ⟨next + 1⟩ (next + 2 + body.width)) id
          [.link (orelse.finish ⟨next + 1⟩ (next + 2 + body.width))
            ⟨next + 2 + body.width + orelse.width⟩] ++
      about id (rest.script ⟨next + 2 + body.width + orelse.width⟩
        (next + 3 + body.width + orelse.width) frame))))) := by
  have create : subject .create = none := rfl
  have link : ∀ source target, subject (.link source target) = some source := fun _ _ => rfl
  simp only [script, about_append, about_fork, about_cons_of_none create,
    about_cons_of_some (link _ _), about_nil, List.append_nil, List.append_assoc]

theorem about_loop : about id ((loop stmt body rest).script cursor next frame) =
    only cursor id [.append cursor stmt, .link cursor ⟨next⟩, .link cursor ⟨next + 1⟩] ++
      (about id (body.script ⟨next⟩ (next + 2) (some ⟨cursor, ⟨next + 1⟩⟩)) ++
      (only (body.finish ⟨next⟩ (next + 2)) id
        [.link (body.finish ⟨next⟩ (next + 2)) cursor,
          .link (body.finish ⟨next⟩ (next + 2)) ⟨next + 1⟩] ++
      about id (rest.script ⟨next + 1⟩ (next + 2 + body.width) frame))) := by
  have link : ∀ source target, subject (.link source target) = some source := fun _ _ => rfl
  simp only [script, about_append, about_fork, about_cons_of_some (link _ _), about_nil,
    only_cons_append, List.append_nil, List.append_assoc]

theorem about_jump {kind : Jump} : about id ((jump kind stmt rest).script cursor next frame) =
    only cursor id (.append cursor stmt :: kind.leave cursor frame) ++
      about id (rest.script ⟨next⟩ (next + 1) frame) := by
  have append : subject (.append cursor stmt) = some cursor := rfl
  have create : subject .create = none := rfl
  have leave : about id (kind.leave cursor frame) = only cursor id (kind.leave cursor frame) := by
    by_cases same : id = cursor
    · subst same
      rw [only_self]
      exact List.filter_eq_self.mpr fun _ member => by
        simp [(Jump.subject_of_mem_leave member).1]
    · rw [only_of_ne same]
      exact about_eq_nil fun _ member => by
        simpa [(Jump.subject_of_mem_leave member).1] using Ne.symm same
  simp only [script, about_append, about_cons_of_some append, about_cons_of_none create, leave,
    only_cons_append, List.cons_append]

theorem not_region {flow : Flow} (apart : id.index ≠ cursor.index)
    (outside : id.index < next ∨ next + flow.width ≤ id.index) : ¬ flow.Region cursor next id := by
  intro inside
  have := inside.index
  omega

theorem ne_finish {flow : Flow} (outside : ¬ flow.Region cursor next id) :
    id ≠ flow.finish cursor next :=
  fun same => outside (same ▸ region_finish ..)

theorem ne_of_index_ne {left right : BlockId} (h : left.index ≠ right.index) : left ≠ right :=
  fun same => h (congrArg BlockId.index same)

theorem lays_step {deferred : Bool}
    (h : graph.Lays frame (.step stmt deferred rest) cursor next before behind) :
    graph.Lays frame rest cursor next (before ++ [.append cursor stmt]) behind := by
  intro id inside
  have here := h id inside
  rw [about_step] at here
  by_cases same : id = cursor
  · subst same
    simpa only [only_self, finish, List.append_assoc] using here
  · simpa only [only_of_ne same, finish, List.nil_append] using here

section Branch

variable (old : cursor.index < next)
  (h : graph.Lays frame (.branch stmt body orelse rest) cursor next before behind)

include old h

theorem holds_branch : graph.Holds cursor (before ++
    [.append cursor stmt, .link cursor ⟨next⟩, .link cursor ⟨next + 1⟩]) := by
  have here := h cursor (.inl rfl)
  have notBody : ¬ body.Region ⟨next⟩ (next + 2) cursor :=
    not_region (by simp only; omega) (by omega)
  have notOrelse : ¬ orelse.Region ⟨next + 1⟩ (next + 2 + body.width) cursor :=
    not_region (by simp only; omega) (by omega)
  have notRest : ¬ rest.Region ⟨next + 2 + body.width + orelse.width⟩
      (next + 3 + body.width + orelse.width) cursor :=
    not_region (by simp only; omega) (by omega)
  simpa only [about_branch, only_self, finish, about_script_eq_nil notBody,
    about_script_eq_nil notOrelse, about_script_eq_nil notRest, only_of_ne (ne_finish notBody),
    only_of_ne (ne_finish notOrelse), only_of_ne (ne_finish notRest), List.append_nil] using here

theorem lays_branch_body : graph.Lays frame body ⟨next⟩ (next + 2) []
    [.link (body.finish ⟨next⟩ (next + 2)) ⟨next + 2 + body.width + orelse.width⟩] := by
  intro id inside
  have here := h id (.of_branch_body inside)
  have index := inside.index
  simp only at index
  have notCursor : id ≠ cursor := ne_of_index_ne (by omega)
  have notOrelse : ¬ orelse.Region ⟨next + 1⟩ (next + 2 + body.width) id :=
    not_region (by simp only; omega) (by omega)
  have notRest : ¬ rest.Region ⟨next + 2 + body.width + orelse.width⟩
      (next + 3 + body.width + orelse.width) id :=
    not_region (by simp only; omega) (by omega)
  simpa only [about_branch, only_of_ne notCursor, finish, about_script_eq_nil notOrelse,
    about_script_eq_nil notRest, only_of_ne (ne_finish notOrelse),
    only_of_ne (ne_finish notRest), only_nil, List.append_nil, List.nil_append] using here

theorem lays_branch_orelse : graph.Lays frame orelse ⟨next + 1⟩ (next + 2 + body.width) []
    [.link (orelse.finish ⟨next + 1⟩ (next + 2 + body.width))
      ⟨next + 2 + body.width + orelse.width⟩] := by
  intro id inside
  have here := h id (.of_branch_orelse inside)
  have index := inside.index
  simp only at index
  have notCursor : id ≠ cursor := ne_of_index_ne (by omega)
  have notBody : ¬ body.Region ⟨next⟩ (next + 2) id := not_region (by simp only; omega) (by omega)
  have notRest : ¬ rest.Region ⟨next + 2 + body.width + orelse.width⟩
      (next + 3 + body.width + orelse.width) id :=
    not_region (by simp only; omega) (by omega)
  simpa only [about_branch, only_of_ne notCursor, finish, about_script_eq_nil notBody,
    about_script_eq_nil notRest, only_of_ne (ne_finish notBody),
    only_of_ne (ne_finish notRest), only_nil, List.append_nil, List.nil_append] using here

theorem lays_branch_rest : graph.Lays frame rest ⟨next + 2 + body.width + orelse.width⟩
    (next + 3 + body.width + orelse.width) [] behind := by
  intro id inside
  have here := h id (.of_branch_rest inside)
  have index := inside.index
  simp only at index
  have notCursor : id ≠ cursor := ne_of_index_ne (by omega)
  have notBody : ¬ body.Region ⟨next⟩ (next + 2) id := not_region (by simp only; omega) (by omega)
  have notOrelse : ¬ orelse.Region ⟨next + 1⟩ (next + 2 + body.width) id :=
    not_region (by simp only; omega) (by omega)
  simpa only [about_branch, only_of_ne notCursor, finish, about_script_eq_nil notBody,
    about_script_eq_nil notOrelse, only_of_ne (ne_finish notBody),
    only_of_ne (ne_finish notOrelse), only_nil, List.append_nil, List.nil_append] using here

end Branch

section Loop

variable (old : cursor.index < next)
  (h : graph.Lays frame (.loop stmt body rest) cursor next before behind)

include old h

theorem holds_loop : graph.Holds cursor (before ++
    [.append cursor stmt, .link cursor ⟨next⟩, .link cursor ⟨next + 1⟩]) := by
  have here := h cursor (.inl rfl)
  have notBody : ¬ body.Region ⟨next⟩ (next + 2) cursor :=
    not_region (by simp only; omega) (by omega)
  have notRest : ¬ rest.Region ⟨next + 1⟩ (next + 2 + body.width) cursor :=
    not_region (by simp only; omega) (by omega)
  simpa only [about_loop, only_self, finish, about_script_eq_nil notBody,
    about_script_eq_nil notRest, only_of_ne (ne_finish notBody), only_of_ne (ne_finish notRest),
    List.append_nil] using here

theorem lays_loop_body : graph.Lays (some ⟨cursor, ⟨next + 1⟩⟩) body ⟨next⟩ (next + 2) []
    [.link (body.finish ⟨next⟩ (next + 2)) cursor,
      .link (body.finish ⟨next⟩ (next + 2)) ⟨next + 1⟩] := by
  intro id inside
  have here := h id (.of_loop_body inside)
  have index := inside.index
  simp only at index
  have notCursor : id ≠ cursor := ne_of_index_ne (by omega)
  have notRest : ¬ rest.Region ⟨next + 1⟩ (next + 2 + body.width) id :=
    not_region (by simp only; omega) (by omega)
  simpa only [about_loop, only_of_ne notCursor, finish, about_script_eq_nil notRest,
    only_of_ne (ne_finish notRest), only_nil, List.append_nil, List.nil_append] using here

theorem lays_loop_rest :
    graph.Lays frame rest ⟨next + 1⟩ (next + 2 + body.width) [] behind := by
  intro id inside
  have here := h id (.of_loop_rest inside)
  have index := inside.index
  simp only at index
  have notCursor : id ≠ cursor := ne_of_index_ne (by omega)
  have notBody : ¬ body.Region ⟨next⟩ (next + 2) id := not_region (by simp only; omega) (by omega)
  simpa only [about_loop, only_of_ne notCursor, finish, about_script_eq_nil notBody,
    only_of_ne (ne_finish notBody), only_nil, List.append_nil, List.nil_append] using here

end Loop

section Jump

variable {kind : Jump} (old : cursor.index < next)
  (h : graph.Lays frame (.jump kind stmt rest) cursor next before behind)

include old h

theorem holds_jump :
    graph.Holds cursor (before ++ .append cursor stmt :: kind.leave cursor frame) := by
  have here := h cursor (.inl rfl)
  have notRest : ¬ rest.Region ⟨next⟩ (next + 1) cursor :=
    not_region (by simp only; omega) (by omega)
  simpa only [about_jump, only_self, finish, about_script_eq_nil notRest,
    only_of_ne (ne_finish notRest), List.append_nil] using here

theorem lays_jump_rest : graph.Lays frame rest ⟨next⟩ (next + 1) [] behind := by
  intro id inside
  have here := h id (.of_jump_rest inside)
  have index := inside.index
  simp only at index
  have notCursor : id ≠ cursor := ne_of_index_ne (by omega)
  simpa only [about_jump, only_of_ne notCursor, finish, only_nil, List.nil_append] using here

end Jump

end Flow

/-- The statements that a block had before count among its statements and give no way out. -/
theorem Graph.Holds.shows {graph : Graph} {cursor : BlockId} {before : List StmtId}
    {operations : List Operation}
    (h : graph.Holds cursor (before.map (.append cursor) ++ operations)) :
    graph.Shows cursor (before ++ operations.flatMap (Operation.statements cursor))
      (operations.flatMap (Operation.targets cursor))
      (operations.any (Operation.terminates cursor)) := by
  have statements :
      (before.map (Operation.append cursor)).flatMap (Operation.statements cursor) = before := by
    simp [List.flatMap_map, Operation.statements]
  have targets :
      (before.map (Operation.append cursor)).flatMap (Operation.targets cursor) = [] := by
    simp [List.flatMap_map, Operation.targets]
  have terminates :
      (before.map (Operation.append cursor)).any (Operation.terminates cursor) = false := by
    simp [Operation.terminates]
  simpa only [Graph.Holds, List.flatMap_append, List.any_append, statements, targets, terminates,
    List.nil_append, Bool.false_or] using h

theorem Graph.Holds.shows_fork {graph : Graph} {cursor left right : BlockId} {before : List StmtId}
    {stmt : StmtId}
    (h : graph.Holds cursor (before.map (.append cursor) ++
      [.append cursor stmt, .link cursor left, .link cursor right])) :
    graph.Shows cursor (before ++ [stmt]) [left, right] false := by
  simpa [Operation.statements, Operation.targets, Operation.terminates] using h.shows

theorem Graph.Holds.shows_link {graph : Graph} {cursor target : BlockId} {before : List StmtId}
    {stmt : StmtId}
    (h : graph.Holds cursor (before.map (.append cursor) ++
      [.append cursor stmt, .link cursor target])) :
    graph.Shows cursor (before ++ [stmt]) [target] false := by
  simpa [Operation.statements, Operation.targets, Operation.terminates] using h.shows

theorem Graph.Holds.shows_terminal {graph : Graph} {cursor : BlockId} {before : List StmtId}
    {stmt : StmtId}
    (h : graph.Holds cursor (before.map (.append cursor) ++
      [.append cursor stmt, .markTerminal cursor])) :
    graph.Shows cursor (before ++ [stmt]) [] true := by
  simpa [Operation.statements, Operation.targets, Operation.terminates] using h.shows

theorem Flow.shows_done {graph : Graph} {frame : Option LoopFrame} {cursor : BlockId} {next : Nat}
    {before : List StmtId} {out : List BlockId}
    (lays : graph.Lays frame .done cursor next (before.map (.append cursor))
      (out.map (.link cursor))) :
    graph.Shows cursor before out false := by
  have here := lays cursor (.inl rfl)
  simp only [Operation.only_self, Flow.finish, Flow.script, Operation.about_nil,
    List.append_nil] at here
  have statements :
      (out.map (Operation.link cursor)).flatMap (Operation.statements cursor) = [] := by
    simp [List.flatMap_eq_nil_iff, Operation.statements]
  have targets :
      (out.map (Operation.link cursor)).flatMap (Operation.targets cursor) = out := by
    simp [List.flatMap_map, Operation.targets]
  have terminates :
      (out.map (Operation.link cursor)).any (Operation.terminates cursor) = false := by
    simp [Operation.terminates]
  have shows := here.shows
  rw [statements, targets, terminates, List.append_nil] at shows
  exact shows

namespace Context

/-- A flow that was laid out is found in the graph. -/
theorem realizes_of_lays {context : Context} {graph : Graph} {inLoop : Bool} {ids : List StmtId}
    {flow : Flow} {frame : Option LoopFrame} {cursor : BlockId} {next : Nat}
    {before : List StmtId} {out : List BlockId} (reads : context.Reads inLoop ids flow)
    (framed : frame.isSome = inLoop) (old : cursor.index < next)
    (lays : graph.Lays frame flow cursor next (before.map (.append cursor))
      (out.map (.link (flow.finish cursor next)))) :
    graph.Realizes frame flow before cursor (flow.finish cursor next) out := by
  induction reads generalizing frame cursor next before out with
  | done => exact .done (Flow.shows_done lays)
  | plain _ _ ih =>
      refine .step (ih framed old ?_)
      rw [List.map_append]
      exact Flow.lays_step lays
  | deferred _ _ ih =>
      refine .step (ih framed old ?_)
      rw [List.map_append]
      exact Flow.lays_step lays
  | branch _ _ _ _ ihBody ihOrelse ihRest =>
      exact .branch (Flow.holds_branch old lays).shows_fork
        (ihBody framed (by simp only; omega) (Flow.lays_branch_body old lays))
        (ihOrelse framed (by simp only; omega) (Flow.lays_branch_orelse old lays))
        (ihRest framed (by simp only; omega) (Flow.lays_branch_rest old lays))
  | loop _ _ _ ihBody ihRest =>
      exact .loop (Flow.holds_loop old lays).shows_fork
        (ihBody rfl (by simp only; omega) (Flow.lays_loop_body old lays))
        (ihRest framed (by simp only; omega) (Flow.lays_loop_rest old lays))
  | returns _ _ ih =>
      exact .returns (Flow.holds_jump old lays).shows_terminal
        (ih framed (by simp only; omega) (Flow.lays_jump_rest old lays))
  | breaks _ _ ih =>
      obtain ⟨frame, rfl⟩ := Option.isSome_iff_exists.mp framed
      exact .breaks (Flow.holds_jump old lays).shows_link
        (ih framed (by simp only; omega) (Flow.lays_jump_rest old lays))
  | continues _ _ ih =>
      obtain ⟨frame, rfl⟩ := Option.isSome_iff_exists.mp framed
      exact .continues (Flow.holds_jump old lays).shows_link
        (ih framed (by simp only; omega) (Flow.lays_jump_rest old lays))

variable {context : Context} {start : Numbering} {body : List StmtId} {last : BlockId}
  {graph : Graph}

/-- Whatever a built graph has, the flow of the body put there. -/
theorem Built.lays (built : context.Built start body last graph) :
    graph.Lays none (context.bodyFlow body) start.next (start.next.index + 1) [] [] := by
  have history := Graph.history_performAll built.laid
  intro id _
  have holds : graph.Holds id
      ((context.bodyFlow body).script start.next (start.next.index + 1) none) := by
    constructor
    · rw [history.statements, Graph.statements_blank, List.nil_append]
    · rw [history.successors, Graph.successors_blank, List.nil_append]
    · rw [history.isTerminal, Graph.isTerminal_blank, Bool.false_or]
  simpa only [Operation.only_nil, List.nil_append, List.append_nil] using holds.of_about

theorem Built.entry_eq (built : context.Built start body last graph) : graph.entry = start.next :=
  (Graph.history_performAll built.laid).entry

/-- The graph that a build gives has the shape of the flow of the body. -/
theorem Built.realizes (built : context.Built start body last graph) :
    graph.Realizes none (context.bodyFlow body) [] graph.entry last [] := by
  rw [built.entry_eq, built.last_eq]
  exact realizes_of_lays built.reads rfl (Nat.lt_succ_self _) built.lays

end Context

end FlowGraph
