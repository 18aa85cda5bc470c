import FlowGraph.Proofs.Steps

/-! # The legs of a walk

A walk comes to each statement on a leg of its way: some statements of a sequence are
still to be walked, from some block on, inside some loop. A leg leads to the one behind
its first statement and, where that is a branch or a loop, to those inside of it. The
legs that are found here are those of walks that went through; so each of them begins at
a ready cursor, with the numbers that the flow of its statements asks for.
-/

namespace FlowGraph

/-- A part of a walk: the rest of a sequence, the block from which it is walked and what
    the walk knows there, and the innermost loop statement around the sequence. -/
structure Leg where
  loop : Option StmtId
  levels : Nat
  cursor : BlockId
  ids : List StmtId
  state : WalkState
  log : Log

/-- How one leg of a walk leads to another one. -/
inductive Way where
  /-- Past a statement. -/
  | onward
  /-- Into the body of a branch. -/
  | body
  /-- Into the else part of a branch. -/
  | orelse
  /-- Into the body of a loop. -/
  | turn
  deriving Repr, DecidableEq

namespace Context

open WalkM

/-- From a leg the walk comes to others: behind its first statement, and inside it where
    that is a branch or a loop. -/
inductive Leads (context : Context) : Way → Leg → Leg → Prop where
  | onward {loop levels cursor id ids state log next after log'} :
      context.walkStmt levels cursor id state log = .ok (next, after) log' →
      Leads context .onward ⟨loop, levels, cursor, id :: ids, state, log⟩
        ⟨loop, levels, next, ids, after, log'⟩
  | body {loop levels cursor id ids state log stmt left right forked log'} :
      context.Treats id stmt .branch →
      fork cursor id (.branched cursor) state
        (log.push (.visited stmt.line stmt.kind .branch cursor)) =
          .ok ((left, right), forked) log' →
      Leads context .body ⟨loop, levels + 1, cursor, id :: ids, state, log⟩
        ⟨loop, levels, left, stmt.body, forked, log'⟩
  | orelse {loop levels cursor id ids state log stmt left right forked log₁ last after log'} :
      context.Treats id stmt .branch →
      fork cursor id (.branched cursor) state
        (log.push (.visited stmt.line stmt.kind .branch cursor)) =
          .ok ((left, right), forked) log₁ →
      context.walkSeq levels left stmt.body forked log₁ = .ok (last, after) log' →
      Leads context .orelse ⟨loop, levels + 1, cursor, id :: ids, state, log⟩
        ⟨loop, levels, right, stmt.orelse, after, log'⟩
  | turn {loop levels cursor id ids state log stmt entry exit graph loops log'} :
      context.Treats id stmt .loop →
      fork cursor id (.looped cursor) state
        (log.push (.visited stmt.line stmt.kind .loop cursor)) =
          .ok ((entry, exit), ⟨graph, loops⟩) log' →
      Leads context .turn ⟨loop, levels + 1, cursor, id :: ids, state, log⟩
        ⟨some id, levels, entry, stmt.body, ⟨graph, ⟨cursor, exit⟩ :: loops⟩, log'⟩

/-- The leg with which the walk of a whole body begins. -/
def firstLeg (context : Context) (start : Numbering) (body : List StmtId) (log : Log) : Leg :=
  ⟨none, context.maxDepth + 1, start.next, body, ⟨.blank start.next, []⟩,
    log.push (.entered start.next context.dialect.name)⟩

/-- The legs of the walk of a body. -/
inductive Passes (context : Context) (start : Numbering) (body : List StmtId) (log : Log) :
    Leg → Prop where
  | first : Passes context start body log (context.firstLeg start body log)
  | step {way leg leg'} : Passes context start body log leg → context.Leads way leg leg' →
      Passes context start body log leg'

/-- The block where the walk of a leg ends. -/
def Ends (context : Context) (leg : Leg) (last : BlockId) : Prop :=
  ∃ after log', context.walkSeq leg.levels leg.cursor leg.ids leg.state leg.log =
    .ok (last, after) log'

theorem Leads.unique {context : Context} {way : Way} {leg left right : Leg}
    (hl : context.Leads way leg left) (hr : context.Leads way leg right) : left = right := by
  cases hl with
  | onward walked =>
      cases hr with
      | onward walked' =>
          cases walked.symm.trans walked'
          rfl
  | body treats forked =>
      cases hr with
      | body treats' forked' =>
          obtain ⟨rfl, _⟩ := treats.unique treats'
          cases forked.symm.trans forked'
          rfl
  | orelse treats forked walked =>
      cases hr with
      | orelse treats' forked' walked' =>
          obtain ⟨rfl, _⟩ := treats.unique treats'
          cases forked.symm.trans forked'
          cases walked.symm.trans walked'
          rfl
  | turn treats forked =>
      cases hr with
      | turn treats' forked' =>
          obtain ⟨rfl, _⟩ := treats.unique treats'
          cases forked.symm.trans forked'
          rfl

/-- Only the way into a loop changes the innermost loop. -/
theorem Leads.loop_eq {context : Context} {way : Way} {leg leg' : Leg}
    (leads : context.Leads way leg leg') :
    leg'.loop = if way = .turn then leg.ids.head? else leg.loop := by
  cases leads <;> rfl

/-- A leg of a walk that went through: what is to be walked, the flow of that, the cursor,
    the number of the next block and the innermost loop. -/
structure Stands (context : Context) (leg : Leg) (ids : List StmtId) (flow : Flow)
    (cursor : BlockId) (next : Nat) (frame : Option LoopFrame) : Prop where
  ready : leg.state.Ready leg.cursor
  ran : ∃ last, context.Ends leg last
  ids_eq : leg.ids = ids
  flow_eq : context.flow leg.levels leg.ids = flow
  cursor_eq : leg.cursor = cursor
  next_eq : leg.state.graph.next = next
  frame_eq : leg.state.loops.head? = frame

theorem flow_cons_of_treats {context : Context} {levels : Nat} {id : StmtId} {stmt : Stmt}
    {rule : Rule} {ids : List StmtId} (treats : context.Treats id stmt rule) :
    context.flow (levels + 1) (id :: ids) =
      match rule with
      | .sequential => .step id false (context.flow (levels + 1) ids)
      | .deferred => .step id true (context.flow (levels + 1) ids)
      | .branch => .branch id (context.flow levels stmt.body) (context.flow levels stmt.orelse)
          (context.flow (levels + 1) ids)
      | .loop => .loop id (context.flow levels stmt.body) (context.flow (levels + 1) ids)
      | .returns => .jump .returns id (context.flow (levels + 1) ids)
      | .breaks => .jump .breaks id (context.flow (levels + 1) ids)
      | .continues => .jump .continues id (context.flow (levels + 1) ids)
      | .unsupported => context.flow (levels + 1) ids := by
  rw [flow_cons, flowStmt_succ treats.kept, treats.treated]
  cases rule <;> rfl

namespace Stands

variable {context : Context} {leg : Leg} {ids : List StmtId} {flow body orelse rest : Flow}
  {cursor : BlockId} {next : Nat} {frame : Option LoopFrame} {id : StmtId}

theorem reads (stands : context.Stands leg ids flow cursor next frame) :
    context.Reads leg.state.inLoop ids flow := by
  obtain ⟨_, _, _, walked⟩ := stands.ran
  rw [← stands.ids_eq, ← stands.flow_eq]
  exact (reads_of_faultless (laid_of_walkSeq stands.ready walked).1).1

theorem old (stands : context.Stands leg ids flow cursor next frame) : cursor.index < next := by
  rw [← stands.cursor_eq, ← stands.next_eq]
  exact stands.ready.old

theorem onward (stands : context.Stands leg (id :: ids) flow cursor next frame) :
    ∃ levels behind, leg.levels = levels + 1 ∧ context.Leads .onward leg behind ∧
      context.Stands behind ids (context.flow (levels + 1) ids)
        ((context.flowStmt (levels + 1) id).finish cursor next)
        (next + (context.flowStmt (levels + 1) id).width) frame := by
  obtain ⟨loop, levels, cursor, _, state, log⟩ := leg
  obtain ⟨ready, ⟨last, _, _, walked⟩, rfl, rfl, rfl, rfl, rfl⟩ := stands
  obtain ⟨_, _, _, first, others⟩ := walkSeq_cons_eq_ok.mp walked
  obtain ⟨levels, _, _, rfl, _⟩ := exists_treats_of_walkStmt first
  obtain ⟨_, laid⟩ := laid_of_walkStmt ready first
  refine ⟨levels, _, rfl, .onward first, laid.ready ready, ⟨last, _, _, others⟩, rfl, rfl,
    laid.last_eq, laid.next, ?_⟩
  exact congrArg List.head? laid.after.loops

theorem step {deferred : Bool}
    (stands : context.Stands leg (id :: ids) (.step id deferred rest) cursor next frame) :
    ∃ behind, context.Leads .onward leg behind ∧
      context.Stands behind ids rest cursor next frame := by
  obtain ⟨levels, behind, levels_eq, leads, further⟩ := stands.onward
  have flow_eq := stands.flow_eq
  rw [stands.ids_eq, levels_eq] at flow_eq
  have reads := stands.reads
  generalize leg.state.inLoop = inLoop at reads
  cases reads with
  | plain treats _ | deferred treats _ =>
      rw [flow_cons_of_treats treats] at flow_eq
      rw [flowStmt_succ treats.kept, treats.treated, (Flow.step.inj flow_eq).2.2] at further
      exact ⟨behind, leads, further⟩

theorem jump {kind : Jump}
    (stands : context.Stands leg (id :: ids) (.jump kind id rest) cursor next frame) :
    ∃ behind, context.Leads .onward leg behind ∧
      context.Stands behind ids rest ⟨next⟩ (next + 1) frame := by
  obtain ⟨levels, behind, levels_eq, leads, further⟩ := stands.onward
  have flow_eq := stands.flow_eq
  rw [stands.ids_eq, levels_eq] at flow_eq
  have reads := stands.reads
  generalize leg.state.inLoop = inLoop at reads
  cases reads with
  | returns treats _ | breaks treats _ | continues treats _ =>
      rw [flow_cons_of_treats treats] at flow_eq
      rw [flowStmt_succ treats.kept, treats.treated, (Flow.jump.inj flow_eq).2.2] at further
      exact ⟨behind, leads, further⟩

/-- The arms of a branch are walked in the two blocks that were opened for them, one after
    the other, and behind them is the block where they join. -/
theorem branch
    (stands : context.Stands leg (id :: ids) (.branch id body orelse rest) cursor next frame) :
    ∃ stmt inBody inOrelse behind, context.Treats id stmt .branch ∧
      context.Leads .body leg inBody ∧ context.Leads .orelse leg inOrelse ∧
      context.Leads .onward leg behind ∧
      context.Stands inBody stmt.body body ⟨next⟩ (next + 2) frame ∧
      context.Stands inOrelse stmt.orelse orelse ⟨next + 1⟩ (next + 2 + body.width) frame ∧
      context.Stands behind ids rest ⟨next + 2 + body.width + orelse.width⟩
        (next + 3 + body.width + orelse.width) frame := by
  obtain ⟨levels, behind, levels_eq, leads, further⟩ := stands.onward
  have reads := stands.reads
  generalize leg.state.inLoop = inLoop at reads
  obtain ⟨loop, _, cursor, _, state, log⟩ := leg
  obtain ⟨ready, ⟨_, _, _, walked⟩, rfl, flow_eq, rfl, rfl, rfl⟩ := stands
  obtain rfl := levels_eq
  obtain ⟨_, _, _, first, _⟩ := walkSeq_cons_eq_ok.mp walked
  cases reads with
  | branch treats _ _ _ =>
      rw [flow_cons_of_treats treats] at flow_eq
      obtain ⟨_, rfl, rfl, rfl⟩ := Flow.branch.inj flow_eq
      rw [flowStmt_succ treats.kept, treats.treated] at further
      obtain ⟨s₁, l₁, left, s₂, l₂, right, s₃, l₃, forking, forked, walkBody, ready₂, next₂, loops₂,
        walkOrelse, _⟩ := walkStmt_branch_eq_ok treats ready first
      refine ⟨_, _, _, behind, treats, .body treats forking, .orelse treats forking walkBody, leads,
        ⟨ready.fork forked (.inl rfl), ⟨left, _, _, walkBody⟩, rfl, rfl, rfl,
          forked.history.next, congrArg List.head? forked.loops⟩,
        ⟨ready₂, ⟨right, _, _, walkOrelse⟩, rfl, rfl, rfl, next₂, congrArg List.head? loops₂⟩,
        { further with next_eq := further.next_eq.trans ?_ }⟩
      simp only [Flow.width]
      omega

/-- The body of a loop is walked in a block that was opened for it, inside the loop, and
    behind the loop is its end. -/
theorem loop (stands : context.Stands leg (id :: ids) (.loop id body rest) cursor next frame) :
    ∃ stmt inBody behind, context.Treats id stmt .loop ∧ context.Leads .turn leg inBody ∧
      context.Leads .onward leg behind ∧
      context.Stands inBody stmt.body body ⟨next⟩ (next + 2) (some ⟨cursor, ⟨next + 1⟩⟩) ∧
      context.Stands behind ids rest ⟨next + 1⟩ (next + 2 + body.width) frame := by
  obtain ⟨levels, behind, levels_eq, leads, further⟩ := stands.onward
  have reads := stands.reads
  generalize leg.state.inLoop = inLoop at reads
  obtain ⟨around, _, cursor, _, state, log⟩ := leg
  obtain ⟨ready, ⟨_, _, _, walked⟩, rfl, flow_eq, rfl, rfl, rfl⟩ := stands
  obtain rfl := levels_eq
  obtain ⟨_, _, _, first, _⟩ := walkSeq_cons_eq_ok.mp walked
  cases reads with
  | loop treats _ _ =>
      rw [flow_cons_of_treats treats] at flow_eq
      obtain ⟨_, rfl, rfl⟩ := Flow.loop.inj flow_eq
      rw [flowStmt_succ treats.kept, treats.treated] at further
      obtain ⟨s₁, l₁, bodyEnd, s₂, l₂, forking, forked, walkBody, _⟩ :=
        walkStmt_loop_eq_ok treats ready first
      refine ⟨_, _, behind, treats, .turn treats forking, leads,
        ⟨ready.enter forked, ⟨bodyEnd, _, _, walkBody⟩, rfl, rfl, rfl, forked.history.next, rfl⟩,
        { further with next_eq := further.next_eq.trans ?_ }⟩
      simp only [Flow.width]
      omega

end Stands

section Build

variable {context : Context} {start : Numbering} {body : List StmtId} {log log' : Log}
  {graph : Graph}

theorem stands_firstLeg (success : context.build start body log = .ok graph log') :
    context.Stands (context.firstLeg start body log) body (context.bodyFlow body) start.next
      (start.next.index + 1) none := by
  obtain ⟨last, walked, _⟩ := walkSeq_of_build success
  exact ⟨WalkState.ready_blank start.next, ⟨last, _, _, walked⟩, rfl, rfl, rfl, rfl, rfl⟩

end Build

end Context

end FlowGraph
