import FlowGraph.Proofs.Building

/-! # The steps of a walk that went through

A walk of a sequence that gives a result has walked its statements one by one, and the
walk of a branch or a loop has walked the sequences nested in it, each from a block that
was opened for it. What follows is read off the result: in which states and from which
blocks these walks began.
-/

namespace FlowGraph

variable {context : Context} {levels : Nat} {cursor last : BlockId} {id : StmtId} {stmt : Stmt}
  {ids : List StmtId} {state after : WalkState} {log log' : Log}

namespace WalkM

variable {α : Type} {walk : WalkM α} {bound : Nat} {done : α → WalkState → Prop}
  {refused : FlowError → Prop}

theorem Ends.of_ok {value : α} (ends : walk.Ends state bound done refused)
    (ok : walk state log = .ok (value, after) log') : done value after := by
  have ending := ends log
  rw [ok] at ending
  exact ending

/-- Ends a block with a statement from which control goes on in one of two new blocks. -/
def fork (cursor : BlockId) (id : StmtId) (event : BlockId → BlockId → Event) :
    WalkM (BlockId × BlockId) := do
  append cursor id
  let left ← create
  let right ← create
  record (event left right)
  link cursor left
  link cursor right
  return (left, right)

/-- Opens the block where two arms join. -/
def join (left right : BlockId) : WalkM BlockId := do
  let after ← create
  record (.joined after)
  link left after
  link right after
  return after

/-- Leaves a loop from the end of its body. -/
def finishLoop (header exit bodyExit : BlockId) : WalkM BlockId := do
  leaveLoop
  let last ← block bodyExit
  if last.successors.isEmpty then
    link bodyExit header
    link bodyExit exit
  return exit

theorem fork_eq_ok {event : BlockId → BlockId → Event} {entries : BlockId × BlockId}
    (ready : state.Ready cursor) (ok : fork cursor id event state log = .ok (entries, after) log') :
    entries = (⟨state.graph.next⟩, ⟨state.graph.next + 1⟩) ∧
      state.After (Flow.fork cursor id state.graph.next) after := by
  have ends : (fork cursor id event).Ends state (state.graph.next + 2)
      (fun entries after => entries = (⟨state.graph.next⟩, ⟨state.graph.next + 1⟩) ∧
        state.After (Flow.fork cursor id state.graph.next) after) fun _ => False :=
    Context.ends_fork ready (Nat.le_refl _) fun _ forked => ends_pure ⟨rfl, forked⟩
  exact ends.of_ok ok

end WalkM

namespace Context

open WalkM

theorem walkBranch_eq (context : Context) (walk : BlockId → List StmtId → WalkM BlockId)
    (cursor : BlockId) (id : StmtId) (stmt : Stmt) :
    context.walkBranch walk cursor id stmt =
      if stmt.hasClauses then context.unsupported stmt.kind.name id stmt
      else (do
        let entries ← fork cursor id (.branched cursor)
        let left ← walk entries.1 stmt.body
        let right ← walk entries.2 stmt.orelse
        join left right) := by
  unfold walkBranch fork join
  simp only [bind_assoc, pure_bind]

theorem walkLoop_eq (context : Context) (walk : BlockId → List StmtId → WalkM BlockId)
    (cursor : BlockId) (id : StmtId) (stmt : Stmt) :
    context.walkLoop walk cursor id stmt =
      if !stmt.orelse.isEmpty then
        context.unsupported (stmt.kind.loopKeyword ++ "-else") id stmt
      else if stmt.hasClauses then context.unsupported stmt.kind.name id stmt
      else (do
        let entries ← fork cursor id (.looped cursor)
        enterLoop ⟨cursor, entries.2⟩
        let last ← walk entries.1 stmt.body
        finishLoop cursor entries.2 last) := by
  unfold walkLoop fork finishLoop
  simp only [bind_assoc, pure_bind]

theorem laid_of_walkSeq (ready : state.Ready cursor)
    (ok : context.walkSeq levels cursor ids state log = .ok (last, after) log') :
    context.faultIn? levels state.inLoop ids = none ∧
      state.Laid (context.flow levels ids) cursor last after :=
  (context.walksSeq levels ready (Nat.le_refl _)).of_ok ok

theorem walkSeq_cons_eq_ok :
    context.walkSeq levels cursor (id :: ids) state log = .ok (last, after) log' ↔
      ∃ mid state₁ log₁, context.walkStmt levels cursor id state log = .ok (mid, state₁) log₁ ∧
        context.walkSeq levels mid ids state₁ log₁ = .ok (last, after) log' := by
  rw [walkSeq, List.foldlM_cons, bind_eq_ok]
  rfl

theorem laid_of_walkStmt (ready : state.Ready cursor)
    (ok : context.walkStmt levels cursor id state log = .ok (last, after) log') :
    context.faultOf? levels state.inLoop id = none ∧
      state.Laid (context.flowStmt levels id) cursor last after := by
  have alone : context.walkSeq levels cursor [id] state log = .ok (last, after) log' :=
    walkSeq_cons_eq_ok.mpr ⟨_, _, _, ok, rfl⟩
  obtain ⟨clean, laid⟩ := laid_of_walkSeq ready alone
  rw [faultIn?_cons, Option.or_eq_none_iff] at clean
  rw [flow_cons, flow, List.foldr_nil, Flow.append_done] at laid
  exact ⟨clean.1, laid⟩

theorem exists_treats_of_walkStmt
    (ok : context.walkStmt levels cursor id state log = .ok (last, after) log') :
    ∃ below stmt rule, levels = below + 1 ∧ context.Treats id stmt rule := by
  cases kept : context.pool.get? id with
  | none => rw [walkStmt_of_missing kept] at ok; cases ok
  | some stmt =>
      cases levels with
      | zero => rw [walkStmt_zero kept] at ok; cases ok
      | succ below =>
          rw [walkStmt_succ kept, visit] at ok
          cases treated : context.dialect.ruleOf? stmt with
          | none => rw [treated] at ok; cases ok
          | some rule => exact ⟨below, stmt, rule, rfl, kept, treated⟩

theorem parts_of_walkStmt_branch (treats : context.Treats id stmt .branch)
    (ok : context.walkStmt (levels + 1) cursor id state log = .ok (last, after) log') :
    ∃ entries s₁ l₁ left s₂ l₂ right s₃ l₃,
      fork cursor id (.branched cursor) state
          (log.push (.visited stmt.line stmt.kind .branch cursor)) = .ok (entries, s₁) l₁ ∧
      context.walkSeq levels entries.1 stmt.body s₁ l₁ = .ok (left, s₂) l₂ ∧
      context.walkSeq levels entries.2 stmt.orelse s₂ l₂ = .ok (right, s₃) l₃ ∧
      join left right s₃ l₃ = .ok (last, after) log' := by
  rw [walkStmt_succ treats.kept, visit, treats.treated] at ok
  obtain ⟨_, _, _, ⟨⟩, ok⟩ := bind_eq_ok.mp ok
  simp only [walkBranch_eq] at ok
  split at ok
  · cases ok
  obtain ⟨entries, s₁, l₁, forking, ok⟩ := bind_eq_ok.mp ok
  obtain ⟨left, s₂, l₂, walkBody, ok⟩ := bind_eq_ok.mp ok
  obtain ⟨right, s₃, l₃, walkOrelse, joining⟩ := bind_eq_ok.mp ok
  exact ⟨entries, s₁, l₁, left, s₂, l₂, right, s₃, l₃, forking, walkBody, walkOrelse, joining⟩

theorem parts_of_walkStmt_loop (treats : context.Treats id stmt .loop)
    (ok : context.walkStmt (levels + 1) cursor id state log = .ok (last, after) log') :
    ∃ entries s₁ l₁ bodyEnd s₂ l₂,
      fork cursor id (.looped cursor) state
          (log.push (.visited stmt.line stmt.kind .loop cursor)) = .ok (entries, s₁) l₁ ∧
      context.walkSeq levels entries.1 stmt.body
        ⟨s₁.graph, ⟨cursor, entries.2⟩ :: s₁.loops⟩ l₁ = .ok (bodyEnd, s₂) l₂ ∧
      finishLoop cursor entries.2 bodyEnd s₂ l₂ = .ok (last, after) log' := by
  rw [walkStmt_succ treats.kept, visit, treats.treated] at ok
  obtain ⟨_, _, _, ⟨⟩, ok⟩ := bind_eq_ok.mp ok
  simp only [walkLoop_eq] at ok
  split at ok
  · cases ok
  split at ok
  · cases ok
  obtain ⟨entries, s₁, l₁, forking, ok⟩ := bind_eq_ok.mp ok
  obtain ⟨_, _, _, ⟨⟩, ok⟩ := bind_eq_ok.mp ok
  obtain ⟨bodyEnd, s₂, l₂, walkBody, finishing⟩ := bind_eq_ok.mp ok
  exact ⟨entries, s₁, l₁, bodyEnd, s₂, l₂, forking, walkBody, finishing⟩

/-- The walk of a branch from a ready cursor forks there into the next two blocks. -/
theorem walkStmt_branch_eq_ok (treats : context.Treats id stmt .branch)
    (ready : state.Ready cursor)
    (ok : context.walkStmt (levels + 1) cursor id state log = .ok (last, after) log') :
    ∃ s₁ l₁ left s₂ l₂ right s₃ l₃,
      fork cursor id (.branched cursor) state
          (log.push (.visited stmt.line stmt.kind .branch cursor)) =
        .ok ((⟨state.graph.next⟩, ⟨state.graph.next + 1⟩), s₁) l₁ ∧
      state.After (Flow.fork cursor id state.graph.next) s₁ ∧
      context.walkSeq levels ⟨state.graph.next⟩ stmt.body s₁ l₁ = .ok (left, s₂) l₂ ∧
      s₂.Ready ⟨state.graph.next + 1⟩ ∧
      s₂.graph.next = state.graph.next + 2 + (context.flow levels stmt.body).width ∧
      s₂.loops = state.loops ∧
      context.walkSeq levels ⟨state.graph.next + 1⟩ stmt.orelse s₂ l₂ = .ok (right, s₃) l₃ ∧
      join left right s₃ l₃ = .ok (last, after) log' := by
  obtain ⟨entries, s₁, l₁, left, s₂, l₂, right, s₃, l₃, forking, walkBody, walkOrelse, joining⟩ :=
    parts_of_walkStmt_branch treats ok
  obtain ⟨rfl, forked⟩ := fork_eq_ok ready forking
  obtain ⟨_, laid⟩ := laid_of_walkSeq (ready.fork forked (.inl rfl)) walkBody
  have next : s₁.graph.next = state.graph.next + 2 := forked.history.next
  have body := laid.after
  rw [next] at body
  exact ⟨s₁, l₁, left, s₂, l₂, right, s₃, l₃, forking, forked, walkBody,
    ready.fork_second forked body, by rw [laid.next, next], body.loops.trans forked.loops,
    walkOrelse, joining⟩

/-- The walk of a loop from a ready cursor forks there into the next two blocks. -/
theorem walkStmt_loop_eq_ok (treats : context.Treats id stmt .loop) (ready : state.Ready cursor)
    (ok : context.walkStmt (levels + 1) cursor id state log = .ok (last, after) log') :
    ∃ s₁ l₁ bodyEnd s₂ l₂,
      fork cursor id (.looped cursor) state
          (log.push (.visited stmt.line stmt.kind .loop cursor)) =
        .ok ((⟨state.graph.next⟩, ⟨state.graph.next + 1⟩), s₁) l₁ ∧
      state.After (Flow.fork cursor id state.graph.next) s₁ ∧
      context.walkSeq levels ⟨state.graph.next⟩ stmt.body
        ⟨s₁.graph, ⟨cursor, ⟨state.graph.next + 1⟩⟩ :: s₁.loops⟩ l₁ = .ok (bodyEnd, s₂) l₂ ∧
      finishLoop cursor ⟨state.graph.next + 1⟩ bodyEnd s₂ l₂ = .ok (last, after) log' := by
  obtain ⟨entries, s₁, l₁, bodyEnd, s₂, l₂, forking, walkBody, finishing⟩ :=
    parts_of_walkStmt_loop treats ok
  obtain ⟨rfl, forked⟩ := fork_eq_ok ready forking
  exact ⟨s₁, l₁, bodyEnd, s₂, l₂, forking, forked, walkBody, finishing⟩

theorem walkSeq_of_build {start : Numbering} {body : List StmtId} {graph : Graph}
    (success : context.build start body log = .ok graph log') :
    ∃ last, context.walkSeq (context.maxDepth + 1) start.next body ⟨.blank start.next, []⟩
        (log.push (.entered start.next context.dialect.name)) = .ok (last, ⟨graph, []⟩) log' ∧
      context.Built start body last graph := by
  obtain ⟨last, toEnd, built⟩ := built_of_build success
  obtain ⟨first, _, made, into⟩ := BuildM.bind_eq_ok.mp toEnd
  obtain ⟨made, same⟩ := BuildM.ofGraph_eq_ok.mp made
  obtain rfl := Graph.new_eq_blank made
  obtain ⟨_, _, ⟨⟩, into⟩ := BuildM.bind_eq_ok.mp into
  obtain ⟨⟨_, after⟩, _, walked, into⟩ := BuildM.bind_eq_ok.mp into
  obtain ⟨_, _, checked, ⟨⟩⟩ := BuildM.bind_eq_ok.mp into
  obtain ⟨_, rfl⟩ := BuildM.ofGraph_eq_ok.mp checked
  obtain ⟨_, laid⟩ := laid_of_walkSeq (WalkState.ready_blank start.next) walked
  have outside : after.loops = [] := laid.after.loops
  subst same
  refine ⟨_, walked.trans ?_, built⟩
  rw [← outside]

end Context

end FlowGraph
