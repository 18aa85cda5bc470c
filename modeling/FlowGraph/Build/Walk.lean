import FlowGraph.Build.Monad
import FlowGraph.Dialect.Basic
import FlowGraph.Stmt.Pool

/-! # Walking statements into a graph

The walk appends each statement to the block that control is in, the cursor, opens
the blocks that its rule asks for and gives the block where the next statement goes.
Bodies of definitions are not entered. The depth of nesting is bounded, which also
ends the walk of a statement that is nested in itself.
-/

namespace FlowGraph

/-- What a walk reads: the statements, their rules and the deepest nesting accepted. -/
structure Context where
  pool : StmtPool
  dialect : Dialect
  maxDepth : Nat := 256

namespace Context

/-- Gives up on a construct that the dialect has no place for. -/
def unsupported {α : Type} (context : Context) (construct : String) (id : StmtId) (stmt : Stmt) :
    WalkM α :=
  .refuse (.unsupportedConstruct construct context.dialect.name id stmt.line)

/-- Opens the block for what follows a jump. -/
def afterJump (jump : Jump) (cursor : BlockId) : WalkM BlockId := do
  let next ← WalkM.create
  WalkM.record (.jumped jump cursor next)
  return next

/-- A plain statement: control goes on in the same block. -/
def walkPlain (cursor : BlockId) (id : StmtId) : WalkM BlockId := do
  WalkM.append cursor id
  return cursor

/-- A definition: a leaf here, a root for later. -/
def walkDefinition (cursor : BlockId) (id : StmtId) (stmt : Stmt) : WalkM BlockId := do
  WalkM.append cursor id
  WalkM.defer id
  WalkM.record (.deferred stmt.kind stmt.line cursor)
  return cursor

/-- A return: nothing runs after this block. -/
def walkReturn (cursor : BlockId) (id : StmtId) : WalkM BlockId := do
  WalkM.append cursor id
  WalkM.markTerminal cursor
  afterJump .returns cursor

/-- A jump to the end of the innermost loop. -/
def walkBreak (cursor : BlockId) (id : StmtId) (stmt : Stmt) : WalkM BlockId := do
  match ← WalkM.innermost with
  | none => .refuse (.breakOutsideLoop id stmt.line)
  | some frame =>
      WalkM.append cursor id
      WalkM.link cursor frame.exit
      afterJump .breaks cursor

/-- A jump to the header of the innermost loop. -/
def walkContinue (cursor : BlockId) (id : StmtId) (stmt : Stmt) : WalkM BlockId := do
  match ← WalkM.innermost with
  | none => .refuse (.continueOutsideLoop id stmt.line)
  | some frame =>
      WalkM.append cursor id
      WalkM.link cursor frame.header
      afterJump .continues cursor

/-- A branch: the cursor becomes the guard of two arms, which join in a new block.
    `walk` walks an arm from its entry to its exit. -/
def walkBranch (context : Context) (walk : BlockId → List StmtId → WalkM BlockId)
    (guard : BlockId) (id : StmtId) (stmt : Stmt) : WalkM BlockId :=
  if stmt.hasClauses then context.unsupported stmt.kind.name id stmt
  else do
    WalkM.append guard id
    let thenEntry ← WalkM.create
    let elseEntry ← WalkM.create
    WalkM.record (.branched guard thenEntry elseEntry)
    WalkM.link guard thenEntry
    WalkM.link guard elseEntry
    let thenExit ← walk thenEntry stmt.body
    let elseExit ← walk elseEntry stmt.orelse
    let after ← WalkM.create
    WalkM.record (.joined after)
    WalkM.link thenExit after
    WalkM.link elseExit after
    return after

/-- A loop: the cursor becomes the header of a body and an end. Control that falls
    off the body goes back to the header or on to the end. `walk` walks the body,
    inside this loop. -/
def walkLoop (context : Context) (walk : BlockId → List StmtId → WalkM BlockId)
    (header : BlockId) (id : StmtId) (stmt : Stmt) : WalkM BlockId :=
  if !stmt.orelse.isEmpty then
    context.unsupported (stmt.kind.loopKeyword ++ "-else") id stmt
  else if stmt.hasClauses then context.unsupported stmt.kind.name id stmt
  else do
    WalkM.append header id
    let bodyEntry ← WalkM.create
    let exit ← WalkM.create
    WalkM.record (.looped header bodyEntry exit)
    WalkM.link header bodyEntry
    WalkM.link header exit
    WalkM.enterLoop ⟨header, exit⟩
    let bodyExit ← walk bodyEntry stmt.body
    WalkM.leaveLoop
    let last ← WalkM.block bodyExit
    if last.successors.isEmpty then
      WalkM.link bodyExit header
      WalkM.link bodyExit exit
    return exit

/-- Treats a statement by its rule. `walk` walks the sequences nested in it. -/
def visit (context : Context) (walk : BlockId → List StmtId → WalkM BlockId)
    (cursor : BlockId) (id : StmtId) (stmt : Stmt) : WalkM BlockId :=
  match context.dialect.ruleOf? stmt with
  | none => context.unsupported stmt.kind.name id stmt
  | some rule => do
      WalkM.record (.visited stmt.line stmt.kind rule cursor)
      match rule with
      | .sequential => walkPlain cursor id
      | .deferred => walkDefinition cursor id stmt
      | .branch => context.walkBranch walk cursor id stmt
      | .loop => context.walkLoop walk cursor id stmt
      | .returns => walkReturn cursor id
      | .breaks => walkBreak cursor id stmt
      | .continues => walkContinue cursor id stmt
      | .unsupported => context.unsupported stmt.kind.name id stmt

/-- Walks one statement. `levels` is how many more levels of nesting are accepted,
    this one included. -/
def walkStmt (context : Context) (levels : Nat) (cursor : BlockId) (id : StmtId) :
    WalkM BlockId :=
  match levels, context.pool.get? id with
  | _, none => .refuse (.missingStatement id)
  | 0, some stmt => .refuse (.nestingTooDeep id stmt.line context.maxDepth)
  | levels + 1, some stmt =>
      context.visit (fun entry ids => ids.foldlM (context.walkStmt levels) entry) cursor id stmt

/-- Walks a sequence, each statement from the block where the one before it ended. -/
def walkSeq (context : Context) (levels : Nat) (cursor : BlockId) (ids : List StmtId) :
    WalkM BlockId :=
  ids.foldlM (context.walkStmt levels) cursor

theorem walkStmt_of_missing {context : Context} {id : StmtId} (h : context.pool.get? id = none)
    (levels : Nat) (cursor : BlockId) :
    context.walkStmt levels cursor id = .refuse (.missingStatement id) := by
  unfold walkStmt
  rw [h]

theorem walkStmt_zero {context : Context} {id : StmtId} {stmt : Stmt}
    (h : context.pool.get? id = some stmt) (cursor : BlockId) :
    context.walkStmt 0 cursor id = .refuse (.nestingTooDeep id stmt.line context.maxDepth) := by
  unfold walkStmt
  rw [h]

theorem walkStmt_succ {context : Context} {id : StmtId} {stmt : Stmt}
    (h : context.pool.get? id = some stmt) (levels : Nat) (cursor : BlockId) :
    context.walkStmt (levels + 1) cursor id =
      context.visit (context.walkSeq levels) cursor id stmt := by
  unfold walkStmt
  rw [h]
  rfl

end Context

end FlowGraph
