import FlowGraph.Proofs.Placing
import FlowGraph.Proofs.Reachability
import FlowGraph.Proofs.Shape

/-! # Executions are paths

The ways in which a statement sequence can be executed, as the rules of its statements
say, and how they show in the graph: an execution of the body, with only the last
statement of each block kept, is read off a path from the entry, and every path that
ends where control does is such an execution.
-/

namespace FlowGraph

inductive Outcome where
  | normal
  | returned
  | broke
  | continued
  deriving Repr, DecidableEq

namespace Context

/-- An execution of a sequence: the record of the statements that were run, and how it
    ended. -/
inductive Runs (context : Context) : List StmtId → List StmtId → Outcome → Prop where
  | done : Runs context [] [] .normal
  | plain {id stmt ids record outcome} : context.Treats id stmt .sequential →
      Runs context ids record outcome → Runs context (id :: ids) (id :: record) outcome
  | deferred {id stmt ids record outcome} : context.Treats id stmt .deferred →
      Runs context ids record outcome → Runs context (id :: ids) (id :: record) outcome
  | branch {id stmt ids arm inner record outcome} : context.Treats id stmt .branch →
      arm = stmt.body ∨ arm = stmt.orelse → Runs context arm inner .normal →
      Runs context ids record outcome → Runs context (id :: ids) (id :: inner ++ record) outcome
  | branchLeft {id stmt ids arm inner outcome} : context.Treats id stmt .branch →
      arm = stmt.body ∨ arm = stmt.orelse → Runs context arm inner outcome →
      outcome ≠ .normal → Runs context (id :: ids) (id :: inner) outcome
  | loopOver {id stmt ids record outcome} : context.Treats id stmt .loop →
      Runs context ids record outcome → Runs context (id :: ids) (id :: record) outcome
  /-- A turn was taken, after which the loop came back to its header. -/
  | loopAgain {id stmt ids inner ending record outcome} : context.Treats id stmt .loop →
      Runs context stmt.body inner ending → ending = .normal ∨ ending = .continued →
      Runs context (id :: ids) record outcome →
      Runs context (id :: ids) (id :: inner ++ record) outcome
  /-- A turn was taken, with which the loop was finished. -/
  | loopLeft {id stmt ids inner ending record outcome} : context.Treats id stmt .loop →
      Runs context stmt.body inner ending → ending = .normal ∨ ending = .broke →
      Runs context ids record outcome → Runs context (id :: ids) (id :: inner ++ record) outcome
  | loopReturned {id stmt ids inner} : context.Treats id stmt .loop →
      Runs context stmt.body inner .returned → Runs context (id :: ids) (id :: inner) .returned
  | returns {id stmt ids} : context.Treats id stmt .returns →
      Runs context (id :: ids) [id] .returned
  | breaks {id stmt ids} : context.Treats id stmt .breaks → Runs context (id :: ids) [id] .broke
  | continues {id stmt ids} : context.Treats id stmt .continues →
      Runs context (id :: ids) [id] .continued

end Context

namespace Graph

def last? (graph : Graph) (id : BlockId) : Option StmtId := (graph.block? id).bind Block.last?

def isLast (graph : Graph) (stmt : StmtId) : Bool :=
  match graph.blockOf? stmt with
  | some id => graph.last? id = some stmt
  | none => false

/-- What is kept of a record: the statements that are last in their blocks. -/
def kept (graph : Graph) (record : List StmtId) : List StmtId := record.filter graph.isLast

/-- How a path is read: the last statements of its blocks, the empty ones passed over. -/
def reading (graph : Graph) (blocks : List BlockId) : List StmtId := blocks.filterMap graph.last?

theorem last?_eq (graph : Graph) (id : BlockId) :
    graph.last? id = (graph.statements id).getLast? := by
  unfold last? statements
  cases graph.block? id <;> rfl

theorem kept_append (graph : Graph) (record more : List StmtId) :
    graph.kept (record ++ more) = graph.kept record ++ graph.kept more :=
  List.filter_append ..

theorem reading_append (graph : Graph) (blocks more : List BlockId) :
    graph.reading (blocks ++ more) = graph.reading blocks ++ graph.reading more :=
  List.filterMap_append

theorem reading_cons {graph : Graph} {cursor : BlockId} {before : List StmtId} {id : StmtId}
    (here : graph.statements cursor = before ++ [id]) (blocks : List BlockId) :
    graph.reading (cursor :: blocks) = id :: graph.reading blocks := by
  have last : graph.last? cursor = some id := by
    rw [last?_eq, here, List.getLast?_append]
    rfl
  exact List.filterMap_cons_some last

section Placed

variable {graph : Graph} (placed : graph.Placed) {cursor : BlockId} {before : List StmtId}
  {id : StmtId}

include placed

theorem kept_of_statements (here : graph.statements cursor = before ++ [id]) :
    graph.kept before = [] ∧ graph.isLast id = true := by
  have last : graph.last? cursor = some id := by
    rw [last?_eq, here, List.getLast?_append]
    rfl
  have listed : ∀ stmt ∈ before ++ [id], graph.blockOf? stmt = some cursor := by
    intro stmt member
    rw [placed.blockOf?_iff, here]
    exact member
  constructor
  · refine List.filter_eq_nil_iff.mpr fun stmt member => ?_
    have different : id ≠ stmt := by
      rintro rfl
      have nodup := placed.nodup cursor
      rw [here, List.nodup_append] at nodup
      exact nodup.2.2 id member id (by simp) rfl
    simp [isLast, listed stmt (by simp [member]), last, different]
  · simp [isLast, listed id (by simp), last]

theorem kept_cons_of_statements (here : graph.statements cursor = before ++ [id])
    (record : List StmtId) : graph.kept (before ++ id :: record) = id :: graph.kept record := by
  obtain ⟨none, last⟩ := kept_of_statements placed here
  rw [kept_append, none, List.nil_append, kept, List.filter_cons_of_pos last]
  rfl

theorem kept_statements : graph.kept (graph.statements cursor) = graph.reading [cursor] := by
  rcases List.eq_nil_or_concat (graph.statements cursor) with empty | ⟨before, id, here⟩
  · have nothing : graph.last? cursor = none := by
      rw [last?_eq, empty]
      rfl
    rw [empty, reading, List.filterMap_cons_none nothing]
    rfl
  · rw [List.concat_eq_append] at here
    rw [here, kept_cons_of_statements placed here, reading_cons here]
    rfl

theorem kept_nested (here : graph.statements cursor = before ++ [id])
    (inner record : List StmtId) :
    graph.kept (before ++ (id :: inner ++ record)) =
      id :: (graph.kept inner ++ graph.kept record) := by
  rw [List.cons_append, kept_cons_of_statements placed here, kept_append]

end Placed

/-- How a flow, found in a graph up to the block `last`, is left from a block. -/
def Leaves (graph : Graph) (frame : Option LoopFrame) (last : BlockId) :
    Outcome → BlockId → Prop
  | .normal, id => id = last
  | .returned, id => graph.isTerminal id = true
  | .broke, id => ∃ inner, frame = some inner ∧ inner.exit ∈ graph.successors id
  | .continued, id => ∃ inner, frame = some inner ∧ inner.header ∈ graph.successors id

theorem Leaves.elsewhere {graph : Graph} {frame : Option LoopFrame} {last last' block : BlockId}
    {outcome : Outcome} (leaves : graph.Leaves frame last outcome block)
    (jump : outcome ≠ .normal) : graph.Leaves frame last' outcome block := by
  cases outcome with
  | normal => exact absurd rfl jump
  | returned | broke | continued => exact leaves

/-- Outside of loops an execution runs to its end or returns. -/
theorem Leaves.outside {graph : Graph} {last block : BlockId} {outcome : Outcome}
    (leaves : graph.Leaves none last outcome block) :
    outcome = .normal ∧ block = last ∨ outcome = .returned ∧ graph.isTerminal block = true := by
  cases outcome with
  | normal => exact .inl ⟨rfl, leaves⟩
  | returned => exact .inr ⟨rfl, leaves⟩
  | broke | continued =>
      obtain ⟨_, ⟨⟩, _⟩ := leaves

/-- Where control goes from an execution with the given outcome to a goal. -/
def Onward (graph : Graph) (frame : Option LoopFrame) (last goal : BlockId) :
    Outcome → List BlockId → Prop
  | .normal, behind => graph.Path last goal (last :: behind)
  | .returned, behind => behind = [] ∧ graph.isTerminal goal = true
  | .broke, behind => ∃ inner, frame = some inner ∧ graph.Path inner.exit goal behind
  | .continued, behind => ∃ inner, frame = some inner ∧ graph.Path inner.header goal behind

theorem Onward.elsewhere {graph : Graph} {frame : Option LoopFrame} {last last' goal : BlockId}
    {outcome : Outcome} {behind : List BlockId}
    (onward : graph.Onward frame last goal outcome behind) (jump : outcome ≠ .normal) :
    graph.Onward frame last' goal outcome behind := by
  cases outcome with
  | normal => exact absurd rfl jump
  | returned | broke | continued => exact onward

/-- Control does not go on from a block. -/
def Stops (graph : Graph) (id : BlockId) : Prop :=
  graph.isTerminal id = true ∨ graph.successors id = []

/-- A path to where control stops goes on from every block with a way out. -/
theorem Path.next {graph : Graph} {source goal : BlockId} {blocks out : List BlockId}
    {statements : List StmtId} (path : graph.Path source goal blocks)
    (shows : graph.Shows source statements out false) (ways : out ≠ []) (stops : graph.Stops goal) :
    ∃ target ∈ out, ∃ behind, blocks = source :: behind ∧ graph.Path target goal behind := by
  cases path with
  | here =>
      rcases stops with terminal | stuck
      · simp [shows.isTerminal_eq] at terminal
      · exact absurd (shows.successors_eq.symm.trans stuck) ways
  | step edge rest => exact ⟨_, shows.successors_eq ▸ edge, _, rfl, rest⟩

end Graph

namespace Context

variable {context : Context} {graph : Graph} {inLoop : Bool} {id : StmtId} {stmt : Stmt}
  {ids arm : List StmtId} {flow : Flow} {frame : Option LoopFrame} {before : List StmtId}
  {cursor last : BlockId} {out : List BlockId}

theorem arm_of_branch (reads : context.Reads inLoop (id :: ids) flow)
    (shape : graph.Realizes frame flow before cursor last out)
    (treats : context.Treats id stmt .branch) (choice : arm = stmt.body ∨ arm = stmt.orelse) :
    ∃ armFlow rest entry armEnd join, context.Reads inLoop arm armFlow ∧
      graph.Realizes frame armFlow [] entry armEnd [join] ∧ context.Reads inLoop ids rest ∧
      graph.Realizes frame rest [] join last out ∧
      graph.statements cursor = before ++ [id] ∧ entry ∈ graph.successors cursor := by
  obtain ⟨body, orelse, rest, rfl, readsBody, readsOrelse, readsRest⟩ := reads.of_treats treats
  cases shape with
  | branch shows left right behind =>
      rcases choice with rfl | rfl
      · exact ⟨_, _, _, _, _, readsBody, left, readsRest, behind, shows.statements_eq,
          by simp [shows.successors_eq]⟩
      · exact ⟨_, _, _, _, _, readsOrelse, right, readsRest, behind, shows.statements_eq,
          by simp [shows.successors_eq]⟩

theorem body_of_loop (reads : context.Reads inLoop (id :: ids) flow)
    (shape : graph.Realizes frame flow before cursor last out)
    (treats : context.Treats id stmt .loop) :
    ∃ body rest entry exit bodyEnd, context.Reads true stmt.body body ∧
      graph.Realizes (some ⟨cursor, exit⟩) body [] entry bodyEnd [cursor, exit] ∧
      context.Reads inLoop ids rest ∧ graph.Realizes frame rest [] exit last out ∧
      graph.Shows cursor (before ++ [id]) [entry, exit] false := by
  obtain ⟨body, rest, rfl, readsBody, readsRest⟩ := reads.of_treats treats
  cases shape with
  | loop shows turn behind => exact ⟨_, _, _, _, _, readsBody, turn, readsRest, behind, shows⟩

theorem path_of_runs (placed : graph.Placed) {record : List StmtId} {outcome : Outcome}
    (runs : context.Runs ids record outcome) (reads : context.Reads inLoop ids flow)
    (shape : graph.Realizes frame flow before cursor last out) :
    ∃ blocks block, graph.Path cursor block blocks ∧ graph.Leaves frame last outcome block ∧
      graph.reading blocks = graph.kept (before ++ record) := by
  induction runs generalizing inLoop flow frame before cursor last out with
  | done =>
      cases reads
      cases shape with
      | done shows =>
          refine ⟨[cursor], cursor, .here, rfl, ?_⟩
          rw [List.append_nil, ← shows.statements_eq, Graph.kept_statements placed]
  | plain treats _ ih =>
      obtain ⟨rest, rfl, readsRest⟩ := reads.of_treats treats
      cases shape with
      | step shape => simpa using ih readsRest shape
  | deferred treats _ ih =>
      obtain ⟨rest, rfl, readsRest⟩ := reads.of_treats treats
      cases shape with
      | step shape => simpa using ih readsRest shape
  | branch treats choice _ _ ihArm ihRest =>
      obtain ⟨_, _, _, _, _, readsArm, shapeArm, readsRest, shapeRest, here, edge⟩ :=
        arm_of_branch reads shape treats choice
      obtain ⟨blocks, _, path, rfl, read⟩ := ihArm readsArm shapeArm
      obtain ⟨more, block, path', leaves, read'⟩ := ihRest readsRest shapeRest
      have join : _ ∈ graph.successors _ := shapeArm.last_successors ▸ List.mem_cons_self
      refine ⟨_, block, .step edge (path.trans join path'), leaves, ?_⟩
      rw [Graph.kept_nested placed here, Graph.reading_cons here, Graph.reading_append, read, read']
      rfl
  | branchLeft treats choice _ left ihArm =>
      obtain ⟨_, _, _, _, _, readsArm, shapeArm, _, _, here, edge⟩ :=
        arm_of_branch reads shape treats choice
      obtain ⟨blocks, block, path, leaves, read⟩ := ihArm readsArm shapeArm
      refine ⟨_, block, .step edge path, leaves.elsewhere left, ?_⟩
      rw [Graph.kept_cons_of_statements placed here, Graph.reading_cons here, read]
      rfl
  | loopOver treats _ ih =>
      obtain ⟨_, _, _, _, _, _, _, readsRest, shapeRest, shows⟩ := body_of_loop reads shape treats
      obtain ⟨blocks, block, path, leaves, read⟩ := ih readsRest shapeRest
      refine ⟨_, block, .step (by simp [shows.successors_eq]) path, leaves, ?_⟩
      rw [Graph.kept_cons_of_statements placed shows.statements_eq,
        Graph.reading_cons shows.statements_eq, read]
      rfl
  | loopAgain treats _ ending _ ihBody ihAgain =>
      obtain ⟨_, _, _, _, _, readsBody, shapeBody, _, _, shows⟩ := body_of_loop reads shape treats
      obtain ⟨blocks, turn, path, leavesBody, read⟩ := ihBody readsBody shapeBody
      obtain ⟨more, block, path', leaves, read'⟩ := ihAgain reads shape
      have back : cursor ∈ graph.successors turn := by
        rcases ending with rfl | rfl
        · cases leavesBody
          simp [shapeBody.last_successors]
        · obtain ⟨_, ⟨⟩, edge⟩ := leavesBody
          exact edge
      refine ⟨_, block, .step (by simp [shows.successors_eq]) (path.trans back path'), leaves, ?_⟩
      rw [Graph.kept_append, (Graph.kept_of_statements placed shows.statements_eq).1] at read'
      rw [Graph.kept_nested placed shows.statements_eq, Graph.reading_cons shows.statements_eq,
        Graph.reading_append, read, read']
      rfl
  | loopLeft treats _ ending _ ihBody ihRest =>
      obtain ⟨_, _, _, exit, _, readsBody, shapeBody, readsRest, shapeRest, shows⟩ :=
        body_of_loop reads shape treats
      obtain ⟨blocks, turn, path, leavesBody, read⟩ := ihBody readsBody shapeBody
      obtain ⟨more, block, path', leaves, read'⟩ := ihRest readsRest shapeRest
      have finished : exit ∈ graph.successors turn := by
        rcases ending with rfl | rfl
        · cases leavesBody
          simp [shapeBody.last_successors]
        · obtain ⟨_, ⟨⟩, edge⟩ := leavesBody
          exact edge
      refine ⟨_, block, .step (by simp [shows.successors_eq]) (path.trans finished path'), leaves,
        ?_⟩
      rw [Graph.kept_nested placed shows.statements_eq, Graph.reading_cons shows.statements_eq,
        Graph.reading_append, read, read']
      rfl
  | loopReturned treats _ ihBody =>
      obtain ⟨_, _, _, _, _, readsBody, shapeBody, _, _, shows⟩ := body_of_loop reads shape treats
      obtain ⟨blocks, block, path, leaves, read⟩ := ihBody readsBody shapeBody
      refine ⟨_, block, .step (by simp [shows.successors_eq]) path, leaves, ?_⟩
      rw [Graph.kept_cons_of_statements placed shows.statements_eq,
        Graph.reading_cons shows.statements_eq, read]
      rfl
  | returns treats =>
      obtain ⟨_, rfl, _⟩ := reads.of_treats treats
      cases shape with
      | returns shows _ =>
          refine ⟨_, cursor, .here, shows.isTerminal_eq, ?_⟩
          rw [← shows.statements_eq, Graph.kept_statements placed]
  | breaks treats =>
      obtain ⟨_, _, rfl, _⟩ := reads.of_treats treats
      cases shape with
      | breaks shows _ =>
          refine ⟨_, cursor, .here, ⟨_, rfl, by simp [shows.successors_eq]⟩, ?_⟩
          rw [← shows.statements_eq, Graph.kept_statements placed]
  | continues treats =>
      obtain ⟨_, _, rfl, _⟩ := reads.of_treats treats
      cases shape with
      | continues shows _ =>
          refine ⟨_, cursor, .here, ⟨_, rfl, by simp [shows.successors_eq]⟩, ?_⟩
          rw [← shows.statements_eq, Graph.kept_statements placed]

/-- A path begins with an execution of a sequence and goes on from where the execution
    ended. -/
def Begins (context : Context) (graph : Graph) (frame : Option LoopFrame) (ids before : List StmtId)
    (last goal : BlockId) (blocks : List BlockId) : Prop :=
  ∃ record outcome behind, context.Runs ids record outcome ∧
    graph.reading blocks = graph.kept (before ++ record) ++ graph.reading behind ∧
    behind.length < blocks.length ∧ graph.Onward frame last goal outcome behind

variable {goal : BlockId} {blocks : List BlockId}

theorem begins_branch (placed : graph.Placed) (stops : graph.Stops goal)
    (treats : context.Treats id stmt .branch) (choice : arm = stmt.body ∨ arm = stmt.orelse)
    (here : graph.statements cursor = before ++ [id]) {armEnd join : BlockId}
    (ending : ∃ statements, graph.Shows armEnd statements [join] false)
    (inside : context.Begins graph frame arm [] armEnd goal blocks)
    (rest : ∀ behind, behind.length < blocks.length → graph.Path join goal behind →
      context.Begins graph frame ids [] last goal behind) :
    context.Begins graph frame (id :: ids) before last goal (cursor :: blocks) := by
  obtain ⟨inner, outcome, behind, runs, read, shorter, onward⟩ := inside
  by_cases normal : outcome = .normal
  · subst normal
    obtain ⟨_, shows⟩ := ending
    obtain ⟨_, member, _, ⟨⟩, path⟩ := onward.next shows (by simp) stops
    obtain rfl := List.mem_singleton.mp member
    obtain ⟨record, outcome, behind', runs', read', shorter', onward'⟩ := rest behind shorter path
    refine ⟨_, outcome, behind', .branch treats choice runs runs', ?_, ?_, onward'⟩
    · rw [Graph.kept_nested placed here, Graph.reading_cons here, read, read']
      simp
    · simp only [List.length_cons]
      omega
  · refine ⟨_, outcome, behind, .branchLeft treats choice runs normal, ?_, ?_,
      onward.elsewhere normal⟩
    · rw [Graph.kept_cons_of_statements placed here, Graph.reading_cons here, read]
      simp
    · simp only [List.length_cons]
      omega

theorem begins_loop (placed : graph.Placed) (stops : graph.Stops goal)
    (treats : context.Treats id stmt .loop) (here : graph.statements cursor = before ++ [id])
    {bodyEnd exit : BlockId}
    (ending : ∃ statements, graph.Shows bodyEnd statements [cursor, exit] false)
    (turn : context.Begins graph (some ⟨cursor, exit⟩) stmt.body [] bodyEnd goal blocks)
    (again : ∀ behind, behind.length < blocks.length → graph.Path cursor goal behind →
      context.Begins graph frame (id :: ids) before last goal behind)
    (rest : ∀ behind, behind.length < blocks.length → graph.Path exit goal behind →
      context.Begins graph frame ids [] last goal behind) :
    context.Begins graph frame (id :: ids) before last goal (cursor :: blocks) := by
  obtain ⟨inner, outcome, behind, runs, read, shorter, onward⟩ := turn
  have back : outcome = .normal ∨ outcome = .continued → graph.Path cursor goal behind →
      context.Begins graph frame (id :: ids) before last goal (cursor :: blocks) := by
    intro back path
    obtain ⟨record, final, behind', runs', read', shorter', onward'⟩ := again behind shorter path
    refine ⟨_, final, behind', .loopAgain treats runs back runs', ?_, ?_, onward'⟩
    · rw [Graph.kept_append, (Graph.kept_of_statements placed here).1] at read'
      rw [Graph.kept_nested placed here, Graph.reading_cons here, read, read']
      simp
    · simp only [List.length_cons]
      omega
  have finished : outcome = .normal ∨ outcome = .broke → graph.Path exit goal behind →
      context.Begins graph frame (id :: ids) before last goal (cursor :: blocks) := by
    intro finished path
    obtain ⟨record, final, behind', runs', read', shorter', onward'⟩ := rest behind shorter path
    refine ⟨_, final, behind', .loopLeft treats runs finished runs', ?_, ?_, onward'⟩
    · rw [Graph.kept_nested placed here, Graph.reading_cons here, read, read']
      simp
    · simp only [List.length_cons]
      omega
  cases outcome with
  | normal =>
      obtain ⟨_, shows⟩ := ending
      obtain ⟨_, member, _, ⟨⟩, path⟩ := onward.next shows (by simp) stops
      simp only [List.mem_cons, List.not_mem_nil, or_false] at member
      rcases member with rfl | rfl
      · exact back (.inl rfl) path
      · exact finished (.inl rfl) path
  | broke =>
      obtain ⟨_, ⟨⟩, path⟩ := onward
      exact finished (.inr rfl) path
  | continued =>
      obtain ⟨_, ⟨⟩, path⟩ := onward
      exact back (.inr rfl) path
  | returned =>
      refine ⟨_, .returned, behind, .loopReturned treats runs, ?_, ?_, onward⟩
      · rw [Graph.kept_cons_of_statements placed here, Graph.reading_cons here, read]
        simp
      · simp only [List.length_cons]
        omega

/-- A path to where control stops begins with an execution of the flow it goes through. -/
theorem begins_of_path (placed : graph.Placed) (stops : graph.Stops goal)
    (reads : context.Reads inLoop ids flow)
    (shape : graph.Realizes frame flow before cursor last out)
    (path : graph.Path cursor goal blocks) :
    context.Begins graph frame ids before last goal blocks := by
  -- by the length of the path; only within one block also by the flow
  induction length : blocks.length using Nat.strongRecOn
    generalizing inLoop ids flow frame before cursor last out blocks with
  | ind number shorter =>
  subst length
  induction reads generalizing before with
  | done =>
      cases shape with
      | done shows =>
          obtain ⟨behind, rfl⟩ := path.eq_cons
          refine ⟨[], .normal, behind, .done, ?_, Nat.lt_succ_self _, path⟩
          rw [List.append_nil, ← shows.statements_eq, Graph.kept_statements placed,
            ← Graph.reading_append]
          rfl
  | plain treats _ ih =>
      cases shape with
      | step shape =>
          obtain ⟨record, outcome, behind, runs, read, less, onward⟩ := ih shape
          exact ⟨_, outcome, behind, .plain treats runs, by simpa using read, less, onward⟩
  | deferred treats _ ih =>
      cases shape with
      | step shape =>
          obtain ⟨record, outcome, behind, runs, read, less, onward⟩ := ih shape
          exact ⟨_, outcome, behind, .deferred treats runs, by simpa using read, less, onward⟩
  | branch treats readsBody readsOrelse readsRest =>
      cases shape with
      | branch shows left right behind =>
          obtain ⟨target, member, more, rfl, path'⟩ := path.next shows (by simp) stops
          have rest := fun onward (less : List.length onward < more.length) path =>
            shorter onward.length (by simp only [List.length_cons]; omega) readsRest behind path rfl
          simp only [List.mem_cons, List.not_mem_nil, or_false] at member
          rcases member with rfl | rfl
          · exact begins_branch placed stops treats (.inl rfl) shows.statements_eq left.last_shows
              (shorter _ (Nat.lt_succ_self _) readsBody left path' rfl) rest
          · exact begins_branch placed stops treats (.inr rfl) shows.statements_eq right.last_shows
              (shorter _ (Nat.lt_succ_self _) readsOrelse right path' rfl) rest
  | loop treats readsBody readsRest =>
      have reads := Reads.loop treats readsBody readsRest
      have whole := shape
      cases shape with
      | loop shows turn behind =>
          obtain ⟨target, member, more, rfl, path'⟩ := path.next shows (by simp) stops
          have rest := fun onward (less : List.length onward < more.length) path =>
            shorter onward.length (by simp only [List.length_cons]; omega) readsRest behind path rfl
          have again := fun onward (less : List.length onward < more.length) path =>
            shorter onward.length (by simp only [List.length_cons]; omega) reads whole path rfl
          simp only [List.mem_cons, List.not_mem_nil, or_false] at member
          rcases member with rfl | rfl
          · exact begins_loop placed stops treats shows.statements_eq turn.last_shows
              (shorter _ (Nat.lt_succ_self _) readsBody turn path' rfl) again rest
          · obtain ⟨record, outcome, after, runs, read, less, onward⟩ :=
              shorter _ (Nat.lt_succ_self _) readsRest behind path' rfl
            refine ⟨_, outcome, after, .loopOver treats runs, ?_, ?_, onward⟩
            · rw [Graph.kept_cons_of_statements placed shows.statements_eq,
                Graph.reading_cons shows.statements_eq, read]
              rfl
            · simp only [List.length_cons]
              omega
  | returns treats _ =>
      cases shape with
      | returns shows _ =>
          cases path with
          | step edge _ => simp [shows.successors_eq] at edge
          | here =>
              refine ⟨_, .returned, [], .returns treats, ?_, Nat.zero_lt_one, rfl,
                shows.isTerminal_eq⟩
              rw [← shows.statements_eq, Graph.kept_statements placed]
              exact (List.append_nil _).symm
  | breaks treats _ =>
      cases shape with
      | breaks shows _ =>
          obtain ⟨target, member, behind, rfl, path'⟩ := path.next shows (by simp) stops
          obtain rfl := List.mem_singleton.mp member
          refine ⟨_, .broke, behind, .breaks treats, ?_, Nat.lt_succ_self _, _, rfl, path'⟩
          rw [← shows.statements_eq, Graph.kept_statements placed, ← Graph.reading_append]
          rfl
  | continues treats _ =>
      cases shape with
      | continues shows _ =>
          obtain ⟨target, member, behind, rfl, path'⟩ := path.next shows (by simp) stops
          obtain rfl := List.mem_singleton.mp member
          refine ⟨_, .continued, behind, .continues treats, ?_, Nat.lt_succ_self _, _, rfl, path'⟩
          rw [← shows.statements_eq, Graph.kept_statements placed, ← Graph.reading_append]
          rfl

theorem runs_of_path (placed : graph.Placed) (stops : graph.Stops goal)
    (reads : context.Reads inLoop ids flow) (shape : graph.Realizes none flow [] cursor last [])
    (path : graph.Path cursor goal blocks) :
    ∃ record outcome, context.Runs ids record outcome ∧ graph.Leaves none last outcome goal ∧
      graph.reading blocks = graph.kept record := by
  obtain ⟨record, outcome, behind, runs, read, _, onward⟩ :=
    begins_of_path placed stops reads shape path
  have finished : behind = [] ∧ graph.Leaves none last outcome goal := by
    cases outcome with
    | normal =>
        cases onward with
        | here => exact ⟨rfl, rfl⟩
        | step edge _ => simp [shape.last_successors] at edge
    | returned => exact onward
    | broke | continued =>
        obtain ⟨_, ⟨⟩, _⟩ := onward
  obtain ⟨rfl, leaves⟩ := finished
  refine ⟨record, outcome, runs, leaves, ?_⟩
  rw [read]
  exact List.append_nil _

/-- The executions of the body of a build that went through are the paths through its
    graph: those that run to the end are the paths to the block where the walk ended, and
    those that return are the paths to terminal blocks. -/
theorem records_eq_readings {start : Numbering} {body : List StmtId} {log log' : Log}
    (success : context.build start body log = .ok graph log')
    (once : (context.visited body).Nodup) :
    ∃ last, context.buildToEnd start body log = .ok (last, graph) log' ∧
      (∀ reading, (∃ record, context.Runs body record .normal ∧ graph.kept record = reading) ↔
        ∃ blocks, graph.Path graph.entry last blocks ∧ graph.reading blocks = reading) ∧
      (∀ reading, (∃ record, context.Runs body record .returned ∧ graph.kept record = reading) ↔
        ∃ block blocks, graph.isTerminal block = true ∧ graph.Path graph.entry block blocks ∧
          graph.reading blocks = reading) ∧
      ∀ record outcome, context.Runs body record outcome →
        outcome = .normal ∨ outcome = .returned := by
  obtain ⟨last, walked, built⟩ := built_of_build success
  have placed := built.placed once
  have shape := built.realizes
  have reads := built.reads
  obtain ⟨_, ending⟩ := shape.last_shows
  refine ⟨last, walked, fun reading => ⟨?_, ?_⟩, fun reading => ⟨?_, ?_⟩, ?_⟩
  · rintro ⟨record, runs, rfl⟩
    obtain ⟨blocks, _, path, rfl, read⟩ := path_of_runs placed runs reads shape
    exact ⟨blocks, path, read⟩
  · rintro ⟨blocks, path, rfl⟩
    obtain ⟨record, outcome, runs, leaves, read⟩ :=
      runs_of_path placed (.inr ending.successors_eq) reads shape path
    rcases leaves.outside with ⟨rfl, _⟩ | ⟨_, terminal⟩
    · exact ⟨record, runs, read.symm⟩
    · simp [ending.isTerminal_eq] at terminal
  · rintro ⟨record, runs, rfl⟩
    obtain ⟨blocks, block, path, terminal, read⟩ := path_of_runs placed runs reads shape
    exact ⟨block, blocks, terminal, path, read⟩
  · rintro ⟨block, blocks, terminal, path, rfl⟩
    obtain ⟨record, outcome, runs, leaves, read⟩ :=
      runs_of_path placed (.inl terminal) reads shape path
    rcases leaves.outside with ⟨_, rfl⟩ | ⟨rfl, _⟩
    · simp [ending.isTerminal_eq] at terminal
    · exact ⟨record, runs, read.symm⟩
  · intro record outcome runs
    obtain ⟨_, _, _, leaves, _⟩ := path_of_runs placed runs reads shape
    exact leaves.outside.imp And.left And.left

/-- A loop that a jump in one arm of a branch leaves, with a return behind it. -/
def searchLoop : Context where
  pool := { slots := #[⟨0, none⟩, ⟨1, some (.whileLoop 1 [⟨2, 1⟩])⟩,
    ⟨1, some (.ifElse 2 [⟨3, 1⟩] [])⟩, ⟨1, some (.breakAt 3)⟩, ⟨1, some (.returnAt 4)⟩] }
  dialect := .python3
  maxDepth := 2

theorem records_eq_readings_searchLoop :
    ∃ graph log last, searchLoop.build {} [⟨1, 1⟩, ⟨4, 1⟩] #[] = .ok graph log ∧
      searchLoop.buildToEnd {} [⟨1, 1⟩, ⟨4, 1⟩] #[] = .ok (last, graph) log ∧
      (searchLoop.visited [⟨1, 1⟩, ⟨4, 1⟩]).Nodup ∧
      ∀ reading, (∃ record, searchLoop.Runs [⟨1, 1⟩, ⟨4, 1⟩] record .returned ∧
          graph.kept record = reading) ↔
        ∃ block blocks, graph.isTerminal block = true ∧ graph.Path graph.entry block blocks ∧
          graph.reading blocks = reading := by
  have success : ∃ graph log, searchLoop.build {} [⟨1, 1⟩, ⟨4, 1⟩] #[] = .ok graph log :=
    build_succeeds (by decide) (by decide) #[]
  obtain ⟨graph, log, success⟩ := success
  obtain ⟨last, walked, _, returned, _⟩ := records_eq_readings success (by decide)
  exact ⟨graph, log, last, success, walked, by decide, returned⟩

end Context

end FlowGraph
