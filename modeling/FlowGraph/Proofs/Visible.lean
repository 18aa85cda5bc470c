import FlowGraph.Proofs.Isolation
import FlowGraph.Proofs.Legs

/-! # What a build sees of the statements

A walk looks at the statements to which it comes and at no others, and of each of them it
sees no more than its kind, what a branch or a loop opens, whether that has other clauses,
and whether a kind outside the dialect holds anything. So two pools that look the same to a
walk on its way give it the same outcome. Lines occur in errors and in the log only, and
names and the bodies of definitions nowhere.
-/

namespace FlowGraph

namespace Dialect

/-- A walk cannot tell the two statements apart, unless it has to report a line. -/
structure Resembles (dialect : Dialect) (stmt other : Stmt) : Prop where
  kind : other.kind = stmt.kind
  opened : dialect.rule? stmt.kind = some .branch ∨ dialect.rule? stmt.kind = some .loop →
    other.body = stmt.body ∧ other.orelse = stmt.orelse ∧
      other.handlers.isEmpty = stmt.handlers.isEmpty ∧
      other.finalbody.isEmpty = stmt.finalbody.isEmpty
  foreign : dialect.rule? stmt.kind = none → other.hasNestedBlocks = stmt.hasNestedBlocks

/-- The rule of a kind goes into nothing that is nested in a statement. -/
def IsLeaf (dialect : Dialect) (kind : StmtKind) : Prop :=
  ∃ rule, dialect.rule? kind = some rule ∧ rule ≠ .branch ∧ rule ≠ .loop

/-- `changed` may differ from the statement in line and name and, where the rule of its kind
    goes into nothing, also in all that is nested in it. -/
def Rewords (dialect : Dialect) (stmt changed : Stmt) : Prop :=
  { changed with line := stmt.line, name := stmt.name } = stmt ∨
    dialect.IsLeaf stmt.kind ∧ changed.kind = stmt.kind

variable {dialect : Dialect} {stmt other changed : Stmt} {rule : Rule}

theorem Rewords.resembles (rewords : dialect.Rewords stmt changed) :
    dialect.Resembles stmt changed := by
  rcases rewords with same | ⟨⟨rule, leaf, noBranch, noLoop⟩, kind⟩
  · rw [← same]
    exact ⟨rfl, fun _ => ⟨rfl, rfl, rfl, rfl⟩, fun _ => rfl⟩
  · refine ⟨kind, ?_, ?_⟩
    · rw [leaf]
      rintro (nested | nested)
      · exact absurd (Option.some.inj nested) noBranch
      · exact absurd (Option.some.inj nested) noLoop
    · rw [leaf]
      intro foreign
      cases foreign

theorem Resembles.ruleOf?_eq (resembles : dialect.Resembles stmt other) :
    dialect.ruleOf? other = dialect.ruleOf? stmt := by
  unfold ruleOf?
  rw [resembles.kind]
  cases known : dialect.rule? stmt.kind with
  | some rule => rfl
  | none => simp only [resembles.foreign known]

/-- Only a kind of the dialect is a branch or a loop. -/
theorem rule?_of_ruleOf? (treated : dialect.ruleOf? stmt = some rule)
    (nested : rule ≠ .sequential) : dialect.rule? stmt.kind = some rule := by
  unfold ruleOf? at treated
  split at treated
  · rename_i known
    rw [known, treated]
  · split at treated
    · cases treated
    · exact absurd (Option.some.inj treated).symm nested

theorem Resembles.opened_eq (resembles : dialect.Resembles stmt other)
    (nested : dialect.ruleOf? stmt = some .branch ∨ dialect.ruleOf? stmt = some .loop) :
    other.body = stmt.body ∧ other.orelse = stmt.orelse ∧ other.hasClauses = stmt.hasClauses := by
  have known : dialect.rule? stmt.kind = some .branch ∨ dialect.rule? stmt.kind = some .loop :=
    nested.imp (rule?_of_ruleOf? · (by decide)) (rule?_of_ruleOf? · (by decide))
  obtain ⟨body, orelse, handlers, finalbody⟩ := resembles.opened known
  refine ⟨body, orelse, ?_⟩
  rw [Stmt.hasClauses, Stmt.hasClauses, handlers, finalbody]

end Dialect

/-- The error, said of no line. -/
def FlowError.unlined : FlowError → FlowError
  | breakOutsideLoop stmt _ => breakOutsideLoop stmt 0
  | continueOutsideLoop stmt _ => continueOutsideLoop stmt 0
  | unsupportedConstruct construct dialect stmt _ => unsupportedConstruct construct dialect stmt 0
  | nestingTooDeep stmt _ limit => nestingTooDeep stmt 0 limit
  | missingStatement stmt => missingStatement stmt
  | unsupportedVersion version => unsupportedVersion version

/-- Two errors that differ in their lines only. -/
def FlowError.Relined (error error' : FlowError) : Prop := error.unlined = error'.unlined

/-- Two results that differ in their logs and, when they are errors, only as related errors do. -/
inductive EndsAlike {α : Type} (related : FlowError → FlowError → Prop) :
    EStateM.Result Failure Log α → EStateM.Result Failure Log α → Prop where
  | ok {value log log'} : EndsAlike related (.ok value log) (.ok value log')
  | flow {error error' log log'} : related error error' →
      EndsAlike related (.error (.flow error) log) (.error (.flow error') log')
  | fault {fault log log'} :
      EndsAlike related (.error (.fault fault) log) (.error (.fault fault) log')

section Alike

variable {α β : Type} {related : FlowError → FlowError → Prop} {log log' : Log}

/-- The second of two builds has to be looked at only where the first one went through. -/
theorem EndsAlike.bind {first first' : BuildM α} {next next' : α → BuildM β}
    (alike : EndsAlike related (first log) (first' log'))
    (onward : ∀ value mid mid', first log = .ok value mid →
      EndsAlike related (next value mid) (next' value mid')) :
    EndsAlike related ((first >>= next) log) ((first' >>= next') log') := by
  generalize result : first log = ending at alike
  generalize result' : first' log' = ending' at alike
  cases alike with
  | ok =>
      rw [BuildM.bind_of_ok result, BuildM.bind_of_ok result']
      exact onward _ _ _ result
  | flow same =>
      rw [BuildM.bind_of_error result, BuildM.bind_of_error result']
      exact .flow same
  | fault =>
      rw [BuildM.bind_of_error result, BuildM.bind_of_error result']
      exact .fault

theorem endsAlike_ofGraph (outcome : Except GraphFault α) :
    EndsAlike related (BuildM.ofGraph outcome log) (BuildM.ofGraph outcome log') := by
  cases outcome with
  | ok value => exact .ok
  | error fault => exact .fault

theorem endsAlike_record (event event' : Event) :
    EndsAlike related (BuildM.record event log) (BuildM.record event' log') := .ok

/-- Two walks that end alike from every state. -/
def WalkM.Alike (related : FlowError → FlowError → Prop) (walk walk' : WalkM α) : Prop :=
  ∀ state log log', EndsAlike related (walk state log) (walk' state log')

namespace WalkM

variable {state : WalkState}

theorem endsAlike_bind {first first' : WalkM α} {next next' : α → WalkM β}
    (alike : EndsAlike related (first state log) (first' state log'))
    (onward : ∀ value after mid mid', first state log = .ok (value, after) mid →
      EndsAlike related (next value after mid) (next' value after mid')) :
    EndsAlike related ((first >>= next) state log) ((first' >>= next') state log') :=
  EndsAlike.bind alike fun pair mid mid' went => onward pair.1 pair.2 mid mid' went

theorem alike_bind {first first' : WalkM α} {next next' : α → WalkM β}
    (alike : first.Alike related first')
    (onward : ∀ value, (next value).Alike related (next' value)) :
    (first >>= next).Alike related (first' >>= next') := by
  intro state log log'
  exact endsAlike_bind (alike state log log') fun value after mid mid' _ =>
    onward value after mid mid'

theorem alike_foldlM {step step' : α → β → WalkM α}
    (alike : ∀ value element, (step value element).Alike related (step' value element))
    (value : α) (elements : List β) :
    (elements.foldlM step value).Alike related (elements.foldlM step' value) := by
  induction elements generalizing value with
  | nil => exact fun _ _ _ => .ok
  | cons element elements ih => exact alike_bind (alike value element) ih

theorem alike_pure (value : α) : Alike related (pure value) (pure value) := fun _ _ _ => .ok

theorem alike_refuse {error error' : FlowError} (same : related error error') :
    Alike related (refuse error : WalkM α) (refuse error') := fun _ _ _ => .flow same

theorem alike_record (event event' : Event) : (record event).Alike related (record event') :=
  fun _ _ _ => .ok

theorem alike_change (operation : Graph → Except GraphFault Graph) :
    (change operation).Alike related (change operation) := by
  intro state log log'
  exact (endsAlike_ofGraph _).bind fun _ _ _ _ => .ok

theorem alike_create : create.Alike related create := by
  intro state log log'
  exact (endsAlike_ofGraph _).bind fun _ _ _ _ => .ok

theorem alike_block (id : BlockId) : (block id).Alike related (block id) := by
  intro state log log'
  exact (endsAlike_ofGraph _).bind fun _ _ _ _ => .ok

theorem alike_innermost : innermost.Alike related innermost := fun _ _ _ => .ok

theorem alike_enterLoop (frame : LoopFrame) :
    (enterLoop frame).Alike related (enterLoop frame) := fun _ _ _ => .ok

theorem alike_leaveLoop : leaveLoop.Alike related leaveLoop := fun _ _ _ => .ok

theorem alike_fork (cursor : BlockId) (id : StmtId) (event : BlockId → BlockId → Event) :
    (fork cursor id event).Alike related (fork cursor id event) :=
  alike_bind (alike_change _) fun _ => alike_bind alike_create fun _ =>
    alike_bind alike_create fun _ => alike_bind (alike_record _ _) fun _ =>
    alike_bind (alike_change _) fun _ => alike_bind (alike_change _) fun _ => alike_pure _

theorem alike_join (left right : BlockId) : (join left right).Alike related (join left right) :=
  alike_bind alike_create fun _ => alike_bind (alike_record _ _) fun _ =>
    alike_bind (alike_change _) fun _ => alike_bind (alike_change _) fun _ => alike_pure _

theorem alike_finishLoop (header exit bodyExit : BlockId) :
    (finishLoop header exit bodyExit).Alike related (finishLoop header exit bodyExit) := by
  refine alike_bind alike_leaveLoop fun _ => alike_bind (alike_block _) fun last => ?_
  split
  · exact alike_bind (alike_change _) fun _ => alike_bind (alike_change _) fun _ => alike_pure _
  · exact alike_pure _

end WalkM

end Alike

namespace Context

open WalkM

section Leaves

variable {related : FlowError → FlowError → Prop}
  (context : Context) (cursor : BlockId) (id : StmtId) (stmt other : Stmt)

theorem alike_afterJump (jump : Jump) :
    (afterJump jump cursor).Alike related (afterJump jump cursor) :=
  alike_bind alike_create fun _ => alike_bind (alike_record _ _) fun _ => alike_pure _

theorem alike_walkPlain : (walkPlain cursor id).Alike related (walkPlain cursor id) :=
  alike_bind (alike_change _) fun _ => alike_pure _

theorem alike_walkDefinition :
    (walkDefinition cursor id stmt).Alike related (walkDefinition cursor id other) :=
  alike_bind (alike_change _) fun _ => alike_bind (alike_change _) fun _ =>
    alike_bind (alike_record _ _) fun _ => alike_pure _

theorem alike_walkReturn : (walkReturn cursor id).Alike related (walkReturn cursor id) :=
  alike_bind (alike_change _) fun _ => alike_bind (alike_change _) fun _ => alike_afterJump _ _

theorem alike_walkBreak
    (same : related (.breakOutsideLoop id stmt.line) (.breakOutsideLoop id other.line)) :
    (walkBreak cursor id stmt).Alike related (walkBreak cursor id other) := by
  refine alike_bind alike_innermost fun frame => ?_
  cases frame with
  | none => exact alike_refuse same
  | some frame =>
      exact alike_bind (alike_change _) fun _ => alike_bind (alike_change _) fun _ =>
        alike_afterJump _ _

theorem alike_walkContinue
    (same : related (.continueOutsideLoop id stmt.line) (.continueOutsideLoop id other.line)) :
    (walkContinue cursor id stmt).Alike related (walkContinue cursor id other) := by
  refine alike_bind alike_innermost fun frame => ?_
  cases frame with
  | none => exact alike_refuse same
  | some frame =>
      exact alike_bind (alike_change _) fun _ => alike_bind (alike_change _) fun _ =>
        alike_afterJump _ _

theorem alike_unsupported (pool : StmtPool) (construct : String) :
    Alike FlowError.Relined (context.unsupported construct id stmt : WalkM BlockId)
      ({ context with pool }.unsupported construct id other) :=
  alike_refuse rfl

end Leaves

/-- The walk goes into a statement: a branch or a loop, with no clauses beside its arms. -/
inductive Enters (context : Context) (id : StmtId) : Prop where
  | branch {stmt} : context.Treats id stmt .branch → stmt.hasClauses = false → Enters context id
  | loop {stmt} : context.Treats id stmt .loop → stmt.orelse.isEmpty → stmt.hasClauses = false →
      Enters context id

/-- The statements at which the walk of a leg looks: the first one, and those of the legs to
    which it leads. -/
inductive LooksAt (context : Context) : Leg → StmtId → Prop where
  | first {loop levels cursor id ids state log} :
      LooksAt context ⟨loop, levels, cursor, id :: ids, state, log⟩ id
  | onward {leg behind id} : context.Leads .onward leg behind → LooksAt context behind id →
      LooksAt context leg id
  | inside {way leg inner around id} : leg.ids.head? = some around → context.Enters around →
      context.Leads way leg inner → LooksAt context inner id → LooksAt context leg id

/-- Every statement at which the walk of a leg looks resembles the one in the other pool, and
    is missing when that is missing. -/
def SeesSame (context : Context) (pool : StmtPool) (leg : Leg) : Prop :=
  ∀ id, context.LooksAt leg id →
    Option.Rel context.dialect.Resembles (context.pool.get? id) (pool.get? id)

/-- With so many levels, a walk that sees the same in two pools ends alike in both. -/
def WalksSame (context : Context) (pool : StmtPool) (levels : Nat) : Prop :=
  ∀ loop cursor ids state log log', context.SeesSame pool ⟨loop, levels, cursor, ids, state, log⟩ →
    EndsAlike FlowError.Relined (context.walkSeq levels cursor ids state log)
      ({ context with pool }.walkSeq levels cursor ids state log')

section Walk

variable {context : Context} {pool : StmtPool} {leg : Leg} {loop : Option StmtId} {levels : Nat}
  {cursor : BlockId} {id : StmtId} {ids : List StmtId} {state : WalkState} {log log' : Log}
  {stmt other : Stmt} {rule : Rule}

theorem SeesSame.inside {way : Way} {inner : Leg} (same : context.SeesSame pool leg)
    (head : leg.ids.head? = some id) (enters : context.Enters id)
    (leads : context.Leads way leg inner) : context.SeesSame pool inner :=
  fun around looks => same around (.inside head enters leads looks)

theorem SeesSame.onward {behind : Leg} (same : context.SeesSame pool leg)
    (leads : context.Leads .onward leg behind) : context.SeesSame pool behind :=
  fun around looks => same around (.onward leads looks)

/-- The statement is in both pools and is treated by the same rule. -/
structure TreatsBoth (context : Context) (pool : StmtPool) (id : StmtId) (stmt other : Stmt)
    (rule : Rule) : Prop where
  treats : context.Treats id stmt rule
  treats' : { context with pool }.Treats id other rule
  resembles : context.dialect.Resembles stmt other

theorem endsAlike_branch (both : context.TreatsBoth pool id stmt other .branch)
    (below : context.WalksSame pool levels)
    (same : context.SeesSame pool ⟨loop, levels + 1, cursor, id :: ids, state, log⟩) :
    EndsAlike FlowError.Relined (context.walkStmt (levels + 1) cursor id state log)
      ({ context with pool }.walkStmt (levels + 1) cursor id state log') := by
  obtain ⟨treats, treats', resembles⟩ := both
  obtain ⟨body, orelse, clauses⟩ := resembles.opened_eq (.inl treats.treated)
  rw [walkStmt_succ treats.kept, walkStmt_succ treats'.kept, visit, visit, treats.treated,
    treats'.treated]
  refine endsAlike_bind (alike_record _ _ _ _ _) ?_
  rintro _ _ _ logOther ⟨⟩
  simp only [walkBranch_eq, body, orelse, clauses, resembles.kind]
  split
  · exact alike_unsupported context id stmt other pool _ _ _ _
  · rename_i plain
    have enters : context.Enters id := .branch treats (Bool.eq_false_iff.mpr plain)
    refine endsAlike_bind (alike_fork _ _ _ _ _ _) ?_
    rintro ⟨left, right⟩ forked _ _ forking
    refine endsAlike_bind (below _ _ _ _ _ _ (same.inside rfl enters (.body treats forking))) ?_
    intro _ _ _ _ walked
    have inOrelse := same.inside rfl enters (.orelse treats forking walked)
    refine endsAlike_bind (below _ _ _ _ _ _ inOrelse) ?_
    intro _ _ _ _ _
    exact alike_join _ _ _ _ _

theorem endsAlike_loop (both : context.TreatsBoth pool id stmt other .loop)
    (below : context.WalksSame pool levels)
    (same : context.SeesSame pool ⟨loop, levels + 1, cursor, id :: ids, state, log⟩) :
    EndsAlike FlowError.Relined (context.walkStmt (levels + 1) cursor id state log)
      ({ context with pool }.walkStmt (levels + 1) cursor id state log') := by
  obtain ⟨treats, treats', resembles⟩ := both
  obtain ⟨body, orelse, clauses⟩ := resembles.opened_eq (.inr treats.treated)
  rw [walkStmt_succ treats.kept, walkStmt_succ treats'.kept, visit, visit, treats.treated,
    treats'.treated]
  refine endsAlike_bind (alike_record _ _ _ _ _) ?_
  rintro _ _ _ logOther ⟨⟩
  simp only [walkLoop_eq, body, orelse, clauses, resembles.kind]
  split
  · exact alike_unsupported context id stmt other pool _ _ _ _
  rename_i elseless
  split
  · exact alike_unsupported context id stmt other pool _ _ _ _
  · rename_i plain
    have enters : context.Enters id :=
      .loop treats (by simpa using elseless) (Bool.eq_false_iff.mpr plain)
    refine endsAlike_bind (alike_fork _ _ _ _ _ _) ?_
    rintro ⟨entry, exit⟩ ⟨graph, loops⟩ _ _ forking
    refine endsAlike_bind .ok ?_
    rintro _ _ _ _ ⟨⟩
    refine endsAlike_bind (below _ _ _ _ _ _ (same.inside rfl enters (.turn treats forking))) ?_
    intro _ _ _ _ _
    exact alike_finishLoop _ _ _ _ _ _

/-- A statement with any other rule is not gone into. -/
theorem endsAlike_leaf (both : context.TreatsBoth pool id stmt other rule)
    (noBranch : rule ≠ .branch) (noLoop : rule ≠ .loop) :
    EndsAlike FlowError.Relined (context.walkStmt (levels + 1) cursor id state log)
      ({ context with pool }.walkStmt (levels + 1) cursor id state log') := by
  obtain ⟨treats, treats', resembles⟩ := both
  rw [walkStmt_succ treats.kept, walkStmt_succ treats'.kept, visit, visit, treats.treated,
    treats'.treated]
  refine alike_bind (alike_record _ _) (fun _ => ?_) state log log'
  cases rule with
  | sequential => exact alike_walkPlain cursor id
  | deferred => exact alike_walkDefinition cursor id stmt other
  | returns => exact alike_walkReturn cursor id
  | breaks => exact alike_walkBreak cursor id stmt other rfl
  | continues => exact alike_walkContinue cursor id stmt other rfl
  | unsupported =>
      rw [resembles.kind]
      exact alike_unsupported context id stmt other pool _
  | branch => exact absurd rfl noBranch
  | loop => exact absurd rfl noLoop

theorem endsAlike_walkStmt (below : ∀ fewer, levels = fewer + 1 → context.WalksSame pool fewer)
    (same : context.SeesSame pool ⟨loop, levels, cursor, id :: ids, state, log⟩) :
    EndsAlike FlowError.Relined (context.walkStmt levels cursor id state log)
      ({ context with pool }.walkStmt levels cursor id state log') := by
  have looked := same id .first
  generalize kept : context.pool.get? id = found at looked
  generalize kept' : { context with pool }.pool.get? id = found' at looked
  cases looked with
  | none =>
      rw [walkStmt_of_missing kept, walkStmt_of_missing kept']
      exact .flow rfl
  | @some stmt other resembles =>
      cases levels with
      | zero =>
          rw [walkStmt_zero kept, walkStmt_zero kept']
          exact .flow rfl
      | succ levels =>
          cases treated : context.dialect.ruleOf? stmt with
          | none =>
              have treated' := resembles.ruleOf?_eq.trans treated
              rw [walkStmt_succ kept, walkStmt_succ kept', visit, visit, treated, treated',
                resembles.kind]
              exact alike_unsupported context id stmt other pool _ _ _ _
          | some rule =>
              have both : context.TreatsBoth pool id stmt other rule :=
                ⟨⟨kept, treated⟩, ⟨kept', resembles.ruleOf?_eq.trans treated⟩, resembles⟩
              by_cases branch : rule = .branch
              · subst branch
                exact endsAlike_branch both (below levels rfl) same
              by_cases loop : rule = .loop
              · subst loop
                exact endsAlike_loop both (below levels rfl) same
              exact endsAlike_leaf both branch loop

theorem walksSame (context : Context) (pool : StmtPool) (levels : Nat) :
    context.WalksSame pool levels := by
  -- the legs inside a statement have fewer levels, the one behind it fewer statements
  induction levels using Nat.strongRecOn with
  | _ levels ih =>
      intro loop cursor ids
      have below : ∀ fewer, levels = fewer + 1 → context.WalksSame pool fewer :=
        fun fewer eq => ih fewer (by omega)
      induction ids generalizing cursor with
      | nil => exact fun _ _ _ _ => .ok
      | cons id ids ihIds =>
          intro state log log' same
          simp only [walkSeq, List.foldlM_cons]
          refine endsAlike_bind (endsAlike_walkStmt below same) ?_
          intro next after mid mid' walked
          exact ihIds next after mid mid' (same.onward (.onward walked))

/-- A walk looks at no other statements than those of its visits. -/
theorem LooksAt.mem_visits (looks : context.LooksAt leg id) (inLoop : Bool) :
    id ∈ (context.visitsIn leg.levels inLoop leg.ids).map (·.id) := by
  induction looks generalizing inLoop with
  | first =>
      rw [visitsIn_cons, List.map_append]
      apply List.mem_append_left
      unfold visitsOf
      exact List.mem_cons_self
  | onward leads _ ih =>
      cases leads with
      | onward _ =>
          rw [visitsIn_cons, List.map_append]
          exact List.mem_append_right _ (ih inLoop)
  | inside head enters leads _ ih =>
      cases leads with
      | onward _ =>
          rw [visitsIn_cons, List.map_append]
          exact List.mem_append_right _ (ih inLoop)
      | body treats _ =>
          have := ih inLoop
          rw [visitsIn_cons, visitsOf_succ treats.kept, treats.treated]
          grind
      | orelse treats _ _ =>
          have := ih inLoop
          rw [visitsIn_cons, visitsOf_succ treats.kept, treats.treated]
          grind
      | turn treats _ =>
          have := ih true
          rw [visitsIn_cons, visitsOf_succ treats.kept, treats.treated]
          grind

end Walk

/-- The statements at which a build looks, none when there is no number for its entry. -/
def BuildLooksAt (context : Context) (start : Numbering) (body : List StmtId) (log : Log)
    (id : StmtId) : Prop :=
  start.next.index + 1 < BlockId.limit ∧ context.LooksAt (context.firstLeg start body log) id

/-- Two builds give the same graph, are refused with errors that differ in their lines only, or
    both run out of block ids. -/
def SameOutcome (left right : EStateM.Result Failure Log Graph) : Prop :=
  (∃ graph log log', left = .ok graph log ∧ right = .ok graph log') ∨
  (∃ error error' log log', left = .error (.flow error) log ∧ right = .error (.flow error') log' ∧
    error.unlined = error'.unlined) ∨
  RanOut left ∧ RanOut right

section Build

variable {context : Context} {pool : StmtPool} {start : Numbering} {body : List StmtId}
  {log log' : Log} {id : StmtId}

theorem BuildLooksAt.mem_visited (looks : context.BuildLooksAt start body log id) :
    id ∈ context.visited body :=
  looks.2.mem_visits false

theorem endsAlike_build
    (same : ∀ id, context.BuildLooksAt start body log id →
      Option.Rel context.dialect.Resembles (context.pool.get? id) (pool.get? id)) :
    EndsAlike FlowError.Relined (context.build start body log)
      ({ context with pool }.build start body log') := by
  unfold build buildToEnd buildInto
  refine EndsAlike.bind ((endsAlike_ofGraph _).bind ?_) fun _ _ _ _ => .ok
  intro graph mid mid' made
  obtain ⟨first, rfl⟩ := BuildM.ofGraph_eq_ok.mp made
  have room := (Graph.new_eq_ok first).1
  obtain rfl := Graph.new_eq_blank first
  refine EndsAlike.bind .ok ?_
  rintro _ _ _ ⟨⟩
  have seen : context.SeesSame pool (context.firstLeg start body log) :=
    fun id looks => same id ⟨room, looks⟩
  refine EndsAlike.bind (context.walksSame pool _ _ _ _ _ _ _ seen) ?_
  rintro ⟨last, state⟩ _ _ _
  exact (endsAlike_ofGraph _).bind fun _ _ _ _ => .ok

theorem sameOutcome_of_endsAlike {right : EStateM.Result Failure Log Graph}
    (alike : EndsAlike FlowError.Relined (context.build start body log) right) :
    SameOutcome (context.build start body log) right := by
  have ending := ends_build context start body log
  generalize context.build start body log = left at alike ending
  cases alike with
  | ok => exact .inl ⟨_, _, _, rfl, rfl⟩
  | flow same => exact .inr (.inl ⟨_, _, _, _, rfl, rfl, same⟩)
  | fault =>
      obtain ⟨⟨last, rfl⟩, _⟩ := ending
      exact .inr (.inr ⟨⟨last, _, rfl⟩, ⟨last, _, rfl⟩⟩)

/-- A build ends in the same way with every other pool that looks the same on its way, also
    when that has other lines and names, other bodies of definitions and leaves, and other
    statements anywhere else. -/
theorem build_depends_on_what_it_sees (context : Context) (pool : StmtPool) (start : Numbering)
    (body : List StmtId) (log log' : Log) :
    ((∀ id, context.BuildLooksAt start body log id →
        Option.Rel context.dialect.Resembles (context.pool.get? id) (pool.get? id)) →
      SameOutcome (context.build start body log) ({ context with pool }.build start body log')) ∧
    ((∀ id, context.BuildLooksAt start body log id →
        Option.Rel context.dialect.Rewords (context.pool.get? id) (pool.get? id)) →
      SameOutcome (context.build start body log)
        ({ context with pool }.build start body log')) := by
  have outcome := fun same => sameOutcome_of_endsAlike
    (@endsAlike_build context pool start body log log' same)
  refine ⟨outcome, fun reworded => outcome fun id looks => ?_⟩
  have found := reworded id looks
  generalize context.pool.get? id = kept at found
  generalize pool.get? id = kept' at found
  cases found with
  | none => exact .none
  | some rewords => exact .some rewords.resembles

/-- A branch with a definition in one arm, and behind it a statement of a kind that the dialect
    does not have and a jump out of no loop. -/
def branchWithDefinition : Context where
  pool := { slots := #[⟨0, none⟩, ⟨1, some (.ifElse 1 [⟨2, 1⟩] [⟨3, 1⟩])⟩,
    ⟨1, some (.simple .pass 2)⟩, ⟨1, some (.define .functionDef 0 3 [⟨6, 1⟩])⟩,
    ⟨1, some (.simple .print 4)⟩, ⟨1, some (.breakAt 5)⟩, ⟨1, some (.returnAt 6)⟩] }
  dialect := .python3
  maxDepth := 1

/-- The same at other lines, with another name and body of the definition, a leaf that holds
    something, and nothing under the id to which no build comes. -/
def rewordedPool : StmtPool where
  slots := #[⟨0, none⟩, ⟨1, some (.ifElse 10 [⟨2, 1⟩] [⟨3, 1⟩])⟩,
    ⟨1, some (.compound .pass 20 [⟨1, 1⟩] [⟨5, 1⟩])⟩,
    ⟨1, some (.define .functionDef 7 30 [⟨4, 1⟩, ⟨2, 1⟩])⟩, ⟨1, some (.simple .print 40)⟩,
    ⟨1, some (.breakAt 50)⟩, ⟨2, none⟩]

theorem build_depends_on_what_it_sees_branchWithDefinition :
    (∃ graph log log', branchWithDefinition.build {} [⟨1, 1⟩, ⟨4, 1⟩] #[] = .ok graph log ∧
      { branchWithDefinition with pool := rewordedPool }.build {} [⟨1, 1⟩, ⟨4, 1⟩] #[] =
        .ok graph log') ∧
    ∃ line log, { branchWithDefinition with pool := rewordedPool }.build {}
      [⟨1, 1⟩, ⟨4, 1⟩, ⟨5, 1⟩] #[] = .error (.flow (.breakOutsideLoop ⟨5, 1⟩ line)) log := by
  have reworded : ∀ id ∈ [(⟨1, 1⟩ : StmtId), ⟨2, 1⟩, ⟨3, 1⟩, ⟨4, 1⟩, ⟨5, 1⟩],
      Option.Rel branchWithDefinition.dialect.Rewords (branchWithDefinition.pool.get? id)
        (rewordedPool.get? id) := by
    simp only [List.forall_mem_cons]
    refine ⟨.some (.inl rfl), .some (.inr ⟨⟨.sequential, rfl, by decide, by decide⟩, rfl⟩),
      .some (.inr ⟨⟨.deferred, rfl, by decide, by decide⟩, rfl⟩), .some (.inl rfl),
      .some (.inl rfl), List.forall_mem_nil _⟩
  have outcome : ∀ body, (∀ id ∈ branchWithDefinition.visited body,
      id ∈ [(⟨1, 1⟩ : StmtId), ⟨2, 1⟩, ⟨3, 1⟩, ⟨4, 1⟩, ⟨5, 1⟩]) →
      SameOutcome (branchWithDefinition.build {} body #[])
        ({ branchWithDefinition with pool := rewordedPool }.build {} body #[]) := by
    intro body visited
    exact (build_depends_on_what_it_sees ..).2 fun id looks =>
      reworded id (visited id looks.mem_visited)
  have accepted : Decided (branchWithDefinition.build {} [⟨1, 1⟩, ⟨4, 1⟩] #[]) none :=
    build_succeeds (by decide) (by decide) #[]
  have refused : Decided (branchWithDefinition.build {} [⟨1, 1⟩, ⟨4, 1⟩, ⟨5, 1⟩] #[])
      (some (.breakOutsideLoop ⟨5, 1⟩ 5)) := refusalOf?_eq_some.mp (by decide)
  constructor
  · rcases outcome [⟨1, 1⟩, ⟨4, 1⟩] (by decide) with same | ⟨error, _, log, _, failed, _⟩ | ran
    · exact same
    · cases accepted.error_iff.mp ⟨log, failed⟩
    · exact absurd ran.1 accepted.not_ranOut
  · rcases outcome [⟨1, 1⟩, ⟨4, 1⟩, ⟨5, 1⟩] (by decide) with
      ⟨graph, log, _, went, _⟩ | ⟨error, error', log, log', failed, failed', same⟩ | ran
    · cases refused.ok_iff.mp ⟨graph, log, went⟩
    · cases refused.error_iff.mp ⟨log, failed⟩
      cases error' <;> cases same
      exact ⟨_, log', failed'⟩
    · exact absurd ran.1 refused.not_ranOut

end Build

end Context

end FlowGraph
