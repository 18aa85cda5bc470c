import FlowGraph.Build.Basic

/-! # Flows and visits

The control structure of a statement sequence, read from the statements and their
rules without any graph. A `Flow` is what a sequence says when nothing is wrong with
it; the visits list the statements in the order in which a walk comes to them, each
with the little it has to know to find a fault there.
-/

namespace FlowGraph

/-- A statement sequence by its control structure: the first statement, what is nested
    in it, and the rest of the sequence. -/
inductive Flow where
  | done
  | step (id : StmtId) (deferred : Bool) (rest : Flow)
  | branch (id : StmtId) (body orelse rest : Flow)
  | loop (id : StmtId) (body rest : Flow)
  | jump (kind : Jump) (id : StmtId) (rest : Flow)
  deriving Repr, DecidableEq

namespace Flow

def append : Flow → Flow → Flow
  | done, more => more
  | step id deferred rest, more => step id deferred (rest.append more)
  | branch id body orelse rest, more => branch id body orelse (rest.append more)
  | loop id body rest, more => loop id body (rest.append more)
  | jump kind id rest, more => jump kind id (rest.append more)

theorem append_done (flow : Flow) : flow.append done = flow := by
  induction flow with
  | done => rfl
  | step _ _ _ ih | jump _ _ _ ih => rw [append, ih]
  | branch _ _ _ _ _ _ ih => rw [append, ih]
  | loop _ _ _ _ ih => rw [append, ih]

theorem append_assoc (flow more rest : Flow) :
    (flow.append more).append rest = flow.append (more.append rest) := by
  induction flow with
  | done => rfl
  | step _ _ _ ih | jump _ _ _ ih => simp only [append, ih]
  | branch _ _ _ _ _ _ ih => simp only [append, ih]
  | loop _ _ _ _ ih => simp only [append, ih]

/-- The statements of a flow, each before those nested in it. -/
def stmts : Flow → List StmtId
  | done => []
  | step id _ rest => id :: rest.stmts
  | branch id body orelse rest => id :: (body.stmts ++ orelse.stmts ++ rest.stmts)
  | loop id body rest => id :: (body.stmts ++ rest.stmts)
  | jump _ id rest => id :: rest.stmts

end Flow

/-- A statement on the way of a walk: how many branches and loops it is below, and
    whether one of them is a loop. -/
structure Visit where
  id : StmtId
  depth : Nat
  inLoop : Bool
  deriving Repr, DecidableEq

namespace Context

/-- The context keeps the statement under the id and treats it by the rule. -/
structure Treats (context : Context) (id : StmtId) (stmt : Stmt) (rule : Rule) : Prop where
  kept : context.pool.get? id = some stmt
  treated : context.dialect.ruleOf? stmt = some rule

theorem Treats.unique {context : Context} {id : StmtId} {stmt stmt' : Stmt} {rule rule' : Rule}
    (h : context.Treats id stmt rule) (h' : context.Treats id stmt' rule') :
    stmt = stmt' ∧ rule = rule' := by
  obtain rfl : stmt = stmt' := Option.some.inj (h.kept.symm.trans h'.kept)
  exact ⟨rfl, Option.some.inj (h.treated.symm.trans h'.treated)⟩

/-- The rule by which the statement kept under an id is treated. -/
def rule? (context : Context) (id : StmtId) : Option Rule :=
  (context.pool.get? id).bind context.dialect.ruleOf?

theorem Treats.rule?_eq {context : Context} {id : StmtId} {stmt : Stmt} {rule : Rule}
    (h : context.Treats id stmt rule) : context.rule? id = some rule := by
  rw [rule?, h.kept]
  exact h.treated

/-- The flow of one statement, at most `levels` levels deep. A statement that is
    missing, too deep or without a treatment is left out. -/
def flowStmt (context : Context) (levels : Nat) (id : StmtId) : Flow :=
  match levels, context.pool.get? id with
  | levels + 1, some stmt =>
      match context.dialect.ruleOf? stmt with
      | some .sequential => .step id false .done
      | some .deferred => .step id true .done
      | some .branch =>
          .branch id (stmt.body.foldr (fun id => (context.flowStmt levels id).append) .done)
            (stmt.orelse.foldr (fun id => (context.flowStmt levels id).append) .done) .done
      | some .loop =>
          .loop id (stmt.body.foldr (fun id => (context.flowStmt levels id).append) .done) .done
      | some .returns => .jump .returns id .done
      | some .breaks => .jump .breaks id .done
      | some .continues => .jump .continues id .done
      | some .unsupported | none => .done
  | _, _ => .done

def flow (context : Context) (levels : Nat) (ids : List StmtId) : Flow :=
  ids.foldr (fun id => (context.flowStmt levels id).append) .done

/-- The visits of one statement: itself, then what is nested in it. Where `levels` more
    levels are accepted, the depth is what is missing to the first level too deep. -/
def visitsOf (context : Context) (levels : Nat) (inLoop : Bool) (id : StmtId) : List Visit :=
  ⟨id, context.maxDepth + 1 - levels, inLoop⟩ ::
    match levels, context.pool.get? id with
    | levels + 1, some stmt =>
        match context.dialect.ruleOf? stmt with
        | some .branch =>
            stmt.body.flatMap (context.visitsOf levels inLoop) ++
              stmt.orelse.flatMap (context.visitsOf levels inLoop)
        | some .loop => stmt.body.flatMap (context.visitsOf levels true)
        | _ => []
    | _, _ => []

def visitsIn (context : Context) (levels : Nat) (inLoop : Bool) (ids : List StmtId) :
    List Visit :=
  ids.flatMap (context.visitsOf levels inLoop)

/-- The visits of a whole body: no branch or loop is around it. -/
def visits (context : Context) (body : List StmtId) : List Visit :=
  context.visitsIn (context.maxDepth + 1) false body

/-- The statements of a body in the order in which a walk visits them, one entry for
    each visit. -/
def visited (context : Context) (body : List StmtId) : List StmtId :=
  (context.visits body).map (·.id)

/-- What is wrong with a statement at the place where it is visited. -/
def fault? (context : Context) (visit : Visit) : Option FlowError :=
  match context.pool.get? visit.id with
  | none => some (.missingStatement visit.id)
  | some stmt =>
      let unsupported (construct : String) : FlowError :=
        .unsupportedConstruct construct context.dialect.name visit.id stmt.line
      if context.maxDepth < visit.depth then
        some (.nestingTooDeep visit.id stmt.line context.maxDepth)
      else
        match context.dialect.ruleOf? stmt with
        | none | some .unsupported => some (unsupported stmt.kind.name)
        | some .loop =>
            if !stmt.orelse.isEmpty then some (unsupported (stmt.kind.loopKeyword ++ "-else"))
            else if stmt.hasClauses then some (unsupported stmt.kind.name)
            else none
        | some .branch => if stmt.hasClauses then some (unsupported stmt.kind.name) else none
        | some .breaks =>
            if visit.inLoop then none else some (.breakOutsideLoop visit.id stmt.line)
        | some .continues =>
            if visit.inLoop then none else some (.continueOutsideLoop visit.id stmt.line)
        | some .sequential | some .deferred | some .returns => none

def faultOf? (context : Context) (levels : Nat) (inLoop : Bool) (id : StmtId) :
    Option FlowError :=
  (context.visitsOf levels inLoop id).findSome? context.fault?

def faultIn? (context : Context) (levels : Nat) (inLoop : Bool) (ids : List StmtId) :
    Option FlowError :=
  (context.visitsIn levels inLoop ids).findSome? context.fault?

/-- The first fault on the way through a whole body. -/
def firstFault? (context : Context) (body : List StmtId) : Option FlowError :=
  (context.visits body).findSome? context.fault?

section Equations

variable {context : Context} {id : StmtId} {stmt : Stmt}

theorem flow_cons (context : Context) (levels : Nat) (id : StmtId) (ids : List StmtId) :
    context.flow levels (id :: ids) =
      (context.flowStmt levels id).append (context.flow levels ids) :=
  rfl

theorem flow_append (context : Context) (levels : Nat) (before behind : List StmtId) :
    context.flow levels (before ++ behind) =
      (context.flow levels before).append (context.flow levels behind) := by
  induction before with
  | nil => rfl
  | cons id ids ih => rw [List.cons_append, flow_cons, flow_cons, ih, Flow.append_assoc]

theorem visitsIn_cons (context : Context) (levels : Nat) (inLoop : Bool) (id : StmtId)
    (ids : List StmtId) :
    context.visitsIn levels inLoop (id :: ids) =
      context.visitsOf levels inLoop id ++ context.visitsIn levels inLoop ids :=
  List.flatMap_cons

theorem faultIn?_cons (context : Context) (levels : Nat) (inLoop : Bool) (id : StmtId)
    (ids : List StmtId) :
    context.faultIn? levels inLoop (id :: ids) =
      (context.faultOf? levels inLoop id).or (context.faultIn? levels inLoop ids) := by
  rw [faultIn?, visitsIn_cons, List.findSome?_append]
  rfl

theorem flowStmt_succ (h : context.pool.get? id = some stmt) (levels : Nat) :
    context.flowStmt (levels + 1) id =
      match context.dialect.ruleOf? stmt with
      | some .sequential => .step id false .done
      | some .deferred => .step id true .done
      | some .branch =>
          .branch id (context.flow levels stmt.body) (context.flow levels stmt.orelse) .done
      | some .loop => .loop id (context.flow levels stmt.body) .done
      | some .returns => .jump .returns id .done
      | some .breaks => .jump .breaks id .done
      | some .continues => .jump .continues id .done
      | some .unsupported | none => .done := by
  unfold flowStmt
  rw [h]
  rfl

theorem visitsOf_of_missing (h : context.pool.get? id = none) (levels : Nat) (inLoop : Bool) :
    context.visitsOf levels inLoop id = [⟨id, context.maxDepth + 1 - levels, inLoop⟩] := by
  cases levels <;> simp [visitsOf, h]

theorem visitsOf_zero (context : Context) (inLoop : Bool) (id : StmtId) :
    context.visitsOf 0 inLoop id = [⟨id, context.maxDepth + 1, inLoop⟩] := by
  unfold visitsOf
  rfl

theorem visitsOf_succ (h : context.pool.get? id = some stmt) (levels : Nat) (inLoop : Bool) :
    context.visitsOf (levels + 1) inLoop id =
      ⟨id, context.maxDepth - levels, inLoop⟩ ::
        match context.dialect.ruleOf? stmt with
        | some .branch =>
            context.visitsIn levels inLoop stmt.body ++ context.visitsIn levels inLoop stmt.orelse
        | some .loop => context.visitsIn levels true stmt.body
        | _ => [] := by
  unfold visitsOf
  rw [h, Nat.add_sub_add_right]
  rfl

theorem faultOf?_of_missing (h : context.pool.get? id = none) (levels : Nat) (inLoop : Bool) :
    context.faultOf? levels inLoop id = some (.missingStatement id) := by
  simp [faultOf?, visitsOf_of_missing h, fault?, h]

theorem faultOf?_zero (h : context.pool.get? id = some stmt) (inLoop : Bool) :
    context.faultOf? 0 inLoop id = some (.nestingTooDeep id stmt.line context.maxDepth) := by
  simp [faultOf?, visitsOf_zero, fault?, h]

/-- The first fault of a statement is its own, or one of those nested in it. -/
theorem faultOf?_succ (h : context.pool.get? id = some stmt) (levels : Nat) (inLoop : Bool) :
    context.faultOf? (levels + 1) inLoop id =
      match context.dialect.ruleOf? stmt with
      | none | some .unsupported =>
          some (.unsupportedConstruct stmt.kind.name context.dialect.name id stmt.line)
      | some .loop =>
          if !stmt.orelse.isEmpty then
            some (.unsupportedConstruct (stmt.kind.loopKeyword ++ "-else") context.dialect.name id
              stmt.line)
          else if stmt.hasClauses then
            some (.unsupportedConstruct stmt.kind.name context.dialect.name id stmt.line)
          else context.faultIn? levels true stmt.body
      | some .branch =>
          if stmt.hasClauses then
            some (.unsupportedConstruct stmt.kind.name context.dialect.name id stmt.line)
          else (context.faultIn? levels inLoop stmt.body).or
            (context.faultIn? levels inLoop stmt.orelse)
      | some .breaks => if inLoop then none else some (.breakOutsideLoop id stmt.line)
      | some .continues => if inLoop then none else some (.continueOutsideLoop id stmt.line)
      | some .sequential | some .deferred | some .returns => none := by
  have shallow : ¬ context.maxDepth < context.maxDepth - levels := by omega
  rw [faultOf?, visitsOf_succ h, List.findSome?_cons]
  simp only [fault?, h, shallow, if_false]
  cases hr : context.dialect.ruleOf? stmt with
  | none => rfl
  | some rule =>
      cases rule with
      | branch =>
          cases hc : stmt.hasClauses <;> simp [List.findSome?_append, faultIn?]
      | loop =>
          cases ho : stmt.orelse.isEmpty <;> cases hc : stmt.hasClauses <;> simp [faultIn?]
      | breaks | continues => cases inLoop <;> rfl
      | sequential | deferred | returns | unsupported => rfl

end Equations

/-- A sequence without faults, read into its flow. Jumps out of a turn occur only
    inside a loop. -/
inductive Reads (context : Context) : Bool → List StmtId → Flow → Prop where
  | done {inLoop} : Reads context inLoop [] .done
  | plain {inLoop id stmt ids rest} : context.Treats id stmt .sequential →
      Reads context inLoop ids rest → Reads context inLoop (id :: ids) (.step id false rest)
  | deferred {inLoop id stmt ids rest} : context.Treats id stmt .deferred →
      Reads context inLoop ids rest → Reads context inLoop (id :: ids) (.step id true rest)
  | branch {inLoop id stmt ids body orelse rest} : context.Treats id stmt .branch →
      Reads context inLoop stmt.body body → Reads context inLoop stmt.orelse orelse →
      Reads context inLoop ids rest →
      Reads context inLoop (id :: ids) (.branch id body orelse rest)
  | loop {inLoop id stmt ids body rest} : context.Treats id stmt .loop →
      Reads context true stmt.body body → Reads context inLoop ids rest →
      Reads context inLoop (id :: ids) (.loop id body rest)
  | returns {inLoop id stmt ids rest} : context.Treats id stmt .returns →
      Reads context inLoop ids rest → Reads context inLoop (id :: ids) (.jump .returns id rest)
  | breaks {id stmt ids rest} : context.Treats id stmt .breaks →
      Reads context true ids rest → Reads context true (id :: ids) (.jump .breaks id rest)
  | continues {id stmt ids rest} : context.Treats id stmt .continues →
      Reads context true ids rest → Reads context true (id :: ids) (.jump .continues id rest)

/-- The rule of the first statement says what the flow of a sequence is. -/
theorem Reads.of_treats {context : Context} {inLoop : Bool} {id : StmtId} {stmt : Stmt}
    {rule : Rule} {ids : List StmtId} {flow : Flow} (reads : context.Reads inLoop (id :: ids) flow)
    (treats : context.Treats id stmt rule) :
    match rule with
    | .sequential => ∃ rest, flow = .step id false rest ∧ context.Reads inLoop ids rest
    | .deferred => ∃ rest, flow = .step id true rest ∧ context.Reads inLoop ids rest
    | .branch => ∃ body orelse rest, flow = .branch id body orelse rest ∧
        context.Reads inLoop stmt.body body ∧ context.Reads inLoop stmt.orelse orelse ∧
        context.Reads inLoop ids rest
    | .loop => ∃ body rest, flow = .loop id body rest ∧ context.Reads true stmt.body body ∧
        context.Reads inLoop ids rest
    | .returns => ∃ rest, flow = .jump .returns id rest ∧ context.Reads inLoop ids rest
    | .breaks => inLoop = true ∧ ∃ rest, flow = .jump .breaks id rest ∧ context.Reads true ids rest
    | .continues => inLoop = true ∧ ∃ rest, flow = .jump .continues id rest ∧
        context.Reads true ids rest
    | .unsupported => False := by
  cases reads with
  | plain treats' rest | deferred treats' rest | returns treats' rest =>
      obtain ⟨rfl, rfl⟩ := treats'.unique treats
      exact ⟨_, rfl, rest⟩
  | branch treats' body orelse rest =>
      obtain ⟨rfl, rfl⟩ := treats'.unique treats
      exact ⟨_, _, _, rfl, body, orelse, rest⟩
  | loop treats' body rest =>
      obtain ⟨rfl, rfl⟩ := treats'.unique treats
      exact ⟨_, _, rfl, body, rest⟩
  | breaks treats' rest | continues treats' rest =>
      obtain ⟨rfl, rfl⟩ := treats'.unique treats
      exact ⟨rfl, _, rfl, rest⟩

/-- A sequence without faults has a flow, and the flow has its visits. -/
theorem reads_of_faultless {context : Context} {levels : Nat} {inLoop : Bool} {ids : List StmtId}
    (clean : context.faultIn? levels inLoop ids = none) :
    context.Reads inLoop ids (context.flow levels ids) ∧
      (context.visitsIn levels inLoop ids).map (·.id) = (context.flow levels ids).stmts := by
  induction levels generalizing inLoop ids with
  | zero =>
      cases ids with
      | nil => exact ⟨.done, rfl⟩
      | cons id ids =>
          rw [faultIn?_cons] at clean
          cases h : context.pool.get? id with
          | none => simp [faultOf?_of_missing h] at clean
          | some stmt => simp [faultOf?_zero h] at clean
  | succ levels ih =>
      induction ids with
      | nil => exact ⟨.done, rfl⟩
      | cons id ids ihIds =>
          rw [faultIn?_cons, Option.or_eq_none_iff] at clean
          obtain ⟨rest, visits⟩ := ihIds clean.2
          cases h : context.pool.get? id with
          | none => simp [faultOf?_of_missing h] at clean
          | some stmt =>
              have here := clean.1
              rw [faultOf?_succ h] at here
              rw [flow_cons, visitsIn_cons, flowStmt_succ h, visitsOf_succ h]
              cases hr : context.dialect.ruleOf? stmt with
              | none => simp [hr] at here
              | some rule =>
                  have treats : context.Treats id stmt rule := ⟨h, hr⟩
                  cases rule <;> simp only [hr] at here
                  case sequential =>
                    exact ⟨.plain treats rest, by simp [Flow.append, Flow.stmts, visits]⟩
                  case deferred =>
                    exact ⟨.deferred treats rest, by simp [Flow.append, Flow.stmts, visits]⟩
                  case returns =>
                    exact ⟨.returns treats rest, by simp [Flow.append, Flow.stmts, visits]⟩
                  case branch =>
                    split at here
                    · cases here
                    · rw [Option.or_eq_none_iff] at here
                      obtain ⟨body, bodyVisits⟩ := ih here.1
                      obtain ⟨orelse, orelseVisits⟩ := ih here.2
                      exact ⟨.branch treats body orelse rest, by
                        simp [Flow.append, Flow.stmts, visits, bodyVisits, orelseVisits]⟩
                  case loop =>
                    split at here
                    · cases here
                    · split at here
                      · cases here
                      · obtain ⟨body, bodyVisits⟩ := ih here
                        exact ⟨.loop treats body rest, by
                          simp [Flow.append, Flow.stmts, visits, bodyVisits]⟩
                  case breaks =>
                    cases inLoop with
                    | false => simp at here
                    | true => exact ⟨.breaks treats rest, by simp [Flow.append, Flow.stmts, visits]⟩
                  case continues =>
                    cases inLoop with
                    | false => simp at here
                    | true =>
                        exact ⟨.continues treats rest, by simp [Flow.append, Flow.stmts, visits]⟩
                  case unsupported => cases here

end Context

end FlowGraph
