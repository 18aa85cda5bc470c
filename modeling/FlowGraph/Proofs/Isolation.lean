import FlowGraph.Proofs.Order
import FlowGraph.Proofs.Scopes

/-! # Scopes do not depend on each other

The build of a module comes to its scopes breadth first. Whether it accepts a scope is
decided by the statements of the scope alone: they are read as a body of their own, outside
of loops and at depth zero, wherever the definition stands. So the build of a module fails
with the error of the first scope that fails when it is built alone, and gives graphs when
there is none.
-/

namespace FlowGraph

theorem BuildM.bind_of_ok {α β : Type} {first : BuildM α} {next : α → BuildM β} {log mid : Log}
    {value : α} (success : first log = .ok value mid) :
    (first >>= next) log = next value mid := by
  simp [bind, EStateM.bind, success]

theorem BuildM.bind_of_error {α β : Type} {first : BuildM α} {next : α → BuildM β} {log mid : Log}
    {failure : Failure} (failed : first log = .error failure mid) :
    (first >>= next) log = .error failure mid := by
  simp [bind, EStateM.bind, failed]

/-- Of two sequences that begin alike the second parts have to be looked at only where the first
    one went through. -/
theorem BuildM.bind_congr {α β : Type} {first first' : BuildM α} {next next' : α → BuildM β}
    {log : Log} (alike : first log = first' log)
    (onward : ∀ value mid, first log = .ok value mid → next value mid = next' value mid) :
    (first >>= next) log = (first' >>= next') log := by
  cases run : first log with
  | error failure mid => rw [bind_of_error run, bind_of_error (alike.symm.trans run)]
  | ok value mid =>
      rw [bind_of_ok run, bind_of_ok (alike.symm.trans run)]
      exact onward value mid run

theorem BuildM.bind_eq_error {α β : Type} {first : BuildM α} {next : α → BuildM β}
    {log log' : Log} {failure : Failure} :
    (first >>= next) log = .error failure log' ↔ first log = .error failure log' ∨
      ∃ value mid, first log = .ok value mid ∧ next value mid = .error failure log' := by
  simp only [bind, EStateM.bind]
  cases first log with
  | error other mid => simp
  | ok value mid => grind

theorem RanOut.bind {α β : Type} {first : BuildM α} {log : Log} (ran : RanOut (first log))
    (next : α → BuildM β) : RanOut ((first >>= next) log) := by
  obtain ⟨last, mid, failed⟩ := ran
  exact ⟨last, mid, BuildM.bind_of_error failed⟩

theorem Settled.bind {α β : Type} {first : BuildM α} {next : α → BuildM β} {log : Log}
    (settled : Settled (first log))
    (onward : ∀ value mid, first log = .ok value mid → Settled (next value mid)) :
    Settled ((first >>= next) log) := by
  rcases settled with ⟨value, mid, success⟩ | ⟨error, mid, refused⟩ | ran
  · rw [BuildM.bind_of_ok success]
    exact onward value mid success
  · exact .inr (.inl ⟨error, mid, BuildM.bind_of_error refused⟩)
  · exact .inr (.inr (ran.bind next))

def refusalOf? {α : Type} : EStateM.Result Failure Log α → Option FlowError
  | .error (.flow error) _ => some error
  | _ => none

theorem refusalOf?_eq_some {α : Type} {result : EStateM.Result Failure Log α} {error : FlowError} :
    refusalOf? result = some error ↔ ∃ log, result = .error (.flow error) log := by
  unfold refusalOf?
  split
  · simp
  · rename_i unrefused
    simp only [reduceCtorEq, false_iff, not_exists]
    exact unrefused error

/-- A build was refused with the error, or gave a value when there is none. -/
def Decided {α : Type} (result : EStateM.Result Failure Log α) : Option FlowError → Prop
  | none => ∃ value log, result = .ok value log
  | some error => ∃ log, result = .error (.flow error) log

namespace Decided

variable {α : Type} {result : EStateM.Result Failure Log α} {refusal : Option FlowError}

theorem error_iff (decided : Decided result refusal) {error : FlowError} :
    (∃ log, result = .error (.flow error) log) ↔ refusal = some error := by
  constructor
  · rintro ⟨log, rfl⟩
    cases refusal with
    | none => obtain ⟨_, _, ⟨⟩⟩ := decided
    | some other =>
        obtain ⟨_, ⟨⟩⟩ := decided
        rfl
  · rintro rfl
    exact decided

theorem ok_iff (decided : Decided result refusal) :
    (∃ value log, result = .ok value log) ↔ refusal = none := by
  constructor
  · rintro ⟨value, log, rfl⟩
    cases refusal with
    | none => rfl
    | some other => obtain ⟨_, ⟨⟩⟩ := decided
  · rintro rfl
    exact decided

theorem not_ranOut (decided : Decided result refusal) : ¬ RanOut result := by
  rintro ⟨last, log, rfl⟩
  cases refusal with
  | none => obtain ⟨_, _, ⟨⟩⟩ := decided
  | some error => obtain ⟨_, ⟨⟩⟩ := decided

theorem bind_pure {β : Type} {first : BuildM α} {log : Log}
    (decided : Decided (first log) refusal) (value : α → β) :
    Decided ((first >>= fun result => pure (value result)) log) refusal := by
  cases refusal with
  | none =>
      obtain ⟨result, mid, success⟩ := decided
      exact ⟨value result, mid, BuildM.bind_of_ok success⟩
  | some error =>
      obtain ⟨mid, failed⟩ := decided
      exact ⟨mid, BuildM.bind_of_error failed⟩

end Decided

namespace Context

/-- The build of one scope of a module alone, numbered from zero: of the top sequence, or of
    a definition. -/
def buildScope (context : Context) (body : List StmtId) : Option StmtId → BuildM Graph
  | none => context.build {} body
  | some root => context.buildDef {} root

/-- The definitions met in a scope. One that cannot be built has none. -/
def definitionsIn (context : Context) (body : List StmtId) (scope : Option StmtId) :
    List StmtId :=
  match context.buildScope body scope #[] with
  | .ok graph _ => graph.deferred
  | .error _ _ => []

/-- The error with which a scope is refused when it is built alone. -/
def refusal? (context : Context) (body : List StmtId) (scope : Option StmtId) :
    Option FlowError :=
  refusalOf? (context.buildScope body scope #[])

/-- The scopes that wait and those met in them, breadth first. -/
inductive BreadthFirst (context : Context) (body : List StmtId) :
    List (Option StmtId) → List (Option StmtId) → Prop where
  | done : BreadthFirst context body [] []
  | next {scope queue order} :
      BreadthFirst context body (queue ++ (context.definitionsIn body scope).map some) order →
      BreadthFirst context body (scope :: queue) (scope :: order)

variable {context : Context} {body ids : List StmtId} {scope : Option StmtId} {root : StmtId}
  {start : Numbering} {log log' : Log} {graph : Graph} {error : FlowError}

theorem decided_build (room : ¬ RanOut (context.build start ids log)) :
    Decided (context.build start ids log) (context.firstFault? ids) := by
  have ending := ends_build context start ids log
  cases run : context.build start ids log with
  | ok graph log' =>
      rw [run] at ending
      rw [ending.1]
      exact ⟨graph, log', rfl⟩
  | error failure log' =>
      rw [run] at ending
      cases failure with
      | flow error =>
          simp only at ending
          rw [ending]
          exact ⟨log', rfl⟩
      | fault fault =>
          obtain ⟨⟨last, rfl⟩, _⟩ := ending
          exact absurd ⟨last, log', run⟩ room

theorem refusal?_eq_firstFault? (reads : context.buildScope body scope = context.build {} ids)
    (room : ¬ RanOut (context.buildScope body scope #[])) :
    context.refusal? body scope = context.firstFault? ids := by
  rw [reads] at room
  apply Option.ext
  intro error
  rw [refusal?, refusalOf?_eq_some, reads]
  exact (decided_build room).error_iff

theorem decided_buildScope
    (kept : ∀ root, scope = some root → ∃ stmt, context.pool.get? root = some stmt)
    (room : ¬ RanOut (context.buildScope body scope #[])) :
    Decided (context.buildScope body scope #[]) (context.refusal? body scope) := by
  obtain ⟨ids, reads⟩ : ∃ ids, context.buildScope body scope = context.build {} ids := by
    cases scope with
    | none => exact ⟨body, rfl⟩
    | some root =>
        obtain ⟨stmt, found⟩ := kept root rfl
        exact ⟨stmt.body, buildDef_eq_build found {}⟩
  rw [refusal?_eq_firstFault? reads room, reads]
  exact decided_build (reads ▸ room)

/-- A scope meets the same definitions at every place in the numbering. -/
theorem definitionsIn_eq (reads : context.buildScope body scope = context.build {} ids)
    (success : context.build start ids log = .ok graph log') :
    context.definitionsIn body scope = graph.deferred := by
  obtain ⟨alone, _, fromZero, rfl⟩ := build_raised success #[]
  rw [definitionsIn, reads, fromZero]
  rfl

theorem exists_build_of_buildScope (success : context.buildScope body scope log = .ok graph log') :
    ∃ ids, context.build {} ids log = .ok graph log' := by
  cases scope with
  | none => exact ⟨body, success⟩
  | some root =>
      obtain ⟨stmt, _, success⟩ := build_of_buildDef success
      exact ⟨stmt.body, success⟩

/-- A definition that was met is there. -/
theorem kept_of_mem_definitionsIn (member : root ∈ context.definitionsIn body scope) :
    ∃ stmt, context.pool.get? root = some stmt := by
  unfold definitionsIn at member
  split at member
  · rename_i graph log success
    obtain ⟨ids, success⟩ := exists_build_of_buildScope success
    obtain ⟨_, _, built⟩ := built_of_build success
    rw [built.deferred_eq, List.mem_filter, decide_eq_true_eq] at member
    obtain ⟨stmt, kept, _⟩ := Option.bind_eq_some_iff.mp member.2
    exact ⟨stmt, kept⟩
  · cases member

theorem BreadthFirst.kept {queue order : List (Option StmtId)}
    (enumerated : context.BreadthFirst body queue order)
    (waiting : ∀ root, some root ∈ queue → ∃ stmt, context.pool.get? root = some stmt) :
    ∀ root, some root ∈ order → ∃ stmt, context.pool.get? root = some stmt := by
  induction enumerated with
  | done => exact waiting
  | next _ ih =>
      intro root member
      rcases List.mem_cons.mp member with first | later
      · exact waiting root (first ▸ List.mem_cons_self)
      · refine ih (fun root member => ?_) root later
        rcases List.mem_append.mp member with queued | met
        · exact waiting root (List.mem_cons_of_mem _ queued)
        · obtain ⟨_, met, ⟨⟩⟩ := List.mem_map.mp met
          exact kept_of_mem_definitionsIn met

/-- A build that comes to a scope first fails with it, or is decided by the other scopes. -/
theorem decided_cons {α : Type} {result : EStateM.Result Failure Log α}
    {order : List (Option StmtId)}
    (reads : context.buildScope body scope = context.build {} ids)
    (alone : ¬ RanOut (context.buildScope body scope #[])) (room : ¬ RanOut result)
    (failed : ∀ failure log', context.build start ids log = .error failure log' →
      result = .error failure log')
    (goesOn : ∀ graph log', context.build start ids log = .ok graph log' →
      Decided result (order.findSome? (context.refusal? body))) :
    Decided result ((scope :: order).findSome? (context.refusal? body)) := by
  have decided : Decided (context.build start ids log) (context.firstFault? ids) := by
    apply decided_build
    rintro ⟨last, log', ran⟩
    exact room ⟨last, log', failed _ _ ran⟩
  rw [List.findSome?_cons, refusal?_eq_firstFault? reads alone]
  cases fault : context.firstFault? ids with
  | some error =>
      rw [fault] at decided
      obtain ⟨log', refused⟩ := decided
      exact ⟨log', failed _ _ refused⟩
  | none =>
      rw [fault] at decided
      obtain ⟨graph, log', success⟩ := decided
      exact goesOn graph log' success

section Waiting

variable {scopes : Array Scope} {waiting : Waiting} {queue : List Waiting} {stmt : Stmt}

theorem buildWaiting_of_error {failure : Failure}
    (kept : context.pool.get? waiting.root = some stmt)
    (failed : context.build start stmt.body (log.push (.definitionBegun stmt.kind stmt.line)) =
      .error failure log') :
    context.buildWaiting start scopes (waiting :: queue) log = .error failure log' := by
  rw [buildWaiting, kept]
  simp only
  split <;> simp_all

theorem buildWaiting_of_ok (kept : context.pool.get? waiting.root = some stmt)
    (success : context.build start stmt.body (log.push (.definitionBegun stmt.kind stmt.line)) =
      .ok graph log') :
    context.buildWaiting start scopes (waiting :: queue) log =
      context.buildWaiting graph.numbering
        (scopes.push ⟨some waiting.root, stmt.name, some waiting.parent, graph⟩)
        (queue ++ graph.waiting scopes.size) log' := by
  rw [buildWaiting, kept]
  simp only
  split <;> simp_all

end Waiting

/-- What waits is decided by the scopes to come, one after the other. -/
theorem BreadthFirst.decided_buildWaiting {queue order : List (Option StmtId)}
    {waiting : List Waiting} {scopes : Array Scope}
    (enumerated : context.BreadthFirst body queue order)
    (waits : waiting.map (fun waiting => some waiting.root) = queue)
    (kept : ∀ root, some root ∈ order → ∃ stmt, context.pool.get? root = some stmt)
    (alone : ∀ scope ∈ order, ¬ RanOut (context.buildScope body scope #[]))
    (room : ¬ RanOut (context.buildWaiting start scopes waiting log)) :
    Decided (context.buildWaiting start scopes waiting log)
      (order.findSome? (context.refusal? body)) := by
  induction enumerated generalizing start scopes waiting log with
  | done =>
      obtain rfl := List.map_eq_nil_iff.mp waits
      rw [buildWaiting]
      exact ⟨scopes, log, rfl⟩
  | @next scope queue order _ ih =>
      obtain ⟨first, waiting, rfl, rfl, rfl⟩ := List.map_eq_cons_iff.mp waits
      obtain ⟨stmt, found⟩ := kept first.root List.mem_cons_self
      have reads : context.buildScope body (some first.root) = context.build {} stmt.body :=
        buildDef_eq_build found {}
      refine decided_cons reads (alone _ List.mem_cons_self) room
        (fun _ _ => buildWaiting_of_error found) fun graph log' success => ?_
      rw [buildWaiting_of_ok found success] at room ⊢
      refine ih ?_ (fun root later => kept root (List.mem_cons_of_mem _ later))
        (fun scope later => alone scope (List.mem_cons_of_mem _ later)) room
      rw [definitionsIn_eq reads success]
      simp [Graph.waiting]

/-- The build of a module is decided by its scopes, breadth first. -/
theorem decided_buildModule {order : List (Option StmtId)}
    (enumerated : context.BreadthFirst body [none] order)
    (alone : ∀ scope ∈ order, ¬ RanOut (context.buildScope body scope #[]))
    (room : ¬ RanOut (context.buildModule body log)) :
    Decided (context.buildModule body log) (order.findSome? (context.refusal? body)) := by
  have kept := enumerated.kept (by simp)
  cases enumerated with
  | @next _ _ order enumerated =>
      have begun : BuildM.record .moduleBegun log = .ok () (log.push .moduleBegun) := rfl
      rw [buildModule, BuildM.bind_of_ok begun] at room ⊢
      refine decided_cons rfl (alone _ List.mem_cons_self) room
        (fun _ _ => BuildM.bind_of_error) fun top mid success => ?_
      rw [BuildM.bind_of_ok success] at room ⊢
      rw [definitionsIn_eq rfl success] at enumerated
      refine .bind_pure (enumerated.decided_buildWaiting ?_ ?_ ?_ fun ran => room (ran.bind _)) _
      · simp [Graph.waiting]
      · exact fun root later => kept root (List.mem_cons_of_mem _ later)
      · exact fun scope later => alone scope (List.mem_cons_of_mem _ later)

theorem firstFault?_append (context : Context) (before behind : List StmtId) :
    context.firstFault? (before ++ behind) =
      (context.firstFault? before).or (context.firstFault? behind) := by
  simp only [firstFault?, visits, visitsIn, List.flatMap_append, List.findSome?_append]

/-- A definition is read as a body of its own: its statements are visited at depth zero and
    outside of loops, and the first fault among them decides. A break among them is one
    outside of loops. -/
structure Isolated (context : Context) (root : StmtId) (stmt : Stmt) : Prop where
  kept : context.pool.get? root = some stmt
  refused_iff : ∀ error, (∃ log, context.buildDef {} root #[] = .error (.flow error) log) ↔
    context.firstFault? stmt.body = some error
  outermost : ∀ id ∈ stmt.body, ⟨id, 0, false⟩ ∈ context.visits stmt.body
  breaks : ∀ before id behind inner, stmt.body = before ++ id :: behind →
    context.Treats id inner .breaks → ∃ log, context.buildDef {} root #[] = .error (.flow
      ((context.firstFault? before).getD (.breakOutsideLoop id inner.line))) log

theorem mem_visits {id : StmtId} (member : id ∈ ids) : ⟨id, 0, false⟩ ∈ context.visits ids := by
  refine List.mem_flatMap.mpr ⟨id, member, ?_⟩
  unfold visitsOf
  simp

theorem isolated_of_kept {stmt : Stmt} (kept : context.pool.get? root = some stmt)
    (room : ¬ RanOut (context.buildDef {} root #[])) : context.Isolated root stmt := by
  have refused_iff : ∀ error, (∃ log, context.buildDef {} root #[] = .error (.flow error) log) ↔
      context.firstFault? stmt.body = some error := by
    rw [buildDef_eq_build kept] at room ⊢
    exact fun error => (decided_build room).error_iff
  refine ⟨kept, refused_iff, fun _ => mem_visits, ?_⟩
  intro before id behind inner body_eq treats
  have own : context.faultOf? (context.maxDepth + 1) false id =
      some (.breakOutsideLoop id inner.line) := by
    rw [faultOf?_succ treats.kept, treats.treated]
    rfl
  have onward : context.firstFault? (id :: behind) = some (.breakOutsideLoop id inner.line) := by
    refine (faultIn?_cons ..).trans ?_
    rw [own]
    rfl
  rw [refused_iff, body_eq, firstFault?_append, onward, Option.or_some]

/-- The build of a module fails with the error of the first scope, breadth first, that fails
    when it is built alone, and gives graphs when there is no such scope. Definitions are read
    as bodies of their own, wherever they stand, and are there when their turn comes. -/
theorem module_fails_with_first_scope {order : List (Option StmtId)}
    (enumerated : context.BreadthFirst body [none] order)
    (alone : ∀ scope ∈ order, ¬ RanOut (context.buildScope body scope #[]))
    (room : ¬ RanOut (context.buildModule body log)) :
    (∀ error, (∃ log', context.buildModule body log = .error (.flow error) log') ↔
      ∃ before scope behind, order = before ++ scope :: behind ∧
        (∀ earlier ∈ before, ∃ graph log', context.buildScope body earlier #[] = .ok graph log') ∧
        ∃ log', context.buildScope body scope #[] = .error (.flow error) log') ∧
    ((∃ graphs log', context.buildModule body log = .ok graphs log') ↔
      ∀ scope ∈ order, ∃ graph log', context.buildScope body scope #[] = .ok graph log') ∧
    ∀ root, some root ∈ order → ∃ stmt, context.Isolated root stmt := by
  have decided := decided_buildModule enumerated alone room
  have kept := enumerated.kept (by simp)
  have accepted_iff : ∀ scope ∈ order, context.refusal? body scope = none ↔
      ∃ graph log', context.buildScope body scope #[] = .ok graph log' := by
    intro scope member
    have known : ∀ root, scope = some root → ∃ stmt, context.pool.get? root = some stmt :=
      fun root same => kept root (same ▸ member)
    exact (decided_buildScope known (alone scope member)).ok_iff.symm
  refine ⟨fun error => ?_, ?_, ?_⟩
  · rw [decided.error_iff, List.findSome?_eq_some_iff]
    refine exists_congr fun before => exists_congr fun scope => exists_congr fun behind =>
      and_congr_right fun order_eq => ?_
    have earlier_iff := fun earlier (member : earlier ∈ before) =>
      accepted_iff earlier (order_eq ▸ List.mem_append_left _ member)
    rw [and_comm]
    exact and_congr (forall₂_congr earlier_iff) refusalOf?_eq_some
  · rw [decided.ok_iff, List.findSome?_eq_none_iff]
    exact forall₂_congr accepted_iff
  · intro root member
    obtain ⟨stmt, found⟩ := kept root member
    exact ⟨stmt, isolated_of_kept found (alone (some root) member)⟩

/-- A function in a loop, with a loop of its own that it may leave and a jump out of no loop
    behind it. The function after the loop jumps as well, but its turn does not come. -/
def jumpingFunctions : Context where
  pool := { slots := #[⟨0, none⟩, ⟨1, some (.whileLoop 1 [⟨2, 1⟩])⟩,
    ⟨1, some (.define .functionDef 0 2 [⟨3, 1⟩, ⟨5, 1⟩])⟩, ⟨1, some (.whileLoop 3 [⟨4, 1⟩])⟩,
    ⟨1, some (.breakAt 4)⟩, ⟨1, some (.breakAt 5)⟩,
    ⟨1, some (.define .functionDef 1 6 [⟨7, 1⟩])⟩, ⟨1, some (.continueAt 7)⟩] }
  dialect := .python3
  maxDepth := 1

theorem module_fails_with_first_scope_jumpingFunctions :
    jumpingFunctions.BreadthFirst [⟨1, 1⟩, ⟨6, 1⟩] [none]
      [none, some ⟨2, 1⟩, some ⟨6, 1⟩] ∧
    (∃ log, jumpingFunctions.buildModule [⟨1, 1⟩, ⟨6, 1⟩] #[] =
      .error (.flow (.breakOutsideLoop ⟨5, 1⟩ 5)) log) ∧
    ∃ stmt, jumpingFunctions.Isolated ⟨2, 1⟩ stmt := by
  have top : jumpingFunctions.definitionsIn [⟨1, 1⟩, ⟨6, 1⟩] none = [⟨2, 1⟩, ⟨6, 1⟩] := by decide
  have first : jumpingFunctions.definitionsIn [⟨1, 1⟩, ⟨6, 1⟩] (some ⟨2, 1⟩) = [] := by decide
  have second : jumpingFunctions.definitionsIn [⟨1, 1⟩, ⟨6, 1⟩] (some ⟨6, 1⟩) = [] := by decide
  have enumerated : jumpingFunctions.BreadthFirst [⟨1, 1⟩, ⟨6, 1⟩] [none]
      [none, some ⟨2, 1⟩, some ⟨6, 1⟩] := by
    refine .next ?_
    rw [top]
    refine .next ?_
    rw [first]
    refine .next ?_
    rw [second]
    exact .done
  have accepted : Decided (jumpingFunctions.buildScope [⟨1, 1⟩, ⟨6, 1⟩] none #[]) none :=
    build_succeeds (by decide) (by decide) #[]
  have firstRefused : Decided (jumpingFunctions.buildScope [⟨1, 1⟩, ⟨6, 1⟩] (some ⟨2, 1⟩) #[])
      (some (.breakOutsideLoop ⟨5, 1⟩ 5)) := refusalOf?_eq_some.mp (by decide)
  have secondRefused : Decided (jumpingFunctions.buildScope [⟨1, 1⟩, ⟨6, 1⟩] (some ⟨6, 1⟩) #[])
      (some (.continueOutsideLoop ⟨7, 1⟩ 7)) := refusalOf?_eq_some.mp (by decide)
  have refused : Decided (jumpingFunctions.buildModule [⟨1, 1⟩, ⟨6, 1⟩] #[])
      (some (.breakOutsideLoop ⟨5, 1⟩ 5)) := refusalOf?_eq_some.mp (by decide +kernel)
  have alone : ∀ scope ∈ [none, some ⟨2, 1⟩, some ⟨6, 1⟩],
      ¬ RanOut (jumpingFunctions.buildScope [⟨1, 1⟩, ⟨6, 1⟩] scope #[]) := by
    simp only [List.forall_mem_cons]
    exact ⟨accepted.not_ranOut, firstRefused.not_ranOut, secondRefused.not_ranOut,
      List.forall_mem_nil _⟩
  obtain ⟨fails_iff, _, isolated⟩ := module_fails_with_first_scope enumerated alone
    refused.not_ranOut
  refine ⟨enumerated, (fails_iff _).mpr ⟨[none], _, _, rfl, ?_, firstRefused⟩, ?_⟩
  · exact List.forall_mem_singleton.mpr accepted
  · exact isolated ⟨2, 1⟩ (by decide)

end Context

end FlowGraph
