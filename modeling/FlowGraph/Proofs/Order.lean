import FlowGraph.Proofs.Legs
import FlowGraph.Proofs.Pieces
import FlowGraph.Proofs.Placing

/-! # Statements and blocks in the order of the walk

The walk of a body comes to every statement of the body and, as far as their rules go
into them, to the statements nested in it. On its way one block after the other becomes
the cursor, and none of them a second time; so the blocks of the graph, in that order,
list the statements of the walk one after the other.
-/

namespace FlowGraph

namespace Context

/-- The blocks that become the cursor while a leg is walked, in the order in which they
    do, the one from which the leg begins included. -/
inductive Traverses (context : Context) : Leg → List BlockId → Prop where
  | done {leg} : leg.ids = [] → Traverses context leg [leg.cursor]
  | stay {leg behind id ids order} : leg.ids = id :: ids → context.rule? id ≠ some .branch →
      context.rule? id ≠ some .loop → context.Leads .onward leg behind →
      behind.cursor = leg.cursor → Traverses context behind order →
      Traverses context leg order
  | leave {leg behind id ids order} : leg.ids = id :: ids → context.rule? id ≠ some .branch →
      context.rule? id ≠ some .loop → context.Leads .onward leg behind →
      behind.cursor ≠ leg.cursor → Traverses context behind order →
      Traverses context leg (leg.cursor :: order)
  | branch {leg inBody inOrelse behind first second order} :
      context.Leads .body leg inBody → context.Leads .orelse leg inOrelse →
      context.Leads .onward leg behind → Traverses context inBody first →
      Traverses context inOrelse second → Traverses context behind order →
      Traverses context leg (leg.cursor :: (first ++ second ++ order))
  | loop {leg inBody behind first order} :
      context.Leads .turn leg inBody → context.Leads .onward leg behind →
      Traverses context inBody first → Traverses context behind order →
      Traverses context leg (leg.cursor :: (first ++ order))

variable {context : Context} {ids : List StmtId} {stmt : Stmt} {log log' : Log}

theorem Leads.rule?_eq {way : Way} {leg leg' : Leg} {id : StmtId}
    (leads : context.Leads way leg leg') (here : leg.ids = id :: ids) :
    (way = .body → context.rule? id = some .branch) ∧
      (way = .turn → context.rule? id = some .loop) := by
  cases leads with
  | onward | orelse => exact ⟨nofun, nofun⟩
  | body treats =>
      cases here
      exact ⟨fun _ => treats.rule?_eq, nofun⟩
  | turn treats =>
      cases here
      exact ⟨nofun, fun _ => treats.rule?_eq⟩

theorem Leads.ids_ne_nil {way : Way} {leg leg' : Leg} (leads : context.Leads way leg leg') :
    leg.ids ≠ [] := by
  cases leads <;> exact List.cons_ne_nil _ _

theorem Traverses.unique {leg : Leg} {order other : List BlockId}
    (traverses : context.Traverses leg order) (traverses' : context.Traverses leg other) :
    order = other := by
  induction traverses generalizing other with
  | done none =>
      cases traverses' with
      | done => rfl
      | stay here | leave here => simp [none] at here
      | branch toBody | loop toBody => exact absurd none toBody.ids_ne_nil
  | stay here notBranch notLoop onward same _ ih =>
      cases traverses' with
      | done none => simp [none] at here
      | stay _ _ _ onward' _ rest =>
          obtain rfl := onward.unique onward'
          exact ih rest
      | leave _ _ _ onward' moved =>
          obtain rfl := onward.unique onward'
          exact absurd same moved
      | branch toBody => exact absurd ((toBody.rule?_eq here).1 rfl) notBranch
      | loop toBody => exact absurd ((toBody.rule?_eq here).2 rfl) notLoop
  | leave here notBranch notLoop onward moved _ ih =>
      cases traverses' with
      | done none => simp [none] at here
      | stay _ _ _ onward' same =>
          obtain rfl := onward.unique onward'
          exact absurd same moved
      | leave _ _ _ onward' _ rest =>
          obtain rfl := onward.unique onward'
          rw [ih rest]
      | branch toBody => exact absurd ((toBody.rule?_eq here).1 rfl) notBranch
      | loop toBody => exact absurd ((toBody.rule?_eq here).2 rfl) notLoop
  | branch toBody toOrelse onward _ _ _ ihBody ihOrelse ih =>
      cases traverses' with
      | done none => exact absurd none toBody.ids_ne_nil
      | stay here notBranch | leave here notBranch =>
          exact absurd ((toBody.rule?_eq here).1 rfl) notBranch
      | branch toBody' toOrelse' onward' first second rest =>
          obtain rfl := toBody.unique toBody'
          obtain rfl := toOrelse.unique toOrelse'
          obtain rfl := onward.unique onward'
          rw [ihBody first, ihOrelse second, ih rest]
      | loop toBody' =>
          obtain ⟨id, ids, here⟩ := List.exists_cons_of_ne_nil toBody.ids_ne_nil
          have ruled := (toBody.rule?_eq here).1 rfl
          rw [(toBody'.rule?_eq here).2 rfl] at ruled
          cases ruled
  | loop toBody onward _ _ ihBody ih =>
      cases traverses' with
      | done none => exact absurd none toBody.ids_ne_nil
      | stay here _ notLoop | leave here _ notLoop =>
          exact absurd ((toBody.rule?_eq here).2 rfl) notLoop
      | branch toBody' =>
          obtain ⟨id, ids, here⟩ := List.exists_cons_of_ne_nil toBody.ids_ne_nil
          have ruled := (toBody.rule?_eq here).2 rfl
          rw [(toBody'.rule?_eq here).1 rfl] at ruled
          cases ruled
      | loop toBody' onward' first rest =>
          obtain rfl := toBody.unique toBody'
          obtain rfl := onward.unique onward'
          rw [ihBody first, ih rest]

theorem traverses_of_stands {inLoop : Bool} {flow : Flow} {leg : Leg} {cursor : BlockId}
    {next : Nat} {frame : Option LoopFrame} {before : List StmtId} {out : List BlockId}
    (reads : context.Reads inLoop ids flow)
    (stands : context.Stands leg ids flow cursor next frame) :
    context.Traverses leg ((flow.pieces before cursor next frame out).map (·.id)) := by
  induction reads generalizing leg cursor next frame before out with
  | done =>
      rw [← stands.cursor_eq]
      exact .done stands.ids_eq
  | plain treats _ ih | deferred treats _ ih =>
      obtain ⟨_, onward, further⟩ := stands.step
      exact .stay stands.ids_eq (by simp [treats.rule?_eq]) (by simp [treats.rule?_eq]) onward
        (further.cursor_eq.trans stands.cursor_eq.symm) (ih further)
  | returns treats _ ih | breaks treats _ ih | continues treats _ ih =>
      obtain ⟨_, onward, further⟩ := stands.jump
      simp only [Flow.pieces, List.map_cons, ← stands.cursor_eq]
      refine .leave stands.ids_eq (by simp [treats.rule?_eq]) (by simp [treats.rule?_eq]) onward
        ?_ (ih further)
      -- the block behind a jump is a new one
      rw [further.cursor_eq, stands.cursor_eq, ne_eq, BlockId.eq_iff]
      exact Nat.ne_of_gt stands.old
  | branch treats _ _ _ ihBody ihOrelse ih =>
      obtain ⟨_, _, _, _, treats', toBody, toOrelse, onward, inBody, inOrelse, further⟩ :=
        stands.branch
      obtain ⟨rfl, _⟩ := treats.unique treats'
      simp only [Flow.pieces, List.map_cons, List.map_append, ← stands.cursor_eq]
      exact .branch toBody toOrelse onward (ihBody inBody) (ihOrelse inOrelse) (ih further)
  | loop treats _ _ ihBody ih =>
      obtain ⟨_, _, _, treats', toBody, onward, inBody, further⟩ := stands.loop
      obtain ⟨rfl, _⟩ := treats.unique treats'
      simp only [Flow.pieces, List.map_cons, List.map_append, ← stands.cursor_eq]
      exact .loop toBody onward (ihBody (stands.cursor_eq.symm ▸ inBody)) (ih further)

/-- A sequence with all that its statements open: each statement comes first, then what
    is nested in it as far as its rule goes into it. -/
inductive Unfolds (context : Context) : List StmtId → List StmtId → Prop where
  | done : Unfolds context [] []
  | leaf {id ids walk} : context.rule? id ≠ some .branch → context.rule? id ≠ some .loop →
      Unfolds context ids walk → Unfolds context (id :: ids) (id :: walk)
  | branch {id stmt ids inBody inOrelse walk} : context.Treats id stmt .branch →
      Unfolds context stmt.body inBody → Unfolds context stmt.orelse inOrelse →
      Unfolds context ids walk → Unfolds context (id :: ids) (id :: (inBody ++ inOrelse ++ walk))
  | loop {id stmt ids inBody walk} : context.Treats id stmt .loop →
      Unfolds context stmt.body inBody → Unfolds context ids walk →
      Unfolds context (id :: ids) (id :: (inBody ++ walk))

theorem Unfolds.unique {walk other : List StmtId} (unfolds : context.Unfolds ids walk)
    (unfolds' : context.Unfolds ids other) : walk = other := by
  induction unfolds generalizing other with
  | done =>
      cases unfolds'
      rfl
  | leaf notBranch notLoop _ ih =>
      cases unfolds' with
      | leaf _ _ rest => rw [ih rest]
      | branch treats => exact absurd treats.rule?_eq notBranch
      | loop treats => exact absurd treats.rule?_eq notLoop
  | branch treats _ _ _ ihBody ihOrelse ih =>
      cases unfolds' with
      | leaf notBranch => exact absurd treats.rule?_eq notBranch
      | branch treats' body orelse rest =>
          obtain ⟨rfl, _⟩ := treats.unique treats'
          rw [ihBody body, ihOrelse orelse, ih rest]
      | loop treats' => cases (treats.unique treats').2
  | loop treats _ _ ihBody ih =>
      cases unfolds' with
      | leaf _ notLoop => exact absurd treats.rule?_eq notLoop
      | branch treats' => cases (treats.unique treats').2
      | loop treats' body rest =>
          obtain ⟨rfl, _⟩ := treats.unique treats'
          rw [ihBody body, ih rest]

/-- A sequence into which the rule of a statement goes. -/
def Opens (context : Context) (around : StmtId) (inner : List StmtId) : Prop :=
  ∃ stmt, context.Treats around stmt .branch ∧ (inner = stmt.body ∨ inner = stmt.orelse) ∨
    context.Treats around stmt .loop ∧ inner = stmt.body

section Unfolds

variable {walk inner : List StmtId} {around : StmtId}

theorem Unfolds.subset (unfolds : context.Unfolds ids walk) : ids ⊆ walk := by
  induction unfolds with
  | done => exact List.Subset.refl []
  | leaf _ _ _ ih => exact List.cons_subset_cons _ ih
  | branch _ _ _ _ _ _ ih =>
      exact List.cons_subset_cons _ (List.subset_append_of_subset_right _ ih)
  | loop _ _ _ _ ih => exact List.cons_subset_cons _ (List.subset_append_of_subset_right _ ih)

theorem Unfolds.opened (unfolds : context.Unfolds ids walk) (member : around ∈ walk)
    (opens : context.Opens around inner) : inner ⊆ walk := by
  induction unfolds with
  | done => cases member
  | leaf notBranch notLoop _ ih =>
      rcases List.mem_cons.mp member with rfl | member
      · obtain ⟨_, ⟨treats, _⟩ | ⟨treats, _⟩⟩ := opens
        · exact absurd treats.rule?_eq notBranch
        · exact absurd treats.rule?_eq notLoop
      · exact List.subset_cons_of_subset _ (ih member)
  | branch treats body orelse _ ihBody ihOrelse ih =>
      apply List.subset_cons_of_subset
      rcases List.mem_cons.mp member with rfl | member
      · obtain ⟨_, ⟨treats', opened⟩ | ⟨treats', _⟩⟩ := opens
        · obtain ⟨rfl, _⟩ := treats.unique treats'
          rcases opened with rfl | rfl
          · exact fun _ found => by simp [body.subset found]
          · exact fun _ found => by simp [orelse.subset found]
        · cases (treats.unique treats').2
      · rw [List.mem_append, List.mem_append] at member
        rcases member with (member | member) | member
        · exact fun _ found => by simp [ihBody member found]
        · exact fun _ found => by simp [ihOrelse member found]
        · exact fun _ found => by simp [ih member found]
  | loop treats body _ ihBody ih =>
      apply List.subset_cons_of_subset
      rcases List.mem_cons.mp member with rfl | member
      · obtain ⟨_, ⟨treats', _⟩ | ⟨treats', rfl⟩⟩ := opens
        · cases (treats.unique treats').2
        · obtain ⟨rfl, _⟩ := treats.unique treats'
          exact fun _ found => by simp [body.subset found]
      · rcases List.mem_append.mp member with member | member
        · exact fun _ found => by simp [ihBody member found]
        · exact fun _ found => by simp [ih member found]

end Unfolds

/-- A branch or a loop without fault has no clauses but those that its rule goes into. -/
theorem opens_of_fault?_eq_none {visit : Visit} {clause : List StmtId}
    (clean : context.fault? visit = none)
    (treats : context.Treats visit.id stmt .branch ∨ context.Treats visit.id stmt .loop)
    (nested : clause ∈ stmt.nestedBlocks) : clause = [] ∨ context.Opens visit.id clause := by
  have plain : stmt.hasClauses = false →
      clause = stmt.body ∨ clause = stmt.orelse ∨ clause = [] := by
    intro none
    simp only [Stmt.hasClauses, Bool.or_eq_false_iff, Bool.not_eq_false', List.isEmpty_iff] at none
    simpa [Stmt.nestedBlocks, none.1, none.2] using nested
  rcases treats with treats | treats <;>
    simp only [fault?, treats.kept, treats.treated] at clean
  · split at clean
    · cases clean
    · have none : stmt.hasClauses = false := by simpa using clean
      rcases plain none with rfl | rfl | rfl
      · exact .inr ⟨stmt, .inl ⟨treats, .inl rfl⟩⟩
      · exact .inr ⟨stmt, .inl ⟨treats, .inr rfl⟩⟩
      · exact .inl rfl
  · split at clean
    · cases clean
    · split at clean
      · cases clean
      · rename_i orelse
        have none : stmt.hasClauses = false := by simpa using clean
        rcases plain none with rfl | rfl | rfl
        · exact .inr ⟨stmt, .inr ⟨treats, rfl⟩⟩
        · exact .inl (by simpa using orelse)
        · exact .inl rfl

section Reads

variable {inLoop : Bool} {flow : Flow}

theorem unfolds_of_reads (reads : context.Reads inLoop ids flow) :
    context.Unfolds ids flow.stmts := by
  induction reads with
  | done => exact .done
  | plain treats _ ih | deferred treats _ ih | returns treats _ ih | breaks treats _ ih
  | continues treats _ ih => exact .leaf (by simp [treats.rule?_eq]) (by simp [treats.rule?_eq]) ih
  | branch treats _ _ _ ihBody ihOrelse ih => exact .branch treats ihBody ihOrelse ih
  | loop treats _ _ ihBody ih => exact .loop treats ihBody ih

/-- The definitions that a flow defers are the statements of it with that rule. -/
theorem deferrals_of_reads (reads : context.Reads inLoop ids flow) (cursor : BlockId) (next : Nat)
    (frame : Option LoopFrame) :
    (flow.script cursor next frame).flatMap Operation.deferrals =
      flow.stmts.filter fun id => context.rule? id = some .deferred := by
  have leave : ∀ (kind : Jump) (cursor : BlockId) (frame : Option LoopFrame),
      (kind.leave cursor frame).flatMap Operation.deferrals = [] := by
    intro kind cursor frame
    cases kind <;> cases frame <;> rfl
  induction reads generalizing cursor next frame with
  | done => rfl
  | plain treats _ ih | deferred treats _ ih =>
      simp [Flow.script, Flow.stmts, Operation.deferrals, treats.rule?_eq, ih]
  | branch treats _ _ _ ihBody ihOrelse ih =>
      simp [Flow.script, Flow.fork, Flow.stmts, Operation.deferrals, treats.rule?_eq, ihBody,
        ihOrelse, ih]
  | loop treats _ _ ihBody ih =>
      simp [Flow.script, Flow.fork, Flow.stmts, Operation.deferrals, treats.rule?_eq, ihBody, ih]
  | returns treats _ ih | breaks treats _ ih | continues treats _ ih =>
      simp [Flow.script, Flow.stmts, Operation.deferrals, treats.rule?_eq, leave, ih]

end Reads

section Order

variable {start : Numbering} {body : List StmtId} {last : BlockId} {graph : Graph}

namespace Built

theorem unfolds (built : context.Built start body last graph) :
    context.Unfolds body (context.visited body) :=
  built.stmts_eq ▸ unfolds_of_reads built.reads

theorem deferred_eq (built : context.Built start body last graph) :
    graph.deferred =
      (context.visited body).filter fun id => context.rule? id = some .deferred := by
  rw [(Graph.history_performAll built.laid).deferred, built.stmts_eq,
    deferrals_of_reads built.reads]
  rfl

theorem statements_order (built : context.Built start body last graph) :
    ((context.pieces start body).map (·.id)).flatMap graph.statements = context.visited body := by
  have listed : (context.pieces start body).map (fun piece => graph.statements piece.id) =
      (context.pieces start body).map (·.statements) :=
    List.map_congr_left fun piece member => (built.shows piece member).statements_eq
  rw [built.stmts_eq, List.flatMap_map, List.flatMap_def, listed, ← List.flatMap_def, pieces,
    Flow.statements_pieces, List.nil_append]

theorem statements_infix (built : context.Built start body last graph) (id : BlockId) :
    graph.statements id <:+: context.visited body := by
  cases known : graph.contains id with
  | false =>
      rw [Graph.statements, Graph.block?_eq_none known]
      exact List.nil_infix
  | true =>
      have listed : id ∈ (context.pieces start body).map (·.id) :=
        Flow.mem_pieces_iff.mpr (built.contains_iff_region.mp known)
      rw [← built.statements_order, List.flatMap_def]
      exact List.infix_of_mem_flatten (List.mem_map_of_mem listed)

end Built

/-- The blocks of a built graph, in the order in which they became the cursor, list the
    walk of the body: nothing is lost, repeated or moved. What the graph defers are the
    definitions of the walk, and a branch or loop has no nested statement outside it. -/
theorem blocks_list_walk (success : context.build start body log = .ok graph log') :
    ∃ (walk : List StmtId) (order : List BlockId),
      (∀ other, context.Unfolds body other ↔ other = walk) ∧
      (∀ other, context.Traverses (context.firstLeg start body log) other ↔ other = order) ∧
      order.Perm graph.ids ∧ order.Nodup ∧ order.flatMap graph.statements = walk ∧
      (∀ id, graph.statements id <:+: walk) ∧
      graph.deferred = walk.filter (fun id => context.rule? id = some .deferred) ∧
      ∀ block, ∀ around ∈ graph.statements block, ∀ stmt,
        context.Treats around stmt .branch ∨ context.Treats around stmt .loop →
        ∀ clause ∈ stmt.nestedBlocks, clause ⊆ walk := by
  obtain ⟨last, _, built⟩ := built_of_build success
  have traverses : context.Traverses (context.firstLeg start body log)
      ((context.pieces start body).map (·.id)) :=
    traverses_of_stands built.reads (stands_firstLeg success)
  refine ⟨context.visited body, (context.pieces start body).map (·.id), ?_, ?_, built.perm_ids,
    Flow.nodup_pieces (Nat.lt_succ_self _), built.statements_order, built.statements_infix,
    built.deferred_eq, ?_⟩
  · intro other
    constructor
    · exact fun unfolds => unfolds.unique built.unfolds
    · rintro rfl
      exact built.unfolds
  · intro other
    constructor
    · exact fun traverses' => traverses'.unique traverses
    · rintro rfl
      exact traverses
  · intro block around listed stmt treats clause nested
    have member : around ∈ context.visited body := (built.statements_infix block).subset listed
    obtain ⟨visit, visited, rfl⟩ := List.mem_map.mp member
    have clean := List.findSome?_eq_none_iff.mp built.clean visit visited
    rcases opens_of_fault?_eq_none clean treats nested with rfl | opens
    · exact List.nil_subset _
    · exact built.unfolds.opened member opens

/-- Two arms that hold one and the same definition, and a statement that stands in one of
    them and behind the branch. -/
def sharedArms : Context where
  pool := { slots := #[⟨0, none⟩, ⟨1, some (.ifElse 1 [⟨3, 1⟩, ⟨2, 1⟩] [⟨3, 1⟩])⟩,
    ⟨1, some (.simple .pass 2)⟩, ⟨1, some (.define .functionDef 0 3 [])⟩] }
  dialect := .python27
  maxDepth := 1

theorem blocks_list_walk_sharedArms :
    ∃ (graph : Graph) (log : Log) (order : List BlockId),
      sharedArms.build {} [⟨1, 1⟩, ⟨2, 1⟩] #[] = .ok graph log ∧
      order.Perm graph.ids ∧ order.Nodup ∧
      order.flatMap graph.statements = [⟨1, 1⟩, ⟨3, 1⟩, ⟨2, 1⟩, ⟨3, 1⟩, ⟨2, 1⟩] ∧
      sharedArms.Traverses (sharedArms.firstLeg {} [⟨1, 1⟩, ⟨2, 1⟩] #[]) order ∧
      graph.deferred = [⟨3, 1⟩, ⟨3, 1⟩] := by
  have success : ∃ graph log, sharedArms.build {} [⟨1, 1⟩, ⟨2, 1⟩] #[] = .ok graph log :=
    build_succeeds (by decide) (by decide) #[]
  obtain ⟨graph, log, success⟩ := success
  obtain ⟨walk, order, unfolds, traverses, perm, nodup, listed, _, deferred, _⟩ :=
    blocks_list_walk success
  have plain : ∀ id ∈ [(⟨2, 1⟩ : StmtId), ⟨3, 1⟩],
      sharedArms.rule? id ≠ some .branch ∧ sharedArms.rule? id ≠ some .loop := by decide
  have pass := plain ⟨2, 1⟩ (by decide)
  have define := plain ⟨3, 1⟩ (by decide)
  have treats : sharedArms.Treats ⟨1, 1⟩ (.ifElse 1 [⟨3, 1⟩, ⟨2, 1⟩] [⟨3, 1⟩]) .branch :=
    ⟨rfl, rfl⟩
  have inBody : sharedArms.Unfolds [⟨3, 1⟩, ⟨2, 1⟩] [⟨3, 1⟩, ⟨2, 1⟩] :=
    .leaf define.1 define.2 (.leaf pass.1 pass.2 .done)
  have inOrelse : sharedArms.Unfolds [⟨3, 1⟩] [⟨3, 1⟩] := .leaf define.1 define.2 .done
  have behind : sharedArms.Unfolds [⟨2, 1⟩] [⟨2, 1⟩] := .leaf pass.1 pass.2 .done
  obtain rfl := (unfolds _).mp (.branch treats inBody inOrelse behind)
  exact ⟨graph, log, order, success, perm, nodup, listed, (traverses order).mpr rfl,
    deferred.trans (by decide)⟩

end Order

end Context

end FlowGraph
