import FlowGraph.Proofs.Ending

/-! # A walk lays out the flow of its sequence

From a ready cursor a walk is refused with the first fault on its way, and otherwise
performs the script of its flow and ends, ready again, in the block where the flow
ends. The only other ending is the want of block ids.
-/

namespace FlowGraph

def WalkState.inLoop (state : WalkState) : Bool := !state.loops.isEmpty

/-- A flow was laid out from the cursor on, and the walk of it ended in the given block. -/
structure WalkState.Laid (start : WalkState) (flow : Flow) (cursor last : BlockId)
    (state : WalkState) : Prop where
  after : start.After (flow.script cursor start.graph.next start.loops.head?) state
  last_eq : last = flow.finish cursor start.graph.next

namespace WalkState.Laid

variable {start mid state : WalkState} {flow more : Flow} {cursor middle last : BlockId}

theorem next (laid : start.Laid flow cursor last state) :
    state.graph.next = start.graph.next + flow.width := by
  rw [laid.after.history.next, Flow.countP_isCreate_script]

theorem ready (laid : start.Laid flow cursor last state) (ready : start.Ready cursor) :
    state.Ready last :=
  laid.last_eq ▸ ready.finish laid.after

theorem trans (first : start.Laid flow cursor middle mid)
    (second : mid.Laid more middle last state) :
    start.Laid (flow.append more) cursor last state := by
  constructor
  · have rest := second.after
    rw [first.after.loops, first.next, first.last_eq] at rest
    rw [Flow.script_append]
    exact first.after.trans rest
  · rw [Flow.finish_append, second.last_eq, first.next, first.last_eq]

end WalkState.Laid

section Fork

variable {start mid state : WalkState} {cursor : BlockId} {id : StmtId}

/-- Both blocks that a fork opens are ready. -/
theorem WalkState.Ready.fork (ready : start.Ready cursor)
    (forked : start.After (Flow.fork cursor id start.graph.next) state) {number : Nat}
    (new : number = start.graph.next ∨ number = start.graph.next + 1) :
    state.Ready ⟨number⟩ := by
  have next : state.graph.next = start.graph.next + 2 := forked.history.next
  exact ready.new forked (by omega) (by omega)
    fun _ member => Flow.closes_ne_of_mem_fork member (ready.ne_new (by omega))

/-- The first block that a fork opens is ready inside the loop of the fork. -/
theorem WalkState.Ready.enter (ready : start.Ready cursor)
    (forked : start.After (Flow.fork cursor id start.graph.next) state) :
    WalkState.Ready ⟨state.graph, ⟨cursor, ⟨start.graph.next + 1⟩⟩ :: state.loops⟩
      ⟨start.graph.next⟩ := by
  have entry := ready.fork forked (.inl rfl)
  have exit := ready.fork forked (.inr rfl)
  have header := forked.history.contains ready.known
  exact { entry with frames := List.forall_mem_cons.mpr ⟨⟨header, exit.known⟩, entry.frames⟩ }

/-- The second block that a fork opens is still ready when a flow was laid out from the
    first one on. -/
theorem WalkState.Ready.fork_second {flow : Flow} {frame : Option LoopFrame}
    (ready : start.Ready cursor)
    (forked : start.After (Flow.fork cursor id start.graph.next) mid)
    (laid : mid.After (flow.script ⟨start.graph.next⟩ (start.graph.next + 2) frame) state) :
    state.Ready ⟨start.graph.next + 1⟩ := by
  have next : mid.graph.next = start.graph.next + 2 := forked.history.next
  have next' := laid.history.next
  refine ready.new (forked.trans laid) (by omega) (by omega) fun operation member => ?_
  rcases List.mem_append.mp member with member | member
  · exact Flow.closes_ne_of_mem_fork member (ready.ne_new (by omega))
  · refine Flow.closes_ne_of_not_region (fun inside => ?_) member
    have := inside.index
    simp only at this
    omega

end Fork

namespace Context

open WalkM

variable {context : Context} {start state : WalkState} {operations : List Operation}
  {cursor : BlockId} {id : StmtId} {stmt : Stmt} {bound : Nat} {refused : FlowError → Prop}

theorem ends_afterJump {jump : Jump} (numbered : start.graph.Numbered)
    (after : start.After operations state)
    (room : state.graph.next + 1 ≤ bound) :
    (afterJump jump cursor).Ends state bound
      (fun next state' => next = ⟨state.graph.next⟩ ∧ start.After (operations ++ [.create]) state')
      refused :=
  ends_bind (ends_createNext numbered after room) fun _ _ made => ends_record_bind (ends_pure made)

theorem ends_walkPlain (ready : start.Ready cursor) :
    (walkPlain cursor id).Ends start bound (start.Laid (.step id false .done) cursor) refused :=
  ends_bind (ends_append (.refl start) ready.known ready.running) fun _ _ after =>
    ends_pure ⟨after, rfl⟩

theorem ends_walkDefinition (ready : start.Ready cursor) :
    (walkDefinition cursor id stmt).Ends start bound (start.Laid (.step id true .done) cursor)
      refused :=
  ends_bind (ends_append (.refl start) ready.known ready.running) fun _ _ after =>
    ends_bind (ends_defer after) fun _ _ after => ends_record_bind (ends_pure ⟨after, rfl⟩)

theorem ends_walkReturn (ready : start.Ready cursor) (room : start.graph.next + 1 ≤ bound) :
    (walkReturn cursor id).Ends start bound (start.Laid (.jump .returns id .done) cursor)
      refused := by
  refine ends_bind (ends_append (.refl start) ready.known ready.running) fun _ _ appended => ?_
  refine ends_bind (ends_markTerminal appended (appended.history.contains ready.known))
    fun _ state marked => ?_
  have next : state.graph.next = start.graph.next := marked.history.next
  refine ends_done (ends_afterJump ready.sound.numbered marked (by omega)) ?_
  rintro _ _ ⟨rfl, after⟩
  exact ⟨after, by rw [next]; rfl⟩

theorem ends_jumpTo {kind : Jump} {frame : LoopFrame} {target : BlockId}
    (ready : start.Ready cursor) (room : start.graph.next + 1 ≤ bound)
    (inner : start.loops.head? = some frame)
    (leave : kind.leave cursor (some frame) = [.link cursor target])
    (known : start.graph.contains target = true) :
    (do
      WalkM.append cursor id
      WalkM.link cursor target
      afterJump kind cursor : WalkM BlockId).Ends start bound
        (start.Laid (.jump kind id .done) cursor) refused := by
  refine ends_bind (ends_append (.refl start) ready.known ready.running) fun _ mid appended => ?_
  have unlinked : mid.graph.successors cursor = [] := by
    rw [appended.history.successors, ready.unlinked]
    rfl
  refine ends_bind (ends_link appended (appended.history.contains ready.known)
    (appended.history.contains known) (by simp [unlinked])) fun _ state linked => ?_
  have next : state.graph.next = start.graph.next := linked.history.next
  refine ends_done (ends_afterJump ready.sound.numbered linked (by omega)) ?_
  rintro _ _ ⟨rfl, after⟩
  refine ⟨?_, by rw [next]; rfl⟩
  rw [inner]
  change start.After (.append cursor id :: kind.leave cursor (some frame) ++ [.create]) _
  rw [leave]
  exact after

theorem ends_walkBreak (ready : start.Ready cursor) (room : start.graph.next + 1 ≤ bound)
    (outside : start.inLoop = false → refused (.breakOutsideLoop id stmt.line)) :
    (walkBreak cursor id stmt).Ends start bound
      (fun last state =>
        start.inLoop = true ∧ start.Laid (.jump .breaks id .done) cursor last state)
      refused := by
  apply ends_innermost_bind
  cases inner : start.loops with
  | nil => exact ends_refuse (outside (by simp [WalkState.inLoop, inner]))
  | cons frame loops =>
      have known := ready.frames frame (by simp [inner])
      have inside : start.inLoop = true := by simp [WalkState.inLoop, inner]
      exact ends_done (ends_jumpTo ready room (by rw [inner]; rfl) rfl known.2)
        fun _ _ laid => ⟨inside, laid⟩

theorem ends_walkContinue (ready : start.Ready cursor) (room : start.graph.next + 1 ≤ bound)
    (outside : start.inLoop = false → refused (.continueOutsideLoop id stmt.line)) :
    (walkContinue cursor id stmt).Ends start bound
      (fun last state =>
        start.inLoop = true ∧ start.Laid (.jump .continues id .done) cursor last state)
      refused := by
  apply ends_innermost_bind
  cases inner : start.loops with
  | nil => exact ends_refuse (outside (by simp [WalkState.inLoop, inner]))
  | cons frame loops =>
      have known := ready.frames frame (by simp [inner])
      have inside : start.inLoop = true := by simp [WalkState.inLoop, inner]
      exact ends_done (ends_jumpTo ready room (by rw [inner]; rfl) rfl known.1)
        fun _ _ laid => ⟨inside, laid⟩

/-- The cursor becomes a block with two new successors. -/
theorem ends_fork {α : Type} {event : BlockId → BlockId → Event}
    {next : BlockId → BlockId → WalkM α} {done : α → WalkState → Prop} (ready : start.Ready cursor)
    (room : start.graph.next + 2 ≤ bound)
    (h : ∀ state, start.After (Flow.fork cursor id start.graph.next) state →
      (next ⟨start.graph.next⟩ ⟨start.graph.next + 1⟩).Ends state bound done refused) :
    (do
      WalkM.append cursor id
      let first ← WalkM.create
      let second ← WalkM.create
      WalkM.record (event first second)
      WalkM.link cursor first
      WalkM.link cursor second
      next first second : WalkM α).Ends start bound done refused := by
  have bounds := Graph.contains_iff.mp ready.known
  refine ends_bind (ends_append (.refl start) ready.known ready.running) fun _ s₁ appended => ?_
  have next₁ : s₁.graph.next = start.graph.next := appended.history.next
  refine ends_bind (ends_createNext ready.sound.numbered appended (by omega)) ?_
  rintro first s₂ ⟨rfl, created⟩
  have next₂ : s₂.graph.next = start.graph.next + 1 := created.history.next
  refine ends_bind (ends_createNext ready.sound.numbered created (by omega)) ?_
  rintro second s₃ ⟨rfl, created'⟩
  rw [next₁, next₂]
  apply ends_record_bind
  refine ends_bind (ends_link created' (created'.history.contains ready.known)
    (created'.history.contains_iff.mpr ⟨by simp only; omega, ?_⟩) ?_) fun _ s₄ linked => ?_
  · change start.graph.next < start.graph.next + 2
    omega
  · rw [created'.history.successors, ready.unlinked]
    simp [Operation.targets]
  refine ends_bind (ends_link linked (linked.history.contains ready.known) ?_ ?_)
    fun _ state linked' => h state linked'
  · refine linked.history.contains_iff.mpr ⟨by simp only; omega, ?_⟩
    change start.graph.next + 1 < start.graph.next + 2
    omega
  · rw [linked.history.successors, ready.unlinked]
    simp [Operation.targets]

theorem ends_join {left right : BlockId} (numbered : state.graph.Numbered)
    (after : start.After operations state)
    (room : state.graph.next + 1 ≤ bound) (apart : left ≠ right)
    (knownLeft : state.graph.contains left = true) (unlinkedLeft : state.graph.successors left = [])
    (knownRight : state.graph.contains right = true)
    (unlinkedRight : state.graph.successors right = []) :
    (do
      let join ← WalkM.create
      WalkM.record (.joined join)
      WalkM.link left join
      WalkM.link right join
      return join : WalkM BlockId).Ends state bound
        (fun join state' => join = ⟨state.graph.next⟩ ∧
          start.After (operations ++ [.create, .link left ⟨state.graph.next⟩,
            .link right ⟨state.graph.next⟩]) state')
        refused := by
  have bounds := Graph.contains_iff.mp knownLeft
  refine ends_bind (ends_createNext numbered (.refl state) room) ?_
  rintro _ s₁ ⟨rfl, created⟩
  have knownJoin : s₁.graph.contains ⟨state.graph.next⟩ = true :=
    created.history.contains_iff.mpr ⟨by simp only; omega, Nat.lt_succ_self _⟩
  apply ends_record_bind
  refine ends_bind (ends_link created (created.history.contains knownLeft) knownJoin ?_)
    fun _ s₂ linked => ?_
  · rw [created.history.successors, unlinkedLeft]
    simp [Operation.targets]
  refine ends_bind (ends_link linked (linked.history.contains knownRight)
    (linked.history.contains_iff.mpr (created.history.contains_iff.mp knownJoin)) ?_)
    fun _ s₃ linked' => ends_pure ⟨rfl, after.trans linked'⟩
  rw [linked.history.successors, unlinkedRight]
  simp [Operation.targets, apart]

/-- An open block gets the header and the end of a loop as its successors. -/
theorem ends_loopBack {last header exit : BlockId} (after : start.After operations state)
    (apart : header ≠ exit) (knownLast : state.graph.contains last = true)
    (unlinked : state.graph.successors last = [])
    (knownHeader : state.graph.contains header = true)
    (knownExit : state.graph.contains exit = true) :
    (do
      WalkM.link last header
      WalkM.link last exit
      return exit : WalkM BlockId).Ends state bound
        (fun id state' => id = exit ∧
          start.After (operations ++ [.link last header, .link last exit]) state')
        refused := by
  refine ends_bind (ends_link (.refl state) knownLast knownHeader (by simp [unlinked]))
    fun _ s₁ back => ?_
  refine ends_bind (ends_link back (back.history.contains knownLast)
    (back.history.contains knownExit) ?_) fun _ s₂ out => ends_pure ⟨rfl, after.trans out⟩
  rw [back.history.successors, unlinked]
  simp [Operation.targets, apart.symm]

/-- A walk of sequences that ends as the flow and the faults of a sequence say. -/
def WalksSeq (context : Context) (levels : Nat) (walk : BlockId → List StmtId → WalkM BlockId) :
    Prop :=
  ∀ ⦃state entry ids bound⦄, state.Ready entry →
    state.graph.next + (context.flow levels ids).width ≤ bound →
    (walk entry ids).Ends state bound
      (fun last after => context.faultIn? levels state.inLoop ids = none ∧
        state.Laid (context.flow levels ids) entry last after)
      (fun error => context.faultIn? levels state.inLoop ids = some error)

def EndsStmt (context : Context) (levels : Nat) (walk : WalkM BlockId) (start : WalkState)
    (cursor : BlockId) (id : StmtId) (bound : Nat) : Prop :=
  walk.Ends start bound
    (fun last after => context.faultOf? levels start.inLoop id = none ∧
      start.Laid (context.flowStmt levels id) cursor last after)
    (fun error => context.faultOf? levels start.inLoop id = some error)

theorem inLoop_of_after (after : start.After operations state) : state.inLoop = start.inLoop := by
  rw [WalkState.inLoop, after.loops, WalkState.inLoop]

theorem ends_walkBranch {levels : Nat} {walk : BlockId → List StmtId → WalkM BlockId}
    (walks : context.WalksSeq levels walk) (treats : context.Treats id stmt .branch)
    (ready : start.Ready cursor)
    (room : start.graph.next + (context.flowStmt (levels + 1) id).width ≤ bound) :
    context.EndsStmt (levels + 1) (context.walkBranch walk cursor id stmt) start cursor id
      bound := by
  simp only [EndsStmt, flowStmt_succ treats.kept, faultOf?_succ treats.kept, treats.treated]
  simp only [flowStmt_succ treats.kept, treats.treated, Flow.width] at room
  unfold walkBranch
  split
  · exact ends_refuse rfl
  · refine ends_fork ready (by omega) fun s₁ forked => ?_
    have next₁ : s₁.graph.next = start.graph.next + 2 := forked.history.next
    have ready₁ := ready.fork forked (.inl rfl)
    have walkBody := @walks s₁ ⟨start.graph.next⟩ stmt.body bound ready₁ (by omega)
    rw [inLoop_of_after forked] at walkBody
    refine ends_bind (ends_refused walkBody fun error found => by rw [found]; rfl) ?_
    rintro bodyExit s₂ ⟨bodyClean, bodyLaid⟩
    have next₂ : s₂.graph.next = start.graph.next + 2 + (context.flow levels stmt.body).width := by
      rw [bodyLaid.next, next₁]
    have body := bodyLaid.after
    rw [next₁, forked.loops] at body
    have ready₂ := ready.fork_second forked body
    have walkOrelse := @walks s₂ ⟨start.graph.next + 1⟩ stmt.orelse bound ready₂ (by omega)
    rw [inLoop_of_after (forked.trans body)] at walkOrelse
    refine ends_bind (ends_refused walkOrelse fun error found => by rw [found, bodyClean]; rfl) ?_
    rintro orelseExit s₃ ⟨orelseClean, orelseLaid⟩
    have next₃ := orelseLaid.next
    have orelse := orelseLaid.after
    rw [next₂, body.loops, forked.loops] at orelse
    have bodyReady := bodyLaid.ready ready₁
    have orelseReady := orelseLaid.ready ready₂
    -- the arms have their blocks to themselves
    have bodyInside := (Flow.region_finish (context.flow levels stmt.body) ⟨start.graph.next⟩
      (start.graph.next + 2)).index
    have outside : ¬ (context.flow levels stmt.orelse).Region ⟨start.graph.next + 1⟩
        (start.graph.next + 2 + (context.flow levels stmt.body).width) bodyExit := by
      intro inside
      have := inside.index
      rw [bodyLaid.last_eq, next₁] at this
      simp only at this bodyInside
      omega
    have apart : bodyExit ≠ orelseExit := by
      rintro rfl
      apply outside
      rw [orelseLaid.last_eq, next₂]
      exact Flow.region_finish ..
    have bodyUnlinked : s₃.graph.successors bodyExit = [] := by
      rw [orelse.history.successors, bodyReady.unlinked,
        Operation.targets_eq_nil fun _ => Flow.closes_ne_of_not_region outside]
      rfl
    refine ends_done (ends_join orelseReady.sound.numbered ((forked.trans body).trans orelse)
      (by omega) apart (orelse.history.contains bodyReady.known) bodyUnlinked orelseReady.known
      orelseReady.unlinked) ?_
    rintro _ state ⟨rfl, after⟩
    have bodyExit_eq := bodyLaid.last_eq
    have orelseExit_eq := orelseLaid.last_eq
    rw [next₁] at bodyExit_eq
    rw [next₂] at orelseExit_eq next₃
    rw [next₃, bodyExit_eq, orelseExit_eq] at after
    refine ⟨by rw [bodyClean, orelseClean]; rfl, ?_, by rw [next₃]; rfl⟩
    simpa only [Flow.script, List.append_nil] using after

theorem ends_walkLoop {levels : Nat} {walk : BlockId → List StmtId → WalkM BlockId}
    (walks : context.WalksSeq levels walk) (treats : context.Treats id stmt .loop)
    (ready : start.Ready cursor)
    (room : start.graph.next + (context.flowStmt (levels + 1) id).width ≤ bound) :
    context.EndsStmt (levels + 1) (context.walkLoop walk cursor id stmt) start cursor id bound := by
  simp only [EndsStmt, flowStmt_succ treats.kept, faultOf?_succ treats.kept, treats.treated]
  simp only [flowStmt_succ treats.kept, treats.treated, Flow.width] at room
  unfold walkLoop
  split
  · exact ends_refuse rfl
  split
  · exact ends_refuse rfl
  refine ends_fork ready (by omega) fun s₁ forked => ends_enterLoop_bind ?_
  have next₁ : s₁.graph.next = start.graph.next + 2 := forked.history.next
  have exitReady := ready.fork forked (.inr rfl)
  have headerKnown := forked.history.contains ready.known
  have insideReady := ready.enter forked
  refine ends_bind (@walks _ _ stmt.body bound insideReady (by simp only; omega)) ?_
  rintro bodyExit ⟨graph, loops⟩ ⟨bodyClean, bodyLaid⟩
  apply ends_leaveLoop_bind
  have body := bodyLaid.after
  simp only [next₁, List.head?_cons] at body
  have upTo : start.After (Flow.fork cursor id start.graph.next ++
      (context.flow levels stmt.body).script ⟨start.graph.next⟩ (start.graph.next + 2)
        (some ⟨cursor, ⟨start.graph.next + 1⟩⟩)) ⟨graph, loops.tail⟩ := by
    refine ⟨Graph.performAll_append_eq_ok.mpr ⟨_, forked.performed, body.performed⟩, ?_⟩
    have inside : loops = _ :: s₁.loops := body.loops
    rw [inside, ← forked.loops]
    rfl
  have lastReady := bodyLaid.ready insideReady
  obtain ⟨last, here⟩ := Option.isSome_iff_exists.mp (Graph.block?_isSome.trans lastReady.known)
  have unlinked : last.successors = [] := by simpa [Graph.successors, here] using lastReady.unlinked
  refine ends_block_bind here ?_
  rw [if_pos (by rw [unlinked]; rfl)]
  refine ends_done (ends_loopBack upTo (ready.ne_new (by omega)).symm lastReady.known
    lastReady.unlinked (body.history.contains headerKnown)
    (body.history.contains exitReady.known)) ?_
  rintro _ state ⟨rfl, after⟩
  have bodyExit_eq := bodyLaid.last_eq
  simp only [next₁] at bodyExit_eq
  rw [bodyExit_eq] at after
  refine ⟨bodyClean, ?_, rfl⟩
  simpa only [Flow.script, List.append_nil] using after

theorem endsStmt_visit {levels : Nat} {walk : BlockId → List StmtId → WalkM BlockId}
    (walks : context.WalksSeq levels walk) (kept : context.pool.get? id = some stmt)
    (ready : start.Ready cursor)
    (room : start.graph.next + (context.flowStmt (levels + 1) id).width ≤ bound) :
    context.EndsStmt (levels + 1) (context.visit walk cursor id stmt) start cursor id bound := by
  unfold visit
  cases treated : context.dialect.ruleOf? stmt with
  | none => exact ends_refuse (by rw [faultOf?_succ kept, treated])
  | some rule =>
      apply ends_record_bind
      have treats : context.Treats id stmt rule := ⟨kept, treated⟩
      cases rule with
      | branch => exact ends_walkBranch walks treats ready room
      | loop => exact ends_walkLoop walks treats ready room
      | sequential =>
          simp only [flowStmt_succ kept, faultOf?_succ kept, treated]
          exact ends_done (ends_walkPlain ready) fun _ _ laid => ⟨trivial, laid⟩
      | deferred =>
          simp only [flowStmt_succ kept, faultOf?_succ kept, treated]
          exact ends_done (ends_walkDefinition ready) fun _ _ laid => ⟨trivial, laid⟩
      | returns =>
          simp only [flowStmt_succ kept, faultOf?_succ kept, treated] at room ⊢
          exact ends_done (ends_walkReturn ready room) fun _ _ laid => ⟨trivial, laid⟩
      | breaks =>
          simp only [flowStmt_succ kept, faultOf?_succ kept, treated] at room ⊢
          exact ends_done (ends_walkBreak ready room fun outside => by simp [outside])
            fun _ _ ⟨inside, laid⟩ => ⟨by simp [inside], laid⟩
      | continues =>
          simp only [flowStmt_succ kept, faultOf?_succ kept, treated] at room ⊢
          exact ends_done (ends_walkContinue ready room fun outside => by simp [outside])
            fun _ _ ⟨inside, laid⟩ => ⟨by simp [inside], laid⟩
      | unsupported => exact ends_refuse (by rw [faultOf?_succ kept, treated])

theorem walksSeq_foldlM {levels : Nat} {walk : BlockId → StmtId → WalkM BlockId}
    (walks : ∀ ⦃state cursor id bound⦄, state.Ready cursor →
      state.graph.next + (context.flowStmt levels id).width ≤ bound →
      context.EndsStmt levels (walk cursor id) state cursor id bound) :
    context.WalksSeq levels fun cursor ids => ids.foldlM walk cursor := by
  intro state cursor ids bound ready room
  induction ids generalizing state cursor with
  | nil => exact ends_pure ⟨rfl, .refl state, rfl⟩
  | cons id ids ih =>
      rw [flow_cons, Flow.width_append] at room
      simp only [List.foldlM_cons, faultIn?_cons, flow_cons]
      refine ends_bind (ends_refused (walks ready (by omega)) fun error found => by
        rw [found]; rfl) ?_
      rintro middle mid ⟨clean, laid⟩
      have next := laid.next
      have rest := ih (laid.ready ready) (by omega)
      rw [inLoop_of_after laid.after] at rest
      rw [clean]
      exact ends_done rest fun _ _ ⟨restClean, restLaid⟩ => ⟨restClean, laid.trans restLaid⟩

/-- Every walk of a sequence ends as the flow and the faults of the sequence say. -/
theorem walksSeq (context : Context) (levels : Nat) :
    context.WalksSeq levels (context.walkSeq levels) := by
  induction levels with
  | zero =>
      refine walksSeq_foldlM fun state cursor id bound ready room => ?_
      cases kept : context.pool.get? id with
      | none =>
          rw [walkStmt_of_missing kept]
          exact ends_refuse (faultOf?_of_missing kept ..)
      | some stmt =>
          rw [walkStmt_zero kept]
          exact ends_refuse (faultOf?_zero kept ..)
  | succ levels ih =>
      refine walksSeq_foldlM fun state cursor id bound ready room => ?_
      cases kept : context.pool.get? id with
      | none =>
          rw [walkStmt_of_missing kept]
          exact ends_refuse (faultOf?_of_missing kept ..)
      | some stmt =>
          rw [walkStmt_succ kept]
          exact endsStmt_visit ih kept ready room

end Context

end FlowGraph
