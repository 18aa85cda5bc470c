import FlowGraph.Proofs.Layout

/-! # How walks end

A walk ends with a result, is refused because of the input, or runs out of block ids;
`Ends` says which results and refusals there are and that nothing else happens. The
cursor of a walk is `Ready` when it can take a statement and ways out; every operation
that a walk performs on a ready cursor goes through.
-/

namespace FlowGraph

/-- A build ends in a result as described, in a refusal as described, or for want of
    block ids, which needs the numbers to reach the limit by `bound`. -/
def BuildM.Ends {α : Type} (build : BuildM α) (bound : Nat) (done : α → Prop)
    (refused : FlowError → Prop) : Prop :=
  ∀ log, match build log with
    | .ok value _ => done value
    | .error (.flow error) _ => refused error
    | .error (.fault fault) _ => (∃ last, fault = .idsExhausted last) ∧ BlockId.limit ≤ bound

namespace BuildM

variable {α β : Type} {bound : Nat} {refused : FlowError → Prop}

theorem ends_pure {done : α → Prop} {value : α} (h : done value) :
    Ends (pure value) bound done refused :=
  fun _ => h

theorem ends_bind {first : BuildM α} {next : α → BuildM β} {mid : α → Prop} {done : β → Prop}
    (hf : first.Ends bound mid refused)
    (hn : ∀ value, mid value → (next value).Ends bound done refused) :
    (first >>= next).Ends bound done refused := by
  intro log
  have ending := hf log
  simp only [bind, EStateM.bind]
  cases run : first log with
  | ok value after =>
      rw [run] at ending
      exact hn value ending after
  | error failure after =>
      rw [run] at ending
      cases failure <;> exact ending

theorem ends_mono {build : BuildM α} {done done' : α → Prop} {refused' : FlowError → Prop}
    (h : build.Ends bound done refused) (hd : ∀ value, done value → done' value)
    (hr : ∀ error, refused error → refused' error) : build.Ends bound done' refused' := by
  intro log
  have ending := h log
  cases run : build log with
  | ok value after =>
      rw [run] at ending
      exact hd value ending
  | error failure after =>
      rw [run] at ending
      cases failure with
      | flow error => exact hr error ending
      | fault fault => exact ending

theorem ends_refuse {done : α → Prop} {error : FlowError} (h : refused error) :
    (refuse error : BuildM α).Ends bound done refused :=
  fun _ => h

theorem ends_record_bind {next : Unit → BuildM α} {done : α → Prop} {event : Event}
    (h : (next ()).Ends bound done refused) : (record event >>= next).Ends bound done refused :=
  fun log => h (log.push event)

theorem ends_ofGraph_bind {next : α → BuildM β} {done : β → Prop} {outcome : Except GraphFault α}
    {value : α} (success : outcome = .ok value) (h : (next value).Ends bound done refused) :
    (ofGraph outcome >>= next).Ends bound done refused := by
  subst success
  exact h

end BuildM

/-- How a walk ends that begins in a given state. -/
def WalkM.Ends {α : Type} (walk : WalkM α) (state : WalkState) (bound : Nat)
    (done : α → WalkState → Prop) (refused : FlowError → Prop) : Prop :=
  BuildM.Ends (walk state) bound (fun result => done result.1 result.2) refused

namespace WalkM

variable {α β : Type} {state : WalkState} {bound : Nat} {refused : FlowError → Prop}

theorem ends_pure {done : α → WalkState → Prop} {value : α} (h : done value state) :
    Ends (pure value) state bound done refused :=
  BuildM.ends_pure h

theorem ends_bind {walk : WalkM α} {next : α → WalkM β} {mid : α → WalkState → Prop}
    {done : β → WalkState → Prop} (hw : walk.Ends state bound mid refused)
    (hn : ∀ value after, mid value after → (next value).Ends after bound done refused) :
    (walk >>= next).Ends state bound done refused :=
  BuildM.ends_bind hw fun result h => hn result.1 result.2 h

theorem ends_mono {walk : WalkM α} {done done' : α → WalkState → Prop}
    {refused' : FlowError → Prop} (h : walk.Ends state bound done refused)
    (hd : ∀ value after, done value after → done' value after)
    (hr : ∀ error, refused error → refused' error) : walk.Ends state bound done' refused' :=
  BuildM.ends_mono h (fun result => hd result.1 result.2) hr

theorem ends_done {walk : WalkM α} {done done' : α → WalkState → Prop}
    (h : walk.Ends state bound done refused)
    (hd : ∀ value after, done value after → done' value after) :
    walk.Ends state bound done' refused :=
  ends_mono h hd fun _ h => h

theorem ends_refused {walk : WalkM α} {done : α → WalkState → Prop} {refused' : FlowError → Prop}
    (h : walk.Ends state bound done refused) (hr : ∀ error, refused error → refused' error) :
    walk.Ends state bound done refused' :=
  ends_mono h (fun _ _ h => h) hr

theorem ends_refuse {done : α → WalkState → Prop} {error : FlowError} (h : refused error) :
    (refuse error : WalkM α).Ends state bound done refused :=
  fun _ => h

theorem ends_record_bind {next : Unit → WalkM α} {done : α → WalkState → Prop} {event : Event}
    (h : (next ()).Ends state bound done refused) :
    (record event >>= next).Ends state bound done refused :=
  fun log => h (log.push event)

theorem ends_innermost_bind {next : Option LoopFrame → WalkM α} {done : α → WalkState → Prop}
    (h : (next state.loops.head?).Ends state bound done refused) :
    (innermost >>= next).Ends state bound done refused :=
  h

theorem ends_enterLoop_bind {next : Unit → WalkM α} {done : α → WalkState → Prop}
    {frame : LoopFrame}
    (h : (next ()).Ends ⟨state.graph, frame :: state.loops⟩ bound done refused) :
    (enterLoop frame >>= next).Ends state bound done refused :=
  h

theorem ends_leaveLoop_bind {next : Unit → WalkM α} {done : α → WalkState → Prop}
    (h : (next ()).Ends ⟨state.graph, state.loops.tail⟩ bound done refused) :
    (leaveLoop >>= next).Ends state bound done refused :=
  h

theorem ends_block_bind {next : Block → WalkM α} {done : α → WalkState → Prop} {id : BlockId}
    {block : Block} (here : state.graph.block? id = some block)
    (h : (next block).Ends state bound done refused) :
    (WalkM.block id >>= next).Ends state bound done refused := by
  have found : WalkM.block id state = pure (block, state) := by
    simp only [WalkM.block, Graph.block, here]
    rfl
  change BuildM.Ends (WalkM.block id state >>= fun result => next result.1 result.2) _ _ _
  rw [found]
  exact h

theorem ends_change {done : Unit → WalkState → Prop} {operation : Graph → Except GraphFault Graph}
    {after : Graph} (success : operation state.graph = .ok after)
    (h : done () ⟨after, state.loops⟩) : (change operation).Ends state bound done refused :=
  BuildM.ends_ofGraph_bind success (BuildM.ends_pure h)

theorem ends_create {done : BlockId → WalkState → Prop} (numbered : state.graph.Numbered)
    (room : state.graph.next + 1 ≤ bound)
    (h : ∀ after, state.graph.create = .ok (⟨state.graph.next⟩, after) →
      done ⟨state.graph.next⟩ ⟨after, state.loops⟩) :
    create.Ends state bound done refused := by
  have first : (BuildM.ofGraph state.graph.create).Ends bound
      (fun result => state.graph.create = .ok result ∧ result.1 = ⟨state.graph.next⟩) refused := by
    intro log
    cases made : state.graph.create with
    | ok result => exact ⟨rfl, (Graph.create_eq_ok made).2.1.trans numbered.next_eq⟩
    | error fault =>
        have ended := Graph.create_eq_error made
        have next_eq : state.graph.numbering.next.index = state.graph.next :=
          congrArg BlockId.index numbered.next_eq
        exact ⟨⟨_, ended.2⟩, by omega⟩
  apply BuildM.ends_bind first
  rintro ⟨id, after⟩ ⟨made, rfl⟩
  exact BuildM.ends_pure (h after made)

end WalkM

namespace WalkState

/-- The state of a walk after some operations on its graph, outside or inside the same
    loops. -/
structure After (start : WalkState) (operations : List Operation) (state : WalkState) : Prop where
  performed : start.graph.performAll operations = .ok state.graph
  loops : state.loops = start.loops

/-- A walk may go on from the cursor: it can take a statement and ways out, and so do the
    jumps out of the loops around it find their blocks. -/
structure Ready (state : WalkState) (cursor : BlockId) : Prop where
  sound : state.graph.Sound
  known : state.graph.contains cursor = true
  running : state.graph.isTerminal cursor = false
  unlinked : state.graph.successors cursor = []
  frames : ∀ frame ∈ state.loops,
    state.graph.contains frame.header = true ∧ state.graph.contains frame.exit = true

variable {start state : WalkState} {operations : List Operation} {cursor : BlockId}

namespace After

theorem refl (state : WalkState) : state.After [] state := ⟨rfl, rfl⟩

theorem history (h : start.After operations state) :
    start.graph.History operations state.graph :=
  Graph.history_performAll h.performed

theorem trans {final : WalkState} {more : List Operation} (h₁ : start.After operations state)
    (h₂ : state.After more final) : start.After (operations ++ more) final :=
  ⟨Graph.performAll_append_eq_ok.mpr ⟨_, h₁.performed, h₂.performed⟩, h₂.loops.trans h₁.loops⟩

theorem snoc {graph : Graph} (h : start.After operations state) (operation : Operation)
    (success : state.graph.perform operation = .ok graph) :
    start.After (operations ++ [operation]) ⟨graph, state.loops⟩ :=
  h.trans ⟨Graph.performAll_cons_eq_ok.mpr ⟨_, success, rfl⟩, rfl⟩

end After

namespace Ready

theorem old (ready : state.Ready cursor) : cursor.index < state.graph.next :=
  (Graph.contains_iff.mp ready.known).2

theorem ne_new (ready : state.Ready cursor) {number : Nat} (above : state.graph.next ≤ number) :
    (⟨number⟩ : BlockId) ≠ cursor := by
  rintro rfl
  exact absurd ready.old (Nat.not_lt.mpr above)

/-- A block that is the cursor or new, and that was given no way out, is ready. -/
theorem later (ready : start.Ready cursor) (after : start.After operations state) {id : BlockId}
    (known : state.graph.contains id = true) (mine : id = cursor ∨ start.graph.next ≤ id.index)
    (unclosed : ∀ operation ∈ operations, operation.closes ≠ some id) : state.Ready id := by
  have history := after.history
  have before : start.graph.isTerminal id = false ∧ start.graph.successors id = [] := by
    rcases mine with rfl | new
    · exact ⟨ready.running, ready.unlinked⟩
    · have unknown : start.graph.contains id = false := by
        rw [← Bool.not_eq_true, Graph.contains_iff]
        omega
      exact ⟨Graph.isTerminal_eq_false unknown, Graph.successors_eq_nil unknown⟩
  constructor
  · exact ready.sound.performAll after.performed
  · exact known
  · rw [history.isTerminal, before.1, Operation.any_terminates_eq_false unclosed]
    rfl
  · rw [history.successors, before.2, Operation.targets_eq_nil unclosed]
    rfl
  · intro frame member
    rw [after.loops] at member
    exact ⟨history.contains (ready.frames frame member).1,
      history.contains (ready.frames frame member).2⟩

theorem new (ready : start.Ready cursor) (after : start.After operations state) {number : Nat}
    (above : start.graph.next ≤ number) (below : number < state.graph.next)
    (unclosed : ∀ operation ∈ operations, operation.closes ≠ some ⟨number⟩) :
    state.Ready ⟨number⟩ := by
  have bounds := Graph.contains_iff.mp ready.known
  have known : state.graph.contains ⟨number⟩ = true := by
    rw [Graph.contains_iff, after.history.base]
    exact ⟨by simp only; omega, below⟩
  exact ready.later after known (.inr above) unclosed

theorem finish {flow : Flow} {frame : Option LoopFrame} (ready : start.Ready cursor)
    (after : start.After (flow.script cursor start.graph.next frame) state) :
    state.Ready (flow.finish cursor start.graph.next) := by
  have inside := flow.region_finish cursor start.graph.next
  have bounds := Graph.contains_iff.mp ready.known
  refine ready.later after ?_ (inside.imp_right And.left)
    fun operation member => Flow.closes_ne_finish ready.old member
  rw [after.history.contains_iff, Flow.countP_isCreate_script]
  have index := inside.index
  omega

end Ready

end WalkState

namespace WalkM

variable {start state : WalkState} {operations : List Operation} {bound : Nat}
  {refused : FlowError → Prop}

theorem ends_append {id : BlockId} {stmt : StmtId} (after : start.After operations state)
    (known : state.graph.contains id = true) (running : state.graph.isTerminal id = false) :
    (append id stmt).Ends state bound
      (fun _ => start.After (operations ++ [.append id stmt])) refused := by
  have success : state.graph.append id stmt = _ := Graph.append_ok known running
  exact ends_change success (after.snoc (.append id stmt) success)

theorem ends_link {source target : BlockId} (after : start.After operations state)
    (knownSource : state.graph.contains source = true)
    (knownTarget : state.graph.contains target = true)
    (new : target ∉ state.graph.successors source) :
    (link source target).Ends state bound
      (fun _ => start.After (operations ++ [.link source target])) refused := by
  have success := Graph.link_ok knownSource knownTarget new
  exact ends_change success (after.snoc (.link source target) success)

theorem ends_markTerminal {id : BlockId} (after : start.After operations state)
    (known : state.graph.contains id = true) :
    (markTerminal id).Ends state bound
      (fun _ => start.After (operations ++ [.markTerminal id])) refused := by
  have success := Graph.markTerminal_ok known
  exact ends_change success (after.snoc (.markTerminal id) success)

theorem ends_defer {stmt : StmtId} (after : start.After operations state) :
    (defer stmt).Ends state bound (fun _ => start.After (operations ++ [.defer stmt])) refused :=
  ends_change rfl (after.snoc (.defer stmt) rfl)

theorem ends_createNext (numbered : start.graph.Numbered) (after : start.After operations state)
    (room : state.graph.next + 1 ≤ bound) :
    create.Ends state bound
      (fun id state' => id = ⟨state.graph.next⟩ ∧ start.After (operations ++ [.create]) state')
      refused := by
  have numbered' := after.history.numbered numbered
  refine ends_create numbered' room fun graph made => ⟨rfl, after.snoc .create ?_⟩
  simp [Graph.perform, made, Except.map]

end WalkM

end FlowGraph
