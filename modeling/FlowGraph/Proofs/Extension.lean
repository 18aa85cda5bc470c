import FlowGraph.Proofs.Isolation
import FlowGraph.Proofs.Pieces

/-! # Longer bodies

The build of a longer body begins as that of a shorter one with which it begins. So it fails
where the shorter one fails, and where it succeeds the graph of the shorter body is found in
the graph of the longer one: what comes later is laid out from the last cursor on, outside of
any loop, and can reach no earlier block but that cursor.
-/

namespace FlowGraph

namespace Graph

variable {graph after : Graph}

/-- A block to which no operation adds a statement or a way out has at most more ways in. -/
theorem History.block?_eq_of_unwritten {operations : List Operation} {id : BlockId} {block : Block}
    (history : graph.History operations after) (numbered : graph.Numbered)
    (here : graph.block? id = some block)
    (unwritten : ∀ operation ∈ operations, operation.subject ≠ some id) :
    after.block? id = some { block with
      predecessors := block.predecessors ++ operations.flatMap (Operation.sources id) } := by
  have unclosed : ∀ operation ∈ operations, operation.closes ≠ some id :=
    fun operation member closes => unwritten operation member (Operation.subject_of_closes closes)
  have statements := history.statements id
  have predecessors := history.predecessors id
  have successors := history.successors id
  have isTerminal := history.isTerminal id
  rw [Operation.statements_eq_nil unwritten, List.append_nil] at statements
  rw [Operation.targets_eq_nil unclosed, List.append_nil] at successors
  rw [Operation.any_terminates_eq_false unclosed, Bool.or_false] at isTerminal
  obtain ⟨block', here'⟩ :=
    Option.isSome_iff_exists.mp (block?_isSome.trans (history.contains (contains_of_block? here)))
  have same := numbered.id_eq id block here
  have same' := (history.numbered numbered).id_eq id block' here'
  simp only [Graph.statements, Graph.predecessors, Graph.successors, Graph.isTerminal, here,
    here'] at statements predecessors successors isTerminal
  rw [here']
  cases block
  cases block'
  simp_all

theorem History.block?_eq {operations : List Operation} {id : BlockId}
    (history : graph.History operations after) (numbered : graph.Numbered)
    (known : graph.contains id = true)
    (unwritten : ∀ operation ∈ operations, operation.subject ≠ some id)
    (unlinked : ∀ operation ∈ operations, operation.object ≠ some id) :
    after.block? id = graph.block? id := by
  obtain ⟨block, here⟩ := Option.isSome_iff_exists.mp (block?_isSome.trans known)
  rw [history.block?_eq_of_unwritten numbered here unwritten, Operation.sources_eq_nil unlinked,
    List.append_nil, here]

/-- `after` is `graph` with more blocks and more deferred definitions behind the old ones. Of the
    old blocks only `last` may have changed, and what it listed still comes first in it. -/
structure GrownAt (graph : Graph) (last : BlockId) (after : Graph) : Prop where
  ids : graph.ids <+: after.ids
  elsewhere : ∀ id, graph.contains id = true → id ≠ last → after.block? id = graph.block? id
  statements : graph.statements last <+: after.statements last
  predecessors : graph.predecessors last <+: after.predecessors last
  deferred : graph.deferred <+: after.deferred

theorem grownAt_of_performAll {flow : Flow} {last : BlockId} (numbered : graph.Numbered)
    (performed : graph.performAll (flow.script last graph.next none) = .ok after) :
    graph.GrownAt last after := by
  have history := history_performAll performed
  constructor
  · rw [numbered.ids_eq, (history.numbered numbered).ids_eq, history.entry, history.size,
      List.range_add, List.map_append]
    exact List.prefix_append _ _
  · intro id known other
    have outside : ¬ flow.Region last graph.next id := by
      have below := (contains_iff.mp known).2
      rintro (same | inside)
      · exact other same
      · omega
    apply history.block?_eq numbered known
    · intro operation member subject
      exact outside (Flow.region_of_subject member subject)
    · intro operation member object
      rcases Flow.region_of_object member object with inside | ⟨around, none, _⟩
      · exact outside inside
      · cases none
  · rw [history.statements]
    exact List.prefix_append _ _
  · rw [history.predecessors]
    exact List.prefix_append _ _
  · rw [history.deferred]
    exact List.prefix_append _ _

end Graph

namespace Context

variable {context : Context} {start : Numbering} {before behind : List StmtId} {log log' : Log}
  {failure : Failure}

theorem walkSeq_append (context : Context) (levels : Nat) (cursor : BlockId)
    (before behind : List StmtId) :
    context.walkSeq levels cursor (before ++ behind) =
      context.walkSeq levels cursor before >>= fun mid => context.walkSeq levels mid behind :=
  List.foldlM_append

theorem buildInto_append_of_error
    (failed : context.buildInto (.blank start.next) before log = .error failure log') :
    context.buildInto (.blank start.next) (before ++ behind) log = .error failure log' := by
  unfold buildInto at failed ⊢
  rcases BuildM.bind_eq_error.mp failed with failed | ⟨_, mid, recorded, failed⟩
  · cases failed
  rw [BuildM.bind_of_ok recorded]
  rcases BuildM.bind_eq_error.mp failed with failed | ⟨⟨last, state⟩, mid, walked, failed⟩
  · apply BuildM.bind_of_error
    rw [walkSeq_append]
    exact BuildM.bind_of_error failed
  · -- a walk that came to the end of the body passes the check
    have laid := (laid_of_walkSeq (WalkState.ready_blank start.next) walked).2
    simp only [laid.checked] at failed
    cases failed

theorem build_append_of_error (failed : context.build start before log = .error failure log') :
    context.build start (before ++ behind) log = .error failure log' := by
  unfold build buildToEnd at failed ⊢
  rcases BuildM.bind_eq_error.mp failed with failed | ⟨result, mid, _, returned⟩
  · apply BuildM.bind_of_error
    rcases BuildM.bind_eq_error.mp failed with failed | ⟨graph, mid, made, failed⟩
    · exact BuildM.bind_of_error failed
    · rw [BuildM.bind_of_ok made]
      obtain rfl := Graph.new_eq_blank (BuildM.ofGraph_eq_ok.mp made).1
      exact buildInto_append_of_error failed
  · cases returned

theorem Built.grownAt {last last' : BlockId} {shorter longer : Graph}
    (built : context.Built start before last shorter)
    (built' : context.Built start (before ++ behind) last' longer) :
    shorter.GrownAt last longer := by
  have laid := built'.laid
  rw [bodyFlow, flow_append, Flow.script_append] at laid
  obtain ⟨mid, first, rest⟩ := Graph.performAll_append_eq_ok.mp laid
  have laidFirst : (Graph.blank start.next).performAll
      ((context.bodyFlow before).script start.next (start.next.index + 1) none) = .ok mid := first
  obtain rfl : shorter = mid := Except.ok.inj (built.laid.symm.trans laidFirst)
  have next : shorter.next = start.next.index + 1 + (context.bodyFlow before).width := by
    rw [(Graph.history_performAll built.laid).next, Flow.countP_isCreate_script]
    rfl
  apply Graph.grownAt_of_performAll built.sound.numbered
  rw [next, built.last_eq]
  exact rest

/-- The build of a longer body fails as that of the shorter one does. Where it succeeds, so does
    that of the shorter one, and the graph has only grown at the block where its walk ended. -/
theorem builds_grow_at_last (context : Context) (start : Numbering) (before behind : List StmtId)
    (log : Log) :
    (∀ failure log', context.build start before log = .error failure log' →
      context.build start (before ++ behind) log = .error failure log') ∧
    ∀ longer log', context.build start (before ++ behind) log = .ok longer log' →
      ∃ last shorter mid, context.buildToEnd start before log = .ok (last, shorter) mid ∧
        context.build start before log = .ok shorter mid ∧ shorter.GrownAt last longer := by
  constructor
  · intro failure log' failed
    exact build_append_of_error failed
  · intro longer log' success
    obtain ⟨_, _, built'⟩ := built_of_build success
    cases result : context.build start before log with
    | error failure mid =>
        rw [build_append_of_error result] at success
        cases success
    | ok shorter mid =>
        obtain ⟨last, toEnd, built⟩ := built_of_build result
        exact ⟨last, shorter, mid, toEnd, rfl, built.grownAt built'⟩

/-- A plain statement, a loop over it, and a jump out of no loop. -/
def plainThenLoop : Context where
  pool := { slots := #[⟨0, none⟩, ⟨1, some (.simple .pass 1)⟩,
    ⟨1, some (.whileLoop 2 [⟨1, 1⟩])⟩, ⟨1, some (.breakAt 3)⟩] }
  dialect := .python3

theorem builds_grow_at_last_plainThenLoop :
    (∃ log, plainThenLoop.build {} [⟨3, 1⟩, ⟨1, 1⟩] #[] =
      .error (.flow (.breakOutsideLoop ⟨3, 1⟩ 3)) log) ∧
    ∃ last shorter mid longer log,
      plainThenLoop.buildToEnd {} [⟨1, 1⟩] #[] = .ok (last, shorter) mid ∧
      plainThenLoop.build {} [⟨1, 1⟩, ⟨2, 1⟩] #[] = .ok longer log ∧
      shorter.GrownAt last longer := by
  constructor
  · have refused : Decided (plainThenLoop.build {} [⟨3, 1⟩] #[])
        (some (.breakOutsideLoop ⟨3, 1⟩ 3)) := refusalOf?_eq_some.mp (by decide)
    obtain ⟨log, failed⟩ := refused
    exact ⟨log, (builds_grow_at_last plainThenLoop {} [⟨3, 1⟩] [⟨1, 1⟩] #[]).1 _ log failed⟩
  · obtain ⟨longer, log, success⟩ := @build_succeeds plainThenLoop {} [⟨1, 1⟩, ⟨2, 1⟩]
      (by decide) (by decide) #[]
    obtain ⟨last, shorter, mid, toEnd, _, grown⟩ :=
      (builds_grow_at_last plainThenLoop {} [⟨1, 1⟩] [⟨2, 1⟩] #[]).2 longer log success
    exact ⟨last, shorter, mid, longer, log, toEnd, success, grown⟩

end Context

end FlowGraph
