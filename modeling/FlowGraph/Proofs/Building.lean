import FlowGraph.Proofs.Walk

/-! # How builds end

A build of a body is refused with the first fault on the way through the body, and
otherwise lays out the flow of the body in a new graph; the only other ending is the
want of block ids. So no build is stopped by a graph operation called against its
contract or by one of the checks at its end.
-/

namespace FlowGraph

/-- A build stopped because there were no more numbers for blocks. -/
def RanOut {α : Type} (result : EStateM.Result Failure Log α) : Prop :=
  ∃ last log, result = .error (.fault (.idsExhausted last)) log

/-- A build gave a value, was refused because of its input, or ran out of block ids. -/
def Settled {α : Type} (result : EStateM.Result Failure Log α) : Prop :=
  (∃ value log, result = .ok value log) ∨ (∃ error log, result = .error (.flow error) log) ∨
    RanOut result

/-- A build gave a graph that passes its check, was refused for something other than the
    version of the language, or ran out of block ids. -/
def SafeEnding (result : EStateM.Result Failure Log Graph) : Prop :=
  match result with
  | .ok graph _ => graph.check = .ok ()
  | .error (.flow error) _ => ∀ version, error ≠ .unsupportedVersion version
  | .error (.fault fault) _ => ∃ last, fault = .idsExhausted last

theorem safeEnding_of_ends {build : BuildM Graph} {bound : Nat}
    (ends : build.Ends bound Graph.Consistent
      fun error => ∀ version, error ≠ .unsupportedVersion version) (log : Log) :
    SafeEnding (build log) := by
  have ending := ends log
  unfold SafeEnding
  cases run : build log with
  | ok graph after =>
      rw [run] at ending
      exact Graph.check_eq_ok.mpr ending
  | error failure after =>
      rw [run] at ending
      cases failure with
      | flow error => exact ending
      | fault fault => exact ending.1

def FlowError.line? : FlowError → Option Nat
  | breakOutsideLoop _ line => some line
  | continueOutsideLoop _ line => some line
  | unsupportedConstruct _ _ _ line => some line
  | nestingTooDeep _ line _ => some line
  | missingStatement _ => none
  | unsupportedVersion _ => none

namespace Graph

def blank (entry : BlockId) : Graph :=
  { entry, base := entry.index, blocks := #[{ id := entry }], numbering := ⟨⟨entry.index + 1⟩⟩ }

theorem new_eq_blank {start : Numbering} {graph : Graph} (h : new start = .ok graph) :
    graph = blank start.next :=
  (new_eq_grown h).2

theorem block?_blank (entry id : BlockId) :
    (blank entry).block? id = if id = entry then some { id := entry } else none := by
  unfold block?
  by_cases same : id = entry
  · simp [same, position?, blank, size]
  · have outside : (blank entry).position? id = none := by
      apply if_neg
      rintro ⟨above, below⟩
      apply same
      have equal : id.index = entry.index := by
        simp only [blank, size, List.size_toArray, List.length_cons, List.length_nil] at above below
        omega
      cases id
      cases entry
      exact congrArg BlockId.mk equal
    rw [outside, if_neg same]
    rfl

theorem successors_blank (entry id : BlockId) : (blank entry).successors id = [] := by
  by_cases same : id = entry <;> simp [successors, block?_blank, same]

theorem predecessors_blank (entry id : BlockId) : (blank entry).predecessors id = [] := by
  by_cases same : id = entry <;> simp [predecessors, block?_blank, same]

theorem statements_blank (entry id : BlockId) : (blank entry).statements id = [] := by
  by_cases same : id = entry <;> simp [statements, block?_blank, same]

theorem isTerminal_blank (entry id : BlockId) : (blank entry).isTerminal id = false := by
  by_cases same : id = entry <;> simp [isTerminal, block?_blank, same]

theorem sound_blank (entry : BlockId) : (blank entry).Sound where
  numbered := by
    refine ⟨?_, rfl, rfl⟩
    intro id block here
    rw [block?_blank] at here
    split at here <;> cases here
    symm
    assumption
  nodup := by simp [successors_blank]
  bothEnds := by simp [successors_blank, predecessors_blank]

end Graph

theorem WalkState.ready_blank (entry : BlockId) : WalkState.Ready ⟨.blank entry, []⟩ entry where
  sound := Graph.sound_blank entry
  known := by rw [Graph.contains_iff]; exact ⟨Nat.le_refl _, Nat.lt_succ_self _⟩
  running := Graph.isTerminal_blank entry entry
  unlinked := Graph.successors_blank entry entry
  frames := by simp

section Laid

variable {entry last : BlockId} {flow : Flow} {state : WalkState}

theorem WalkState.Laid.consistent
    (laid : WalkState.Laid ⟨.blank entry, []⟩ flow entry last state) : state.graph.Consistent :=
  ((Graph.sound_blank entry).performAll laid.after.performed).consistent

/-- The check at the end of a build accepts whatever a walk has laid out. -/
theorem WalkState.Laid.checked
    (laid : WalkState.Laid ⟨.blank entry, []⟩ flow entry last state) :
    state.check = .ok () := by
  have outside : state.loops = [] := laid.after.loops
  simp [WalkState.check, outside, Graph.check_eq_ok.mpr laid.consistent]

end Laid

namespace Context

def bodyFlow (context : Context) (body : List StmtId) : Flow :=
  context.flow (context.maxDepth + 1) body

/-- What a build that went through has done: nothing was wrong with the body, and its
    flow was laid out from the entry on. -/
structure Built (context : Context) (start : Numbering) (body : List StmtId) (last : BlockId)
    (graph : Graph) : Prop where
  clean : context.firstFault? body = none
  laid : (Graph.blank start.next).performAll
    ((context.bodyFlow body).script start.next (start.next.index + 1) none) = .ok graph
  last_eq : last = (context.bodyFlow body).finish start.next (start.next.index + 1)

namespace Built

variable {context : Context} {start : Numbering} {body : List StmtId} {last : BlockId}
  {graph : Graph}

theorem reads (built : context.Built start body last graph) :
    context.Reads false body (context.bodyFlow body) :=
  (reads_of_faultless built.clean).1

theorem sound (built : context.Built start body last graph) : graph.Sound :=
  (Graph.sound_blank start.next).performAll built.laid

theorem entry_known (built : context.Built start body last graph) :
    graph.contains graph.entry = true := by
  have history := Graph.history_performAll built.laid
  rw [history.entry]
  exact history.contains (WalkState.ready_blank start.next).known

end Built

theorem ends_buildInto (context : Context) (start : Numbering) (body : List StmtId) :
    (context.buildInto (.blank start.next) body).Ends
      (start.next.index + 1 + (context.bodyFlow body).width)
      (fun result => context.Built start body result.1 result.2 ∧ result.2.Consistent)
      (fun error => context.firstFault? body = some error) := by
  have ready := WalkState.ready_blank start.next
  apply BuildM.ends_record_bind
  refine BuildM.ends_bind (@walksSeq context (context.maxDepth + 1) ⟨.blank start.next, []⟩
    start.next body _ ready (Nat.le_refl _)) ?_
  rintro ⟨last, state⟩ ⟨clean, laid⟩
  refine BuildM.ends_ofGraph_bind laid.checked (BuildM.ends_pure ⟨?_, laid.consistent⟩)
  exact ⟨clean, laid.after.performed, laid.last_eq⟩

/-- A build that begins with a new graph: when there is no number for the entry, it
    runs out of block ids at once. -/
theorem ends_new_bind {α : Type} {start : Numbering} {next : Graph → BuildM α} {more : Nat}
    {done : α → Prop} {refused : FlowError → Prop}
    (h : (next (.blank start.next)).Ends (start.next.index + 1 + more) done refused) :
    (BuildM.ofGraph (Graph.new start) >>= next).Ends (start.next.index + 1 + more) done
      refused := by
  cases made : Graph.new start with
  | ok graph => exact BuildM.ends_ofGraph_bind rfl (Graph.new_eq_blank made ▸ h)
  | error fault =>
      obtain ⟨full, rfl⟩ := Graph.new_eq_error made
      exact fun _ => ⟨⟨_, rfl⟩, by omega⟩

theorem ends_buildToEnd (context : Context) (start : Numbering) (body : List StmtId) :
    (context.buildToEnd start body).Ends
      (start.next.index + 1 + (context.bodyFlow body).width)
      (fun result => context.Built start body result.1 result.2 ∧ result.2.Consistent)
      (fun error => context.firstFault? body = some error) :=
  ends_new_bind (ends_buildInto context start body)

theorem ends_build (context : Context) (start : Numbering) (body : List StmtId) :
    (context.build start body).Ends
      (start.next.index + 1 + (context.bodyFlow body).width)
      (fun graph => context.firstFault? body = none ∧ graph.Consistent)
      (fun error => context.firstFault? body = some error) :=
  BuildM.ends_bind (ends_buildToEnd context start body) fun _ ⟨built, consistent⟩ =>
    BuildM.ends_pure ⟨built.clean, consistent⟩

theorem settled_build (context : Context) (start : Numbering) (body : List StmtId) (log : Log) :
    Settled (context.build start body log) := by
  have ending := ends_build context start body log
  cases result : context.build start body log with
  | ok graph log' => exact .inl ⟨graph, log', rfl⟩
  | error failure log' =>
      rw [result] at ending
      cases failure with
      | flow error => exact .inr (.inl ⟨error, log', rfl⟩)
      | fault fault =>
          obtain ⟨⟨last, rfl⟩, _⟩ := ending
          exact .inr (.inr ⟨last, log', rfl⟩)

theorem built_of_build {context : Context} {start : Numbering} {body : List StmtId}
    {log log' : Log} {graph : Graph} (success : context.build start body log = .ok graph log') :
    ∃ last, context.buildToEnd start body log = .ok (last, graph) log' ∧
      context.Built start body last graph := by
  obtain ⟨⟨last, result⟩, mid, walked, returned⟩ := BuildM.bind_eq_ok.mp success
  cases returned
  have ending := ends_buildToEnd context start body log
  rw [walked] at ending
  exact ⟨last, walked, ending.1⟩

theorem build_succeeds {context : Context} {start : Numbering} {body : List StmtId}
    (clean : context.firstFault? body = none)
    (room : start.next.index + 1 + (context.bodyFlow body).width < BlockId.limit) (log : Log) :
    ∃ graph log', context.build start body log = .ok graph log' := by
  have ending := ends_build context start body log
  cases run : context.build start body log with
  | ok graph log' => exact ⟨graph, log', rfl⟩
  | error failure log' =>
      rw [run] at ending
      cases failure with
      | flow error => simp [clean] at ending
      | fault fault => exact absurd ending.2 (Nat.not_le.mpr room)

/-- A fault names the statement at which it is found, and its line when the statement
    is there at all. -/
theorem about_of_fault? {context : Context} {visit : Visit} {error : FlowError}
    (found : context.fault? visit = some error) :
    error.stmt? = some visit.id ∧
      error.line? = (context.pool.get? visit.id).map fun stmt => stmt.line := by
  unfold fault? at found
  cases kept : context.pool.get? visit.id with
  | none =>
      rw [kept] at found
      cases found
      exact ⟨rfl, rfl⟩
  | some stmt =>
      simp only [kept] at found
      repeat' split at found
      all_goals cases found
      all_goals exact ⟨rfl, rfl⟩

/-- The error is what is wrong with one of the visits of a body and nothing is wrong with
    the visits before that one. -/
def FirstOffence (context : Context) (body : List StmtId) (error : FlowError) : Prop :=
  ∃ before visit behind, context.visits body = before ++ visit :: behind ∧
    (∀ earlier ∈ before, context.fault? earlier = none) ∧
    context.fault? visit = some error ∧ error.stmt? = some visit.id ∧
    error.line? = (context.pool.get? visit.id).map fun stmt => stmt.line

theorem firstOffence_of_firstFault? {context : Context} {body : List StmtId} {error : FlowError}
    (found : context.firstFault? body = some error) : context.FirstOffence body error := by
  obtain ⟨before, visit, behind, way, here, clean⟩ := List.findSome?_eq_some_iff.mp found
  exact ⟨before, visit, behind, way, clean, here, about_of_fault? here⟩

theorem ne_unsupportedVersion {context : Context} {body : List StmtId} {error : FlowError}
    (found : context.firstFault? body = some error) (version : String) :
    error ≠ .unsupportedVersion version := by
  rintro rfl
  obtain ⟨_, _, _, _, _, _, named, _⟩ := firstOffence_of_firstFault? found
  cases named

theorem ends_buildDef (context : Context) (start : Numbering) (root : StmtId) :
    ∃ bound, (context.buildDef start root).Ends bound Graph.Consistent
      fun error => ∀ version, error ≠ .unsupportedVersion version := by
  unfold buildDef
  cases context.pool.get? root with
  | none => exact ⟨start.next.index + 1 + 0, ends_new_bind (BuildM.ends_refuse fun _ => nofun)⟩
  | some stmt =>
      have body := BuildM.ends_mono (ends_buildInto context start stmt.body)
        (fun _ ⟨_, consistent⟩ => consistent) fun _ => ne_unsupportedVersion
      exact ⟨_, ends_new_bind (BuildM.ends_bind body fun _ => BuildM.ends_pure)⟩

/-- Every build gives a graph that passes its check, is refused because of the statements
    it was given, or runs out of block ids. -/
theorem build_and_buildDef_safe (context : Context) (start : Numbering) (log : Log) :
    (∀ body, SafeEnding (context.build start body log)) ∧
      ∀ root, SafeEnding (context.buildDef start root log) := by
  constructor
  · intro body
    refine safeEnding_of_ends (BuildM.ends_mono (ends_build context start body) ?_ ?_) log
    · exact fun _ ⟨_, consistent⟩ => consistent
    · exact fun _ => ne_unsupportedVersion
  · intro root
    obtain ⟨bound, ends⟩ := ends_buildDef context start root
    exact safeEnding_of_ends ends log

end Context

end FlowGraph
