import FlowGraph.Proofs.Legs
import FlowGraph.Proofs.Pieces
import FlowGraph.Proofs.Placing

/-! # The tree and the edges

The legs of a walk follow the statement tree; what is said here is that the edges of the
finished graph follow the legs, also those of statements that no execution comes to. A
jump goes to the blocks of the loop statement that is the innermost one around its leg.
-/

namespace FlowGraph

namespace Graph

variable {graph : Graph} {frame : Option LoopFrame} {flow : Flow} {before : List StmtId}
  {cursor last : BlockId} {out : List BlockId}

theorem Shows.isPrefix {statements : List StmtId} {terminal : Bool}
    (shows : graph.Shows cursor statements out terminal) :
    statements <+: graph.statements cursor :=
  shows.statements_eq ▸ List.prefix_rfl

theorem Realizes.before_prefix (shape : graph.Realizes frame flow before cursor last out) :
    before <+: graph.statements cursor := by
  induction shape with
  | done shows => exact shows.isPrefix
  | step _ ih => exact (List.prefix_append ..).trans ih
  | branch shows | loop shows | returns shows | breaks shows | continues shows =>
      exact (List.prefix_append ..).trans shows.isPrefix

theorem Realizes.first_prefix {context : Context} {inLoop : Bool} {id : StmtId}
    {ids : List StmtId} (shape : graph.Realizes frame flow before cursor last out)
    (reads : context.Reads inLoop (id :: ids) flow) :
    before ++ [id] <+: graph.statements cursor := by
  cases reads with
  | plain | deferred =>
      cases shape with
      | step rest => exact rest.before_prefix
  | branch =>
      cases shape with
      | branch shows => exact shows.isPrefix
  | loop =>
      cases shape with
      | loop shows => exact shows.isPrefix
  | returns =>
      cases shape with
      | returns shows => exact shows.isPrefix
  | breaks =>
      cases shape with
      | breaks shows => exact shows.isPrefix
  | continues =>
      cases shape with
      | continues shows => exact shows.isPrefix

/-- The statements of a leg, if there are any, begin a block. -/
def Begins (graph : Graph) (leg : Leg) : Prop :=
  ∀ first rest, leg.ids = first :: rest →
    (graph.statements leg.cursor).head? = some first ∧ graph.blockOf? first = some leg.cursor

/-- The loop statement around a leg stands in the block `header`, which has `exit` as its
    second way out. -/
def Encloses (graph : Graph) (leg : Leg) (header exit : BlockId) : Prop :=
  ∃ loop entry, leg.loop = some loop ∧ graph.blockOf? loop = some header ∧
    graph.successors header = [entry, exit]

end Graph

namespace Context

/-- The edges at the first statement of a leg, by the rule of the statement. -/
def Edges (context : Context) (graph : Graph) (leg : Leg) (stmt : Stmt) : Rule → Prop
  | .branch => ∃ inBody inOrelse behind bodyEnd orelseEnd,
      context.Leads .body leg inBody ∧ context.Leads .orelse leg inOrelse ∧
      context.Leads .onward leg behind ∧ inBody.ids = stmt.body ∧
      inOrelse.ids = stmt.orelse ∧ behind.ids = leg.ids.tail ∧
      context.Ends inBody bodyEnd ∧ context.Ends inOrelse orelseEnd ∧
      graph.successors leg.cursor = [inBody.cursor, inOrelse.cursor] ∧
      graph.Begins inBody ∧ graph.Begins inOrelse ∧
      graph.successors bodyEnd = [behind.cursor] ∧
      graph.successors orelseEnd = [behind.cursor] ∧ graph.Begins behind
  | .loop => ∃ inBody behind bodyEnd,
      context.Leads .turn leg inBody ∧ context.Leads .onward leg behind ∧
      inBody.ids = stmt.body ∧ behind.ids = leg.ids.tail ∧ context.Ends inBody bodyEnd ∧
      graph.successors leg.cursor = [inBody.cursor, behind.cursor] ∧ graph.Begins inBody ∧
      graph.successors bodyEnd = [leg.cursor, behind.cursor] ∧ graph.Begins behind
  | .breaks => ∃ header exit, graph.Encloses leg header exit ∧
      graph.successors leg.cursor = [exit]
  | .continues => ∃ header exit, graph.Encloses leg header exit ∧
      graph.successors leg.cursor = [header]
  | .sequential | .deferred | .returns | .unsupported => True

/-- A leg as the finished graph shows it: its flow was laid out from the cursor on, which
    had the statements `before`, and control goes on to `out` from the block where it ends.
    The innermost loop statement around the leg ends the header of the innermost loop. -/
structure Fits (context : Context) (graph : Graph) (leg : Leg) (ids : List StmtId) (flow : Flow)
    (before : List StmtId) (cursor : BlockId) (next : Nat) (frame : Option LoopFrame)
    (out : List BlockId) : Prop extends context.Stands leg ids flow cursor next frame where
  lays : graph.Lays frame flow cursor next (before.map (.append cursor))
    (out.map (.link (flow.finish cursor next)))
  inside : ∀ inner, frame = some inner → ∃ loop inHeader entry, leg.loop = some loop ∧
    graph.Shows inner.header (inHeader ++ [loop]) [entry, inner.exit] false

namespace Fits

variable {context : Context} {graph : Graph} {leg leg' : Leg} {ids before : List StmtId}
  {flow body orelse rest : Flow} {cursor : BlockId} {next : Nat} {frame : Option LoopFrame}
  {out : List BlockId} {id : StmtId} {stmt : Stmt} {rule : Rule}

theorem framed (fits : context.Fits graph leg ids flow before cursor next frame out) :
    frame.isSome = leg.state.inLoop := by
  rw [← fits.frame_eq, WalkState.inLoop]
  cases leg.state.loops <;> rfl

theorem realizes (fits : context.Fits graph leg ids flow before cursor next frame out) :
    graph.Realizes frame flow before cursor (flow.finish cursor next) out :=
  realizes_of_lays fits.reads fits.framed fits.old fits.lays

theorem successors_last (fits : context.Fits graph leg ids flow before cursor next frame out)
    {last : BlockId} (ends : context.Ends leg last) : graph.successors last = out := by
  obtain ⟨_, _, walked⟩ := ends
  rw [(laid_of_walkSeq fits.ready walked).2.last_eq, fits.flow_eq, fits.cursor_eq, fits.next_eq]
  exact fits.realizes.last_successors

theorem begins (fits : context.Fits graph leg ids flow [] cursor next frame out)
    (placed : graph.Placed) : graph.Begins leg := by
  intro first others here
  obtain rfl := fits.ids_eq.symm.trans here
  obtain ⟨more, split⟩ := fits.realizes.first_prefix fits.reads
  rw [placed.blockOf?_iff, fits.cursor_eq, ← split]
  exact ⟨rfl, List.mem_cons_self⟩

theorem inside_of_leads {way : Way}
    (fits : context.Fits graph leg ids flow before cursor next frame out)
    (leads : context.Leads way leg leg') (notTurn : way ≠ .turn) :
    ∀ inner, frame = some inner → ∃ loop inHeader entry, leg'.loop = some loop ∧
      graph.Shows inner.header (inHeader ++ [loop]) [entry, inner.exit] false := by
  rw [leads.loop_eq, if_neg notTurn]
  exact fits.inside

theorem step {deferred : Bool} (fits : context.Fits graph leg (id :: ids) (.step id deferred rest)
      before cursor next frame out) :
    ∃ behind, context.Leads .onward leg behind ∧
      context.Fits graph behind ids rest (before ++ [id]) cursor next frame out := by
  obtain ⟨behind, leads, stands⟩ := fits.toStands.step
  refine ⟨behind, leads, stands, ?_, fits.inside_of_leads leads (by decide)⟩
  rw [List.map_append]
  exact Flow.lays_step fits.lays

theorem jump {kind : Jump} (fits : context.Fits graph leg (id :: ids) (.jump kind id rest) before
      cursor next frame out) :
    graph.successors cursor = kind.targets frame ∧
      ∃ behind, context.Leads .onward leg behind ∧
        context.Fits graph behind ids rest [] ⟨next⟩ (next + 1) frame out := by
  obtain ⟨behind, leads, stands⟩ := fits.toStands.jump
  exact ⟨(Flow.shows_jump (Flow.holds_jump fits.old fits.lays)).successors_eq, behind, leads,
    stands, Flow.lays_jump_rest fits.old fits.lays, fits.inside_of_leads leads (by decide)⟩

theorem branch (fits : context.Fits graph leg (id :: ids) (.branch id body orelse rest) before
      cursor next frame out) :
    ∃ stmt inBody inOrelse behind join, context.Treats id stmt .branch ∧
      context.Leads .body leg inBody ∧ context.Leads .orelse leg inOrelse ∧
      context.Leads .onward leg behind ∧ graph.successors cursor = [⟨next⟩, ⟨next + 1⟩] ∧
      context.Fits graph inBody stmt.body body [] ⟨next⟩ (next + 2) frame [join] ∧
      context.Fits graph inOrelse stmt.orelse orelse [] ⟨next + 1⟩ (next + 2 + body.width) frame
        [join] ∧
      context.Fits graph behind ids rest [] join (next + 3 + body.width + orelse.width) frame
        out := by
  obtain ⟨stmt, inBody, inOrelse, behind, treats, toBody, toOrelse, onward, inBodyStands,
    inOrelseStands, behindStands⟩ := fits.toStands.branch
  exact ⟨stmt, inBody, inOrelse, behind, _, treats, toBody, toOrelse, onward,
    (Flow.holds_branch fits.old fits.lays).shows_fork.successors_eq,
    ⟨inBodyStands, Flow.lays_branch_body fits.old fits.lays,
      fits.inside_of_leads toBody (by decide)⟩,
    ⟨inOrelseStands, Flow.lays_branch_orelse fits.old fits.lays,
      fits.inside_of_leads toOrelse (by decide)⟩,
    ⟨behindStands, Flow.lays_branch_rest fits.old fits.lays,
      fits.inside_of_leads onward (by decide)⟩⟩

theorem loop (fits : context.Fits graph leg (id :: ids) (.loop id body rest) before cursor next
      frame out) :
    ∃ stmt inBody behind exit, context.Treats id stmt .loop ∧ context.Leads .turn leg inBody ∧
      context.Leads .onward leg behind ∧ graph.successors cursor = [⟨next⟩, exit] ∧
      context.Fits graph inBody stmt.body body [] ⟨next⟩ (next + 2) (some ⟨cursor, exit⟩)
        [cursor, exit] ∧
      context.Fits graph behind ids rest [] exit (next + 2 + body.width) frame out := by
  obtain ⟨stmt, inBody, behind, treats, toBody, onward, inBodyStands, behindStands⟩ :=
    fits.toStands.loop
  have header := (Flow.holds_loop fits.old fits.lays).shows_fork
  refine ⟨stmt, inBody, behind, _, treats, toBody, onward, header.successors_eq,
    ⟨inBodyStands, Flow.lays_loop_body fits.old fits.lays, ?_⟩,
    ⟨behindStands, Flow.lays_loop_rest fits.old fits.lays,
      fits.inside_of_leads onward (by decide)⟩⟩
  rintro _ ⟨⟩
  exact ⟨id, before, _, by rw [toBody.loop_eq, fits.ids_eq]; rfl, header⟩

/-- A leg inside a loop has a loop statement around it, and the block of that statement is
    the header of the innermost loop. -/
theorem encloses {inner : LoopFrame}
    (fits : context.Fits graph leg ids flow before cursor next (some inner) out)
    (placed : graph.Placed) : graph.Encloses leg inner.header inner.exit := by
  obtain ⟨loop, inHeader, entry, around, header⟩ := fits.inside inner rfl
  refine ⟨loop, entry, around, (placed.blockOf?_iff _ _).mpr ?_, header.successors_eq⟩
  simp [header.statements_eq]

theorem edges (fits : context.Fits graph leg (id :: ids) flow before cursor next frame out)
    (placed : graph.Placed) (treats : context.Treats id stmt rule) :
    context.Edges graph leg stmt rule := by
  have reads := fits.reads.of_treats treats
  cases rule with
  | sequential | deferred | returns | unsupported => trivial
  | branch =>
      obtain ⟨_, _, _, rfl, _⟩ := reads
      obtain ⟨stmt', inBody, inOrelse, behind, join, treats', toBody, toOrelse, onward, successors,
        bodyFits, orelseFits, behindFits⟩ := fits.branch
      obtain ⟨rfl, _⟩ := treats.unique treats'
      obtain ⟨bodyEnd, bodyEnds⟩ := bodyFits.ran
      obtain ⟨orelseEnd, orelseEnds⟩ := orelseFits.ran
      refine ⟨inBody, inOrelse, behind, bodyEnd, orelseEnd, toBody, toOrelse, onward,
        bodyFits.ids_eq, orelseFits.ids_eq, ?_, bodyEnds, orelseEnds, ?_, bodyFits.begins placed,
        orelseFits.begins placed, ?_, ?_, behindFits.begins placed⟩
      · rw [behindFits.ids_eq, fits.ids_eq, List.tail_cons]
      · rw [fits.cursor_eq, bodyFits.cursor_eq, orelseFits.cursor_eq, successors]
      · rw [behindFits.cursor_eq, bodyFits.successors_last bodyEnds]
      · rw [behindFits.cursor_eq, orelseFits.successors_last orelseEnds]
  | loop =>
      obtain ⟨_, _, rfl, _⟩ := reads
      obtain ⟨stmt', inBody, behind, exit, treats', toBody, onward, successors, bodyFits,
        behindFits⟩ := fits.loop
      obtain ⟨rfl, _⟩ := treats.unique treats'
      obtain ⟨bodyEnd, bodyEnds⟩ := bodyFits.ran
      refine ⟨inBody, behind, bodyEnd, toBody, onward, bodyFits.ids_eq, ?_, bodyEnds, ?_,
        bodyFits.begins placed, ?_, behindFits.begins placed⟩
      · rw [behindFits.ids_eq, fits.ids_eq, List.tail_cons]
      · rw [fits.cursor_eq, bodyFits.cursor_eq, behindFits.cursor_eq, successors]
      · rw [fits.cursor_eq, behindFits.cursor_eq, bodyFits.successors_last bodyEnds]
  | breaks | continues =>
      obtain ⟨inLoop, _, rfl, _⟩ := reads
      obtain ⟨inner, rfl⟩ := Option.isSome_iff_exists.mp (fits.framed.trans inLoop)
      refine ⟨inner.header, inner.exit, fits.encloses placed, ?_⟩
      rw [fits.cursor_eq, fits.jump.1]
      rfl

end Fits

/-- Some flow was laid out where a leg stands, as the finished graph shows. -/
def Shown (context : Context) (graph : Graph) (leg : Leg) : Prop :=
  ∃ ids flow before cursor next frame out,
    context.Fits graph leg ids flow before cursor next frame out

section Build

variable {context : Context} {start : Numbering} {body : List StmtId} {log log' : Log}
  {graph : Graph} {leg leg' : Leg}

theorem Shown.onward (shown : context.Shown graph leg) (leads : context.Leads .onward leg leg') :
    context.Shown graph leg' := by
  obtain ⟨ids, flow, before, cursor, next, frame, out, fits⟩ := shown
  have reads := fits.reads
  generalize leg.state.inLoop = inLoop at reads
  cases reads with
  | done =>
      have none := fits.ids_eq
      cases leads
      cases none
  | plain | deferred =>
      obtain ⟨_, leads', further⟩ := fits.step
      exact leads.unique leads' ▸ ⟨_, _, _, _, _, _, _, further⟩
  | returns | breaks | continues =>
      obtain ⟨_, _, leads', further⟩ := fits.jump
      exact leads.unique leads' ▸ ⟨_, _, _, _, _, _, _, further⟩
  | branch =>
      obtain ⟨_, _, _, _, _, _, _, _, leads', _, _, _, further⟩ := fits.branch
      exact leads.unique leads' ▸ ⟨_, _, _, _, _, _, _, further⟩
  | loop =>
      obtain ⟨_, _, _, _, _, _, leads', _, _, further⟩ := fits.loop
      exact leads.unique leads' ▸ ⟨_, _, _, _, _, _, _, further⟩

/-- Whichever way the walk takes from a leg, the graph shows where it comes to. -/
theorem Shown.step {way : Way} (shown : context.Shown graph leg)
    (leads : context.Leads way leg leg') : context.Shown graph leg' := by
  have ⟨_, _, _, _, _, _, _, fits⟩ := shown
  cases leads with
  | onward walked => exact shown.onward (.onward walked)
  | body treats forked =>
      obtain rfl := fits.ids_eq
      obtain ⟨_, _, _, rfl, _⟩ := fits.reads.of_treats treats
      obtain ⟨_, _, _, _, _, _, leads', _, _, _, further, _⟩ := fits.branch
      exact leads'.unique (.body treats forked) ▸ ⟨_, _, _, _, _, _, _, further⟩
  | orelse treats forked walked =>
      obtain rfl := fits.ids_eq
      obtain ⟨_, _, _, rfl, _⟩ := fits.reads.of_treats treats
      obtain ⟨_, _, _, _, _, _, _, leads', _, _, _, further, _⟩ := fits.branch
      exact leads'.unique (.orelse treats forked walked) ▸ ⟨_, _, _, _, _, _, _, further⟩
  | turn treats forked =>
      obtain rfl := fits.ids_eq
      obtain ⟨_, _, rfl, _⟩ := fits.reads.of_treats treats
      obtain ⟨_, _, _, _, _, leads', _, _, further, _⟩ := fits.loop
      exact leads'.unique (.turn treats forked) ▸ ⟨_, _, _, _, _, _, _, further⟩

theorem Passes.shown (success : context.build start body log = .ok graph log')
    (passes : context.Passes start body log leg) : context.Shown graph leg := by
  induction passes with
  | first =>
      obtain ⟨_, _, built⟩ := built_of_build success
      exact ⟨_, _, [], _, _, _, [], stands_firstLeg success, built.lays, nofun⟩
  | step _ leads ih => exact ih.step leads

/-- From a leg the walk comes to every statement of its flow. -/
theorem Passes.covers {inLoop : Bool} {ids : List StmtId} {flow : Flow} {cursor : BlockId}
    {next : Nat} {frame : Option LoopFrame} (reads : context.Reads inLoop ids flow)
    (passes : context.Passes start body log leg)
    (stands : context.Stands leg ids flow cursor next frame) {id : StmtId}
    (member : id ∈ flow.stmts) :
    ∃ leg rest, context.Passes start body log leg ∧ leg.ids = id :: rest := by
  induction reads generalizing leg cursor next frame with
  | done => cases member
  | plain _ _ ih | deferred _ _ ih =>
      obtain ⟨_, onward, further⟩ := stands.step
      rcases List.mem_cons.mp member with rfl | member
      · exact ⟨leg, _, passes, stands.ids_eq⟩
      · exact ih (passes.step onward) further member
  | returns _ _ ih | breaks _ _ ih | continues _ _ ih =>
      obtain ⟨_, onward, further⟩ := stands.jump
      rcases List.mem_cons.mp member with rfl | member
      · exact ⟨leg, _, passes, stands.ids_eq⟩
      · exact ih (passes.step onward) further member
  | branch treats _ _ _ ihBody ihOrelse ih =>
      obtain ⟨_, _, _, _, treats', toBody, toOrelse, onward, inBody, inOrelse, further⟩ :=
        stands.branch
      obtain ⟨rfl, _⟩ := treats.unique treats'
      simp only [Flow.stmts, List.mem_cons, List.mem_append] at member
      rcases member with rfl | (member | member) | member
      · exact ⟨leg, _, passes, stands.ids_eq⟩
      · exact ihBody (passes.step toBody) inBody member
      · exact ihOrelse (passes.step toOrelse) inOrelse member
      · exact ih (passes.step onward) further member
  | loop treats _ _ ihBody ih =>
      obtain ⟨_, _, _, treats', toBody, onward, inBody, further⟩ := stands.loop
      obtain ⟨rfl, _⟩ := treats.unique treats'
      simp only [Flow.stmts, List.mem_cons, List.mem_append] at member
      rcases member with rfl | member | member
      · exact ⟨leg, _, passes, stands.ids_eq⟩
      · exact ihBody (passes.step toBody) inBody member
      · exact ih (passes.step onward) further member

/-- In a built graph the edges at every statement follow the statement tree, when no
    statement is visited twice. -/
theorem edges_follow_tree (success : context.build start body log = .ok graph log')
    (once : (context.visited body).Nodup) :
    (∀ id ∈ context.visited body, ∃ leg ids, context.Passes start body log leg ∧
      leg.ids = id :: ids) ∧
    ∀ leg id ids, context.Passes start body log leg → leg.ids = id :: ids →
      graph.blockOf? id = some leg.cursor ∧
      ∀ stmt rule, context.Treats id stmt rule → context.Edges graph leg stmt rule := by
  obtain ⟨_, _, built⟩ := built_of_build success
  have placed := built.placed once
  constructor
  · intro id visited
    rw [built.stmts_eq] at visited
    exact Passes.first.covers built.reads (stands_firstLeg success) visited
  · intro leg id ids passes here
    obtain ⟨_, _, _, _, _, _, _, fits⟩ := passes.shown success
    obtain rfl := fits.ids_eq.symm.trans here
    have listed : id ∈ graph.statements leg.cursor := by
      rw [fits.cursor_eq]
      exact (fits.realizes.first_prefix fits.reads).subset (by simp)
    exact ⟨(placed.blockOf?_iff _ _).mpr listed, fun _ _ => fits.edges placed⟩

/-- A loop in a loop, and behind it a branch with a jump in dead code. -/
def nestedLoops : Context where
  pool := { slots := #[⟨0, none⟩, ⟨1, some (.whileLoop 1 [⟨2, 1⟩, ⟨4, 1⟩])⟩,
    ⟨1, some (.forEach 2 [⟨3, 1⟩])⟩, ⟨1, some (.continueAt 3)⟩,
    ⟨1, some (.ifElse 4 [⟨5, 1⟩, ⟨6, 1⟩] [])⟩, ⟨1, some (.returnAt 5)⟩,
    ⟨1, some (.breakAt 6)⟩] }
  dialect := .python3
  maxDepth := 2

theorem edges_follow_tree_nestedLoops :
    ∃ graph log, nestedLoops.build {} [⟨1, 1⟩] #[] = .ok graph log ∧
      (nestedLoops.visited [⟨1, 1⟩]).Nodup ∧
      ∃ leg ids, nestedLoops.Passes {} [⟨1, 1⟩] #[] leg ∧ leg.ids = ⟨6, 1⟩ :: ids ∧
        graph.blockOf? ⟨6, 1⟩ = some leg.cursor ∧
        nestedLoops.Edges graph leg (.breakAt 6) .breaks := by
  have success : ∃ graph log, nestedLoops.build {} [⟨1, 1⟩] #[] = .ok graph log :=
    build_succeeds (by decide) (by decide) #[]
  obtain ⟨graph, log, success⟩ := success
  obtain ⟨covered, follow⟩ := edges_follow_tree success (by decide)
  obtain ⟨leg, ids, passes, here⟩ := covered ⟨6, 1⟩ (by decide)
  obtain ⟨placed, edges⟩ := follow leg ⟨6, 1⟩ ids passes here
  exact ⟨graph, log, success, by decide, leg, ids, passes, here, placed,
    edges (.breakAt 6) .breaks ⟨rfl, rfl⟩⟩

end Build

end Context

end FlowGraph
