import Mathlib.Data.List.DropRight
import FlowGraph.Proofs.Edges
import FlowGraph.Proofs.Exits
import FlowGraph.Proofs.Numbering

/-! # What a loop runs again

A loop gets no block of its own: the block that the walk is in when it comes to the loop becomes
the header. So the header also lists the plain statements and the definitions that stand right
before the loop in its sequence, back to the last branch, loop or jump. Control that comes back
to the loop from a continue or from the end of the body runs all of them again, and nothing else
of what is before the loop.
-/

namespace FlowGraph

namespace Context

instance (context : Context) : DecidablePred context.GoesOn :=
  fun _ => inferInstanceAs (Decidable (_ ∨ _))

/-- The statements at the end of a sequence after each of which control simply goes on. -/
def straight (context : Context) (passed : List StmtId) : List StmtId :=
  passed.rtakeWhile fun id => context.GoesOn id

/-- Where a walk is: the leg, what it has passed of the sequence of the leg, and the leg that the
    innermost loop around the sequence begins. -/
structure Place where
  loop : Option Leg
  passed : List StmtId
  leg : Leg

/-- The places to which the walk of a body comes. -/
inductive Arrives (context : Context) (start : Numbering) (body : List StmtId) (log : Log) :
    Place → Prop where
  | first : Arrives context start body log ⟨none, [], context.firstLeg start body log⟩
  | onward {loop passed leg id ids behind} : Arrives context start body log ⟨loop, passed, leg⟩ →
      leg.ids = id :: ids → context.Leads .onward leg behind →
      Arrives context start body log ⟨loop, passed ++ [id], behind⟩
  | arm {way loop passed leg inner} : Arrives context start body log ⟨loop, passed, leg⟩ →
      way = .body ∨ way = .orelse → context.Leads way leg inner →
      Arrives context start body log ⟨loop, [], inner⟩
  | turn {loop passed leg inner} : Arrives context start body log ⟨loop, passed, leg⟩ →
      context.Leads .turn leg inner → Arrives context start body log ⟨some leg, [], inner⟩

variable {context : Context} {start : Numbering} {body : List StmtId} {log log' : Log}
  {graph : Graph} {place : Place} {passed : List StmtId} {id : StmtId} {stmt : Stmt} {rule : Rule}

theorem straight_append_of_goesOn (goesOn : context.GoesOn id) :
    context.straight (passed ++ [id]) = context.straight passed ++ [id] :=
  List.rtakeWhile_concat_pos _ _ _ (decide_eq_true goesOn)

theorem straight_append_of_not (halts : ¬ context.GoesOn id) :
    context.straight (passed ++ [id]) = [] :=
  List.rtakeWhile_concat_neg _ _ _ (by simpa only [decide_eq_true_eq] using halts)

theorem goesOn_of_mem_straight (member : id ∈ context.straight passed) : context.GoesOn id := by
  have ruled := List.mem_rtakeWhile_imp (p := fun id => decide (context.GoesOn id)) member
  exact of_decide_eq_true ruled

theorem Treats.not_goesOn (treats : context.Treats id stmt rule) (notPlain : rule ≠ .sequential)
    (notDeferred : rule ≠ .deferred) : ¬ context.GoesOn id := by
  rintro (ruled | ruled)
  · exact notPlain (Option.some.inj (treats.rule?_eq.symm.trans ruled))
  · exact notDeferred (Option.some.inj (treats.rule?_eq.symm.trans ruled))

/-- The graph shows the leg of a place behind the statements that stand straight before it, with
    the header of the innermost loop around it. -/
def Matches (context : Context) (graph : Graph) (place : Place) : Prop :=
  ∃ ids flow cursor next frame out,
    context.Fits graph place.leg ids flow (context.straight place.passed) cursor next frame out ∧
      frame.map LoopFrame.header = place.loop.map Leg.cursor

namespace Matches

theorem onward {behind : Leg} {ids : List StmtId} (matched : context.Matches graph place)
    (here : place.leg.ids = id :: ids) (leads : context.Leads .onward place.leg behind) :
    context.Matches graph ⟨place.loop, place.passed ++ [id], behind⟩ := by
  obtain ⟨_, flow, cursor, next, frame, out, fits, framed⟩ := matched
  obtain rfl := fits.ids_eq.symm.trans here
  have reads := fits.reads
  generalize place.leg.state.inLoop = inLoop at reads
  cases reads with
  | plain treats _ =>
      obtain ⟨_, leads', further⟩ := fits.step
      obtain rfl := leads.unique leads'
      rw [← straight_append_of_goesOn (.inl treats.rule?_eq)] at further
      exact ⟨_, _, _, _, _, _, further, framed⟩
  | deferred treats _ =>
      obtain ⟨_, leads', further⟩ := fits.step
      obtain rfl := leads.unique leads'
      rw [← straight_append_of_goesOn (.inr treats.rule?_eq)] at further
      exact ⟨_, _, _, _, _, _, further, framed⟩
  | returns treats _ | breaks treats _ | continues treats _ =>
      obtain ⟨_, _, leads', further⟩ := fits.jump
      obtain rfl := leads.unique leads'
      rw [← straight_append_of_not (treats.not_goesOn (by decide) (by decide))] at further
      exact ⟨_, _, _, _, _, _, further, framed⟩
  | branch treats _ _ _ =>
      obtain ⟨_, _, _, _, _, _, _, _, leads', _, _, _, further⟩ := fits.branch
      obtain rfl := leads.unique leads'
      rw [← straight_append_of_not (treats.not_goesOn (by decide) (by decide))] at further
      exact ⟨_, _, _, _, _, _, further, framed⟩
  | loop treats _ _ =>
      obtain ⟨_, _, _, _, _, _, leads', _, _, further⟩ := fits.loop
      obtain rfl := leads.unique leads'
      rw [← straight_append_of_not (treats.not_goesOn (by decide) (by decide))] at further
      exact ⟨_, _, _, _, _, _, further, framed⟩

theorem arm {way : Way} {inner : Leg} (matched : context.Matches graph place)
    (inArm : way = .body ∨ way = .orelse) (leads : context.Leads way place.leg inner) :
    context.Matches graph ⟨place.loop, [], inner⟩ := by
  obtain ⟨loop, passed, leg⟩ := place
  obtain ⟨_, flow, cursor, next, frame, out, fits, framed⟩ := matched
  cases leads with
  | onward | turn => simp at inArm
  | body treats forked =>
      obtain rfl := fits.ids_eq
      obtain ⟨_, _, _, rfl, _⟩ := fits.reads.of_treats treats
      obtain ⟨_, _, _, _, _, _, leads', _, _, _, further, _⟩ := fits.branch
      exact leads'.unique (.body treats forked) ▸ ⟨_, _, _, _, _, _, further, framed⟩
  | orelse treats forked walked =>
      obtain rfl := fits.ids_eq
      obtain ⟨_, _, _, rfl, _⟩ := fits.reads.of_treats treats
      obtain ⟨_, _, _, _, _, _, _, leads', _, _, _, further, _⟩ := fits.branch
      exact leads'.unique (.orelse treats forked walked) ▸ ⟨_, _, _, _, _, _, further, framed⟩

theorem turn {inner : Leg} (matched : context.Matches graph place)
    (leads : context.Leads .turn place.leg inner) :
    context.Matches graph ⟨some place.leg, [], inner⟩ := by
  obtain ⟨loop, passed, leg⟩ := place
  obtain ⟨_, flow, cursor, next, frame, out, fits, framed⟩ := matched
  cases leads with
  | turn treats forked =>
      obtain rfl := fits.ids_eq
      obtain ⟨_, _, rfl, _⟩ := fits.reads.of_treats treats
      obtain ⟨_, _, _, _, _, leads', _, _, further, _⟩ := fits.loop
      obtain rfl := leads'.unique (.turn treats forked)
      exact ⟨_, _, _, _, _, _, further, congrArg some fits.cursor_eq.symm⟩

end Matches

theorem Arrives.matched (success : context.build start body log = .ok graph log')
    (arrives : context.Arrives start body log place) : context.Matches graph place := by
  induction arrives with
  | first =>
      obtain ⟨_, _, built⟩ := built_of_build success
      exact ⟨_, _, _, _, _, [], ⟨stands_firstLeg success, built.lays, by rintro _ ⟨⟩⟩, rfl⟩
  | onward _ here leads ih => exact ih.onward here leads
  | arm _ inArm leads ih => exact ih.arm inArm leads
  | turn _ leads ih => exact ih.turn leads

namespace Matches

variable {ids : List StmtId}

/-- The block of a loop has the statements that stand straight before the loop, and then the
    loop. From where its body ends control can come back to this block. -/
theorem of_loop (matched : context.Matches graph place) (here : place.leg.ids = id :: ids)
    (treats : context.Treats id stmt .loop) :
    graph.statements place.leg.cursor = context.straight place.passed ++ [id] ∧
      ∃ inBody bodyEnd exit, context.Leads .turn place.leg inBody ∧ inBody.ids = stmt.body ∧
        context.Ends inBody bodyEnd ∧ graph.successors bodyEnd = [place.leg.cursor, exit] := by
  obtain ⟨_, flow, cursor, next, frame, out, fits, _⟩ := matched
  obtain rfl := fits.ids_eq.symm.trans here
  obtain ⟨_, _, rfl, _⟩ := fits.reads.of_treats treats
  have header := (Flow.holds_loop fits.old fits.lays).shows_fork
  obtain ⟨_, inBody, _, exit, treats', toBody, _, _, bodyFits, _⟩ := fits.loop
  obtain ⟨rfl, _⟩ := treats.unique treats'
  obtain ⟨bodyEnd, ends⟩ := bodyFits.ran
  rw [fits.cursor_eq]
  exact ⟨header.statements_eq, inBody, bodyEnd, exit, toBody, bodyFits.ids_eq, ends,
    bodyFits.successors_last ends⟩

theorem of_continue (matched : context.Matches graph place) (here : place.leg.ids = id :: ids)
    (treats : context.Treats id stmt .continues) :
    ∃ outer, place.loop = some outer ∧ graph.successors place.leg.cursor = [outer.cursor] := by
  obtain ⟨_, flow, cursor, next, frame, out, fits, framed⟩ := matched
  obtain rfl := fits.ids_eq.symm.trans here
  obtain ⟨inLoop, _, rfl, _⟩ := fits.reads.of_treats treats
  obtain ⟨inner, rfl⟩ := Option.isSome_iff_exists.mp (fits.framed.trans inLoop)
  obtain ⟨outer, around, header_eq⟩ := Option.map_eq_some_iff.mp framed.symm
  refine ⟨outer, around, ?_⟩
  rw [fits.cursor_eq, fits.jump.1, header_eq]
  rfl

end Matches

theorem Arrives.exists_outer {outer : Leg} (arrives : context.Arrives start body log place)
    (around : place.loop = some outer) :
    ∃ loop passed id ids, context.Arrives start body log ⟨loop, passed, outer⟩ ∧
      outer.ids = id :: ids ∧ context.rule? id = some .loop := by
  induction arrives with
  | first => cases around
  | onward _ _ _ ih | arm _ _ _ ih => exact ih around
  | turn arrives leads =>
      cases around
      cases leads with
      | turn treats _ => exact ⟨_, _, _, _, arrives, rfl, treats.rule?_eq⟩

theorem not_goesOn_of_loop (isLoop : context.rule? id = some .loop) : ¬ context.GoesOn id := by
  rintro (ruled | ruled) <;> cases isLoop.symm.trans ruled

theorem eq_of_loop_listed {before : List StmtId} {last : StmtId}
    (goesOn : ∀ id ∈ before, context.GoesOn id) (listed : id ∈ before ++ [last])
    (isLoop : context.rule? id = some .loop) : id = last := by
  rcases List.mem_append.mp listed with earlier | final
  · exact absurd (goesOn id earlier) (not_goesOn_of_loop isLoop)
  · exact List.mem_singleton.mp final

/-- Where a block of a flow lists a loop, the walk comes to that loop in that block. -/
theorem Arrives.covers_loops {inLoop : Bool} {ids before : List StmtId} {flow : Flow}
    {cursor : BlockId} {next : Nat} {frame : Option LoopFrame} {out : List BlockId} {piece : Piece}
    (reads : context.Reads inLoop ids flow) (arrives : context.Arrives start body log place)
    (stands : context.Stands place.leg ids flow cursor next frame)
    (goesOn : ∀ id ∈ before, context.GoesOn id)
    (found : piece ∈ flow.pieces before cursor next frame out) (listed : id ∈ piece.statements)
    (isLoop : context.rule? id = some .loop) :
    ∃ place rest, context.Arrives start body log place ∧ place.leg.ids = id :: rest ∧
      place.leg.cursor = piece.id := by
  have fresh : ∀ id ∈ [], context.GoesOn id := List.forall_mem_nil _
  -- what goes on stays in the cursor, and anything else begins a block that lists nothing yet
  induction reads generalizing place before cursor next frame out with
  | done =>
      obtain rfl := List.mem_singleton.mp found
      exact absurd (goesOn id listed) (not_goesOn_of_loop isLoop)
  | plain treats _ ih =>
      obtain ⟨_, onward, further⟩ := stands.step
      refine ih (arrives.onward stands.ids_eq onward) further ?_ found
      exact List.forall_mem_append.mpr ⟨goesOn, List.forall_mem_singleton.mpr
        (.inl treats.rule?_eq)⟩
  | deferred treats _ ih =>
      obtain ⟨_, onward, further⟩ := stands.step
      refine ih (arrives.onward stands.ids_eq onward) further ?_ found
      exact List.forall_mem_append.mpr ⟨goesOn, List.forall_mem_singleton.mpr
        (.inr treats.rule?_eq)⟩
  | returns treats _ ih | breaks treats _ ih | continues treats _ ih =>
      obtain ⟨_, onward, further⟩ := stands.jump
      rcases List.mem_cons.mp found with rfl | found
      · obtain rfl := eq_of_loop_listed goesOn listed isLoop
        cases isLoop.symm.trans treats.rule?_eq
      · exact ih (arrives.onward stands.ids_eq onward) further fresh found
  | branch treats _ _ _ ihBody ihOrelse ih =>
      obtain ⟨_, _, _, _, treats', toBody, toOrelse, onward, inBody, inOrelse, further⟩ :=
        stands.branch
      obtain ⟨rfl, _⟩ := treats.unique treats'
      simp only [Flow.pieces, List.mem_cons, List.mem_append] at found
      rcases found with rfl | (found | found) | found
      · obtain rfl := eq_of_loop_listed goesOn listed isLoop
        cases isLoop.symm.trans treats.rule?_eq
      · exact ihBody (arrives.arm (.inl rfl) toBody) inBody fresh found
      · exact ihOrelse (arrives.arm (.inr rfl) toOrelse) inOrelse fresh found
      · exact ih (arrives.onward stands.ids_eq onward) further fresh found
  | loop treats _ _ ihBody ih =>
      obtain ⟨_, _, _, treats', toBody, onward, inBody, further⟩ := stands.loop
      obtain ⟨rfl, _⟩ := treats.unique treats'
      simp only [Flow.pieces, List.mem_cons, List.mem_append] at found
      rcases found with rfl | found | found
      · obtain rfl := eq_of_loop_listed goesOn listed isLoop
        exact ⟨place, _, arrives, stands.ids_eq, stands.cursor_eq⟩
      · exact ihBody (arrives.turn toBody) inBody fresh found
      · exact ih (arrives.onward stands.ids_eq onward) further fresh found

theorem Built.exists_place {last : BlockId} {loop : StmtId} {id : BlockId}
    (built : context.Built start body last graph)
    (success : context.build start body log = .ok graph log')
    (isLoop : context.rule? loop = some .loop) (listed : loop ∈ graph.statements id) :
    ∃ place rest, context.Arrives start body log place ∧ place.leg.ids = loop :: rest ∧
      place.leg.cursor = id := by
  have known := (Graph.mem_ids built.sound).mpr (Graph.contains_of_mem_statements listed)
  obtain ⟨piece, found, rfl⟩ := List.mem_map.mp (built.perm_ids.mem_iff.mpr known)
  rw [(built.shows piece found).statements_eq] at listed
  exact Arrives.first.covers_loops built.reads (stands_firstLeg success) (List.forall_mem_nil _)
    found listed isLoop

/-- The block of a loop has the plain statements and the definitions that stand straight before
    the loop, and then the loop, and control comes back to this block from where the body of the
    loop ends and from each continue. So all of these statements are run again with the loop, and
    the loop is the first of its block only if there are none. -/
theorem loops_rerun_what_is_straight_before
    (success : context.build start body log = .ok graph log') :
    (∀ loop id, context.rule? loop = some .loop →
      graph.blockOf? loop = some id ∨ loop ∈ graph.statements id →
      ∃ place rest, context.Arrives start body log place ∧ place.leg.ids = loop :: rest ∧
        place.leg.cursor = id) ∧
    (∀ place loop rest stmt, context.Arrives start body log place →
      place.leg.ids = loop :: rest → context.Treats loop stmt .loop →
      graph.statements place.leg.cursor = context.straight place.passed ++ [loop] ∧
      ((graph.statements place.leg.cursor).head? = some loop ↔
        context.straight place.passed = []) ∧
      ∃ inBody bodyEnd exit, context.Leads .turn place.leg inBody ∧ inBody.ids = stmt.body ∧
        context.Ends inBody bodyEnd ∧ graph.successors bodyEnd = [place.leg.cursor, exit]) ∧
    ∀ place jump rest, context.Arrives start body log place → place.leg.ids = jump :: rest →
      context.rule? jump = some .continues →
      ∃ outer loop ids, context.Arrives start body log outer ∧ place.loop = some outer.leg ∧
        outer.leg.ids = loop :: ids ∧ context.rule? loop = some .loop ∧
        graph.successors place.leg.cursor = [outer.leg.cursor] := by
  obtain ⟨_, _, built⟩ := built_of_build success
  refine ⟨?_, ?_, ?_⟩
  · intro loop id isLoop placed
    apply built.exists_place success isLoop
    exact placed.elim (regular_of_build success).statements_of_blockOf? fun listed => listed
  · intro place loop rest stmt arrives here treats
    obtain ⟨statements_eq, comesBack⟩ := (arrives.matched success).of_loop here treats
    refine ⟨statements_eq, ?_, comesBack⟩
    rw [statements_eq]
    cases before : context.straight place.passed with
    | nil => simp
    | cons first others =>
        have goesOn : context.GoesOn first := goesOn_of_mem_straight (before ▸ List.mem_cons_self)
        have notLoop : first ≠ loop := by
          rintro rfl
          exact not_goesOn_of_loop treats.rule?_eq goesOn
        simp [notLoop]
  · intro place jump rest arrives here continues
    obtain ⟨stmt, kept, treated⟩ := Option.bind_eq_some_iff.mp continues
    obtain ⟨outer, around, target⟩ :=
      (arrives.matched success).of_continue here ⟨kept, treated⟩
    obtain ⟨loop, passed, id, ids, comes, first, isLoop⟩ := arrives.exists_outer around
    exact ⟨⟨loop, passed, outer⟩, id, ids, comes, around, first, isLoop, target⟩

/-- A loop behind a plain statement. -/
def primedLoop : Context where
  pool := { slots := #[⟨0, none⟩, ⟨1, some (.simple .pass 1)⟩,
    ⟨1, some (.whileLoop 2 [⟨3, 1⟩])⟩, ⟨1, some (.simple .pass 3)⟩] }
  dialect := .python3

theorem loops_rerun_what_is_straight_before_primedLoop :
    ∃ graph log place rest, primedLoop.build {} [⟨1, 1⟩, ⟨2, 1⟩] #[] = .ok graph log ∧
      graph.blockOf? ⟨2, 1⟩ = some place.leg.cursor ∧
      primedLoop.Arrives {} [⟨1, 1⟩, ⟨2, 1⟩] #[] place ∧ place.leg.ids = ⟨2, 1⟩ :: rest ∧
      graph.statements place.leg.cursor = primedLoop.straight place.passed ++ [⟨2, 1⟩] := by
  have evaluated : (primedLoop.build {} [⟨1, 1⟩, ⟨2, 1⟩]).outcome.1.toOption.map
      (·.blockOf? ⟨2, 1⟩) = some (some ⟨0⟩) := by decide +kernel
  obtain ⟨graph, log, success, listed⟩ := BuildM.exists_of_outcome evaluated
  obtain ⟨places, reruns, _⟩ := loops_rerun_what_is_straight_before success
  obtain ⟨place, rest, arrives, here, cursor_eq⟩ := places ⟨2, 1⟩ ⟨0⟩ rfl (.inl listed)
  obtain ⟨statements_eq, _⟩ := reruns place _ rest _ arrives here ⟨rfl, rfl⟩
  exact ⟨graph, log, place, rest, success, cursor_eq ▸ listed, arrives, here, statements_eq⟩

/-- A loop need not be the first statement of its block, and control that comes back to it from
    the end of its body runs what is before it in the block again. -/
theorem loop_behind_others_primedLoop :
    ∃ graph log, primedLoop.build {} [⟨1, 1⟩, ⟨2, 1⟩] #[] = .ok graph log ∧
      primedLoop.rule? ⟨2, 1⟩ = some .loop ∧ graph.blockOf? ⟨2, 1⟩ = some ⟨0⟩ ∧
      (graph.statements ⟨0⟩).head? = some ⟨1, 1⟩ ∧ graph.statements ⟨1⟩ = [⟨3, 1⟩] ∧
      graph.successors ⟨1⟩ = [⟨0⟩, ⟨2⟩] := by
  have evaluated : (primedLoop.build {} [⟨1, 1⟩, ⟨2, 1⟩]).outcome.1.toOption.map
      (fun graph => (graph.blockOf? ⟨2, 1⟩, (graph.statements ⟨0⟩).head?, graph.statements ⟨1⟩,
        graph.successors ⟨1⟩)) =
      some (some ⟨0⟩, some ⟨1, 1⟩, [⟨3, 1⟩], [⟨0⟩, ⟨2⟩]) := by decide +kernel
  obtain ⟨graph, log, success, read⟩ := BuildM.exists_of_outcome evaluated
  simp only [Prod.mk.injEq] at read
  exact ⟨graph, log, success, rfl, read⟩

end Context

end FlowGraph
