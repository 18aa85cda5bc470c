import FlowGraph.Proofs.Placing
import FlowGraph.Proofs.Reachability
import FlowGraph.Proofs.Shape

/-! # Live statements

A statement is live when the statements before it let control fall through to it and
the statement around it is live. The live statements of a body are those whose blocks
can be reached from the entry, and the block where the walk of the body ended can be
reached when the whole body falls through.
-/

namespace FlowGraph

namespace Context

/-- Control that gets to the statement may get behind it, going by its structure alone. -/
inductive FallsThrough (context : Context) : StmtId → Prop where
  | plain {id stmt} : context.Treats id stmt .sequential → FallsThrough context id
  | deferred {id stmt} : context.Treats id stmt .deferred → FallsThrough context id
  | loop {id stmt} : context.Treats id stmt .loop → FallsThrough context id
  | body {id stmt} : context.Treats id stmt .branch →
      (∀ inner ∈ stmt.body, FallsThrough context inner) → FallsThrough context id
  | orelse {id stmt} : context.Treats id stmt .branch →
      (∀ inner ∈ stmt.orelse, FallsThrough context inner) → FallsThrough context id

/-- A sequence that is walked as a part of a statement. -/
inductive Encloses (context : Context) : StmtId → List StmtId → Prop where
  | body {id stmt} : context.Treats id stmt .branch → Encloses context id stmt.body
  | orelse {id stmt} : context.Treats id stmt .branch → Encloses context id stmt.orelse
  | loop {id stmt} : context.Treats id stmt .loop → Encloses context id stmt.body

/-- Every statement before it in its sequence falls through, and the statement around
    it, if there is one, is live. -/
inductive Live (context : Context) (body : List StmtId) : StmtId → Prop where
  | outer {id before behind} : body = before ++ id :: behind →
      (∀ earlier ∈ before, context.FallsThrough earlier) → Live context body id
  | nested {id around ids before behind} : Live context body around →
      context.Encloses around ids → ids = before ++ id :: behind →
      (∀ earlier ∈ before, context.FallsThrough earlier) → Live context body id

end Context

namespace Flow

def falls : Flow → Bool
  | done => true
  | step _ _ rest => rest.falls
  | branch _ body orelse rest => (body.falls || orelse.falls) && rest.falls
  | loop _ _ rest => rest.falls
  | jump _ _ _ => false

def live : Flow → List StmtId
  | done => []
  | step id _ rest => id :: rest.live
  | branch id body orelse rest =>
      id :: (body.live ++ orelse.live ++ if body.falls || orelse.falls then rest.live else [])
  | loop id body rest => id :: (body.live ++ rest.live)
  | jump _ id _ => [id]

theorem mem_live_step {stmt id : StmtId} {before : List StmtId} {deferred : Bool} {rest : Flow}
    (h : stmt ∈ before ++ [id] ∨ stmt ∈ rest.live) :
    stmt ∈ before ∨ stmt ∈ (step id deferred rest).live := by
  simpa [live, or_assoc] using h

end Flow

namespace Context

variable {context : Context} {inLoop : Bool} {id : StmtId} {stmt : Stmt} {ids body : List StmtId}
  {flow : Flow}

theorem fallsThrough_branch (treats : context.Treats id stmt .branch) :
    context.FallsThrough id ↔ (∀ inner ∈ stmt.body, context.FallsThrough inner) ∨
      ∀ inner ∈ stmt.orelse, context.FallsThrough inner := by
  constructor
  · intro falls
    cases falls with
    | plain treats' | deferred treats' | loop treats' => cases (treats.unique treats').2
    | body treats' all =>
        obtain ⟨rfl, _⟩ := treats.unique treats'
        exact .inl all
    | orelse treats' all =>
        obtain ⟨rfl, _⟩ := treats.unique treats'
        exact .inr all
  · rintro (all | all)
    · exact .body treats all
    · exact .orelse treats all

theorem not_fallsThrough {rule : Rule} (treats : context.Treats id stmt rule)
    (jump : rule = .returns ∨ rule = .breaks ∨ rule = .continues) : ¬ context.FallsThrough id := by
  intro falls
  cases falls with
  | plain treats' | deferred treats' | loop treats' | body treats' _ | orelse treats' _ =>
      obtain ⟨_, rfl⟩ := treats.unique treats'
      simp at jump

theorem falls_iff (reads : context.Reads inLoop ids flow) :
    flow.falls = true ↔ ∀ id ∈ ids, context.FallsThrough id := by
  induction reads with
  | done => simp [Flow.falls]
  | plain treats _ ih => simp [Flow.falls, ih, FallsThrough.plain treats]
  | deferred treats _ ih => simp [Flow.falls, ih, FallsThrough.deferred treats]
  | loop treats _ _ _ ih => simp [Flow.falls, ih, FallsThrough.loop treats]
  | branch treats _ _ _ ihBody ihOrelse ihRest =>
      rw [List.forall_mem_cons, fallsThrough_branch treats, ← ihBody, ← ihOrelse, ← ihRest]
      simp [Flow.falls]
  | returns treats _ _ => simp [Flow.falls, not_fallsThrough treats]
  | breaks treats _ _ => simp [Flow.falls, not_fallsThrough treats]
  | continues treats _ _ => simp [Flow.falls, not_fallsThrough treats]

theorem mem_live_of_falls {before behind : List StmtId}
    (reads : context.Reads inLoop (before ++ id :: behind) flow)
    (falls : ∀ earlier ∈ before, context.FallsThrough earlier) : id ∈ flow.live := by
  induction before generalizing flow with
  | nil => cases reads <;> simp [Flow.live]
  | cons first before ih =>
      rw [List.forall_mem_cons] at falls
      cases reads with
      | plain _ rest | deferred _ rest => exact List.mem_cons_of_mem _ (ih rest falls.2)
      | loop _ _ rest =>
          exact List.mem_cons_of_mem _ (List.mem_append_right _ (ih rest falls.2))
      | branch treats body orelse rest =>
          have through := (fallsThrough_branch treats).mp falls.1
          rw [← falls_iff body, ← falls_iff orelse, ← Bool.or_eq_true] at through
          simp [Flow.live, through, ih rest falls.2]
      | returns treats _ => exact absurd falls.1 (not_fallsThrough treats (by simp))
      | breaks treats _ => exact absurd falls.1 (not_fallsThrough treats (by simp))
      | continues treats _ => exact absurd falls.1 (not_fallsThrough treats (by simp))

theorem mem_live_of_encloses {around : StmtId} {inner before behind : List StmtId}
    (reads : context.Reads inLoop ids flow) (live : around ∈ flow.live)
    (encloses : context.Encloses around inner) (parts : inner = before ++ id :: behind)
    (falls : ∀ earlier ∈ before, context.FallsThrough earlier) : id ∈ flow.live := by
  induction reads with
  | done => cases live
  | plain treats _ ih | deferred treats _ ih =>
      rcases List.mem_cons.mp live with rfl | live
      · cases encloses with
        | body treats' | orelse treats' | loop treats' => cases (treats.unique treats').2
      · exact List.mem_cons_of_mem _ (ih live)
  | branch treats body orelse _ ihBody ihOrelse ihRest =>
      simp only [Flow.live, List.mem_cons, List.mem_append] at live ⊢
      rcases live with rfl | (live | live) | live
      · cases encloses with
        | loop treats' => cases (treats.unique treats').2
        | body treats' =>
            obtain ⟨rfl, _⟩ := treats.unique treats'
            exact .inr (.inl (.inl (mem_live_of_falls (parts ▸ body) falls)))
        | orelse treats' =>
            obtain ⟨rfl, _⟩ := treats.unique treats'
            exact .inr (.inl (.inr (mem_live_of_falls (parts ▸ orelse) falls)))
      · exact .inr (.inl (.inl (ihBody live)))
      · exact .inr (.inl (.inr (ihOrelse live)))
      · split at live
        · rename_i through
          exact .inr (.inr (by simp only [through, if_true, ihRest live]))
        · cases live
  | loop treats body _ ihBody ihRest =>
      simp only [Flow.live, List.mem_cons, List.mem_append] at live ⊢
      rcases live with rfl | live | live
      · cases encloses with
        | body treats' | orelse treats' => cases (treats.unique treats').2
        | loop treats' =>
            obtain ⟨rfl, _⟩ := treats.unique treats'
            exact .inr (.inl (mem_live_of_falls (parts ▸ body) falls))
      · exact .inr (.inl (ihBody live))
      · exact .inr (.inr (ihRest live))
  | returns treats _ _ | breaks treats _ _ | continues treats _ _ =>
      obtain rfl := List.mem_singleton.mp live
      cases encloses with
      | body treats' | orelse treats' | loop treats' => cases (treats.unique treats').2

/-- Control gets to the statements of a sequence as far as those before them fall through. -/
def Entered (context : Context) (body ids : List StmtId) : Prop :=
  ∀ ⦃id before behind⦄, ids = before ++ id :: behind →
    (∀ earlier ∈ before, context.FallsThrough earlier) → context.Live body id

theorem Entered.first (entered : context.Entered body (id :: ids)) : context.Live body id :=
  @entered id [] ids rfl nofun

theorem Entered.rest (entered : context.Entered body (id :: ids))
    (falls : context.FallsThrough id) : context.Entered body ids := by
  intro other before behind parts earlier
  exact @entered other (id :: before) behind (congrArg (id :: ·) parts)
    (List.forall_mem_cons.mpr ⟨falls, earlier⟩)

theorem Live.entered (live : context.Live body id) (encloses : context.Encloses id ids) :
    context.Entered body ids :=
  fun _ _ _ => .nested live encloses

theorem live_of_mem_live (reads : context.Reads inLoop ids flow)
    (entered : context.Entered body ids) (member : id ∈ flow.live) : context.Live body id := by
  induction reads with
  | done => cases member
  | plain treats _ ih =>
      rcases List.mem_cons.mp member with rfl | member
      · exact entered.first
      · exact ih (entered.rest (.plain treats)) member
  | deferred treats _ ih =>
      rcases List.mem_cons.mp member with rfl | member
      · exact entered.first
      · exact ih (entered.rest (.deferred treats)) member
  | branch treats readsBody readsOrelse _ ihBody ihOrelse ihRest =>
      simp only [Flow.live, List.mem_cons, List.mem_append] at member
      rcases member with rfl | (member | member) | member
      · exact entered.first
      · exact ihBody (entered.first.entered (.body treats)) member
      · exact ihOrelse (entered.first.entered (.orelse treats)) member
      · split at member
        · rename_i through
          rw [Bool.or_eq_true, falls_iff readsBody, falls_iff readsOrelse] at through
          exact ihRest (entered.rest ((fallsThrough_branch treats).mpr through)) member
        · cases member
  | loop treats _ _ ihBody ihRest =>
      simp only [Flow.live, List.mem_cons, List.mem_append] at member
      rcases member with rfl | member | member
      · exact entered.first
      · exact ihBody (entered.first.entered (.loop treats)) member
      · exact ihRest (entered.rest (.loop treats)) member
  | returns _ _ _ | breaks _ _ _ | continues _ _ _ =>
      obtain rfl := List.mem_singleton.mp member
      exact entered.first

theorem mem_live_iff (reads : context.Reads inLoop body flow) :
    id ∈ flow.live ↔ context.Live body id := by
  constructor
  · exact live_of_mem_live reads fun _ _ _ => .outer
  · intro live
    induction live with
    | outer parts falls => exact mem_live_of_falls (parts ▸ reads) falls
    | nested _ encloses parts falls ih => exact mem_live_of_encloses reads ih encloses parts falls

end Context

namespace Graph

variable {graph : Graph} {frame : Option LoopFrame} {flow : Flow} {before : List StmtId}
  {entry cursor last goal : BlockId} {out blocks : List BlockId}

theorem Realizes.before_listed (shape : graph.Realizes frame flow before cursor last out) :
    ∀ stmt ∈ before, stmt ∈ graph.statements cursor := by
  induction shape with
  | done shows => exact fun stmt member => shows.statements_eq ▸ member
  | step _ ih => exact fun stmt member => ih stmt (List.mem_append_left _ member)
  | branch shows _ _ _ _ _ _ | loop shows _ _ _ _ | returns shows _ _ | breaks shows _ _
  | continues shows _ _ =>
      exact fun stmt member => shows.statements_eq ▸ List.mem_append_left _ member

theorem Realizes.last_listed (shape : graph.Realizes frame flow before cursor last out)
    (falls : flow.falls = true) :
    ∀ stmt ∈ graph.statements last, stmt ∈ before ∨ stmt ∈ flow.live := by
  intro stmt member
  induction shape with
  | done shows => exact .inl (shows.statements_eq ▸ member)
  | step _ ih => exact Flow.mem_live_step (ih falls member)
  | branch _ _ _ _ _ _ ih =>
      simp only [Flow.falls, Bool.and_eq_true] at falls
      have live := (ih falls.2 member).resolve_left List.not_mem_nil
      exact .inr (by simp [Flow.live, falls.1, live])
  | loop _ _ _ _ ih =>
      have live := (ih falls member).resolve_left List.not_mem_nil
      exact .inr (by simp [Flow.live, live])
  | returns | breaks | continues => cases falls

/-- When the cursor can be reached, so can the blocks of the live statements, and the end
    of a flow that falls through. -/
theorem Realizes.reaches (shape : graph.Realizes frame flow before cursor last out)
    (reached : graph.Reaches entry cursor) :
    (∀ stmt ∈ flow.live, ∃ block, stmt ∈ graph.statements block ∧ graph.Reaches entry block) ∧
      (flow.falls = true → graph.Reaches entry last) := by
  induction shape with
  | done shows => exact ⟨nofun, fun _ => reached⟩
  | step rest ih =>
      obtain ⟨live, through⟩ := ih reached
      refine ⟨List.forall_mem_cons.mpr ⟨⟨_, ?_, reached⟩, live⟩, through⟩
      exact rest.before_listed _ (List.mem_append_right _ List.mem_cons_self)
  | branch shows left right rest ihLeft ihRight ihRest =>
      have bodyLive := ihLeft (reached.snoc (by simp [shows.successors_eq]))
      have orelseLive := ihRight (reached.snoc (by simp [shows.successors_eq]))
      have restLive := fun either => ihRest <| by
        rcases (Bool.or_eq_true _ _).mp either with falls | falls
        · exact (bodyLive.2 falls).snoc (by simp [left.last_successors])
        · exact (orelseLive.2 falls).snoc (by simp [right.last_successors])
      constructor
      · intro stmt member
        simp only [Flow.live, List.mem_cons, List.mem_append] at member
        rcases member with rfl | (member | member) | member
        · exact ⟨_, by simp [shows.statements_eq], reached⟩
        · exact bodyLive.1 stmt member
        · exact orelseLive.1 stmt member
        · split at member
          · rename_i either
            exact (restLive either).1 stmt member
          · cases member
      · intro falls
        simp only [Flow.falls, Bool.and_eq_true] at falls
        exact (restLive falls.1).2 falls.2
  | loop shows turn rest ihBody ihRest =>
      have bodyLive := ihBody (reached.snoc (by simp [shows.successors_eq]))
      have restLive := ihRest (reached.snoc (by simp [shows.successors_eq]))
      refine ⟨fun stmt member => ?_, restLive.2⟩
      simp only [Flow.live, List.mem_cons, List.mem_append] at member
      rcases member with rfl | member | member
      · exact ⟨_, by simp [shows.statements_eq], reached⟩
      · exact bodyLive.1 stmt member
      · exact restLive.1 stmt member
  | returns shows _ _ | breaks shows _ _ | continues shows _ _ =>
      refine ⟨fun stmt member => ⟨_, ?_, reached⟩, nofun⟩
      obtain rfl := List.mem_singleton.mp member
      simp [shows.statements_eq]

/-- Where a path from the cursor of a flow gets: to a block inside, in which all
    statements are live, to the end of the flow, or out of it by a jump. -/
inductive Gets (graph : Graph) (frame : Option LoopFrame) (flow : Flow) (before : List StmtId)
    (last goal : BlockId) (blocks : List BlockId) : Prop where
  | inside : (∀ stmt ∈ graph.statements goal, stmt ∈ before ∨ stmt ∈ flow.live) →
      graph.successors goal ≠ [] ∨ graph.isTerminal goal = true →
      Gets graph frame flow before last goal blocks
  | through {behind} : flow.falls = true → behind.length < blocks.length →
      graph.Path last goal (last :: behind) → Gets graph frame flow before last goal blocks
  | out {inner behind} : frame = some inner → behind.length < blocks.length →
      graph.Path inner.exit goal behind ∨ graph.Path inner.header goal behind →
      Gets graph frame flow before last goal blocks

theorem Gets.of_part {part : Flow} {more : List BlockId}
    (gets : graph.Gets frame part [] last goal more) (shorter : more.length ≤ blocks.length)
    (live : ∀ stmt ∈ part.live, stmt ∈ flow.live)
    (falls : part.falls = true → flow.falls = true) :
    graph.Gets frame flow before last goal blocks := by
  cases gets with
  | inside listed ways =>
      refine .inside (fun stmt member => .inr (live stmt ?_)) ways
      exact (listed stmt member).resolve_left List.not_mem_nil
  | through through less path => exact .through (falls through) (by omega) path
  | out framed less path => exact .out framed (by omega) path

/-- A path from the end of a part stops there or goes on to what the part leads to. -/
theorem Realizes.onward {part : Flow} {partEnd : BlockId} {behind : List BlockId}
    (shape : graph.Realizes frame part [] cursor partEnd out) (ways : out ≠ [])
    (falls : part.falls = true) (path : graph.Path partEnd goal (partEnd :: behind)) :
    ((∀ stmt ∈ graph.statements goal, stmt ∈ part.live) ∧ graph.successors goal ≠ []) ∨
      ∃ target ∈ out, graph.Path target goal behind := by
  cases path with
  | here =>
      refine .inl ⟨fun stmt member => ?_, shape.last_successors ▸ ways⟩
      exact (shape.last_listed falls stmt member).resolve_left List.not_mem_nil
  | step edge rest => exact .inr ⟨_, shape.last_successors ▸ edge, rest⟩

/-- A path that gets into a part of a flow stays there, goes on behind the part, or is
    taken out of it by a jump. -/
theorem Gets.beyond {part : Flow} {partFrame : Option LoopFrame} {partEnd : BlockId}
    {more : List BlockId} (gets : graph.Gets partFrame part [] partEnd goal more)
    (shape : graph.Realizes partFrame part [] cursor partEnd out) (ways : out ≠ [])
    (live : ∀ stmt ∈ part.live, stmt ∈ flow.live)
    (rest : part.falls = true → ∀ target ∈ out, ∀ behind, behind.length < more.length →
      graph.Path target goal behind → graph.Gets frame flow before last goal blocks)
    (jump : ∀ inner behind, partFrame = some inner → behind.length < more.length →
      graph.Path inner.exit goal behind ∨ graph.Path inner.header goal behind →
      graph.Gets frame flow before last goal blocks) :
    graph.Gets frame flow before last goal blocks := by
  cases gets with
  | inside listed ways =>
      refine .inside (fun stmt member => .inr (live stmt ?_)) ways
      exact (listed stmt member).resolve_left List.not_mem_nil
  | out framed less path => exact jump _ _ framed less path
  | through falls less path =>
      rcases shape.onward ways falls path with ⟨listed, ways⟩ | ⟨target, member, path'⟩
      · exact .inside (fun stmt member => .inr (live stmt (listed stmt member))) (.inl ways)
      · exact rest falls target member _ less path'

theorem gets_cursor {id : StmtId} (here : graph.statements goal = before ++ [id])
    (live : id ∈ flow.live) (ways : graph.successors goal ≠ [] ∨ graph.isTerminal goal = true) :
    graph.Gets frame flow before last goal blocks := by
  refine .inside (fun stmt member => ?_) ways
  rw [here] at member
  rcases List.mem_append.mp member with old | new
  · exact .inl old
  · exact .inr (List.mem_singleton.mp new ▸ live)

/-- Paths of fewer blocks than given get somewhere in the flows through which they lead. -/
def GetsWithin (graph : Graph) (goal : BlockId) (bound : Nat) : Prop :=
  ∀ ⦃frame flow before cursor last out blocks⦄, blocks.length < bound →
    graph.Realizes frame flow before cursor last out → graph.Path cursor goal blocks →
    graph.Gets frame flow before last goal blocks

theorem gets_branch {id : StmtId} {body orelse rest : Flow}
    {left right leftEnd rightEnd join : BlockId}
    (within : graph.GetsWithin goal blocks.length)
    (shows : graph.Shows cursor (before ++ [id]) [left, right] false)
    (leftShape : graph.Realizes frame body [] left leftEnd [join])
    (rightShape : graph.Realizes frame orelse [] right rightEnd [join])
    (restShape : graph.Realizes frame rest [] join last out)
    (path : graph.Path cursor goal blocks) :
    graph.Gets frame (.branch id body orelse rest) before last goal blocks := by
  cases path with
  | here =>
      exact gets_cursor shows.statements_eq List.mem_cons_self (by simp [shows.successors_eq])
  | @step _ target _ more edge path =>
      have behind : (body.falls || orelse.falls) = true → ∀ target ∈ [join], ∀ behind,
          behind.length < more.length → graph.Path target goal behind →
          graph.Gets frame (.branch id body orelse rest) before last goal (cursor :: more) := by
        intro either target member behind less path
        obtain rfl := List.mem_singleton.mp member
        have gets := within (Nat.lt_succ_of_lt less) restShape path
        refine gets.of_part (Nat.le_succ_of_le (Nat.le_of_lt less)) ?_ ?_
        · exact fun stmt alive => by simp [Flow.live, either, alive]
        · exact fun falls => by simp [Flow.falls, either, falls]
      have jump : ∀ inner behind, frame = some inner → behind.length < more.length →
          graph.Path inner.exit goal behind ∨ graph.Path inner.header goal behind →
          graph.Gets frame (.branch id body orelse rest) before last goal (cursor :: more) :=
        fun inner behind framed less path => .out framed (Nat.lt_succ_of_lt less) path
      rw [shows.successors_eq] at edge
      simp only [List.mem_cons, List.not_mem_nil, or_false] at edge
      rcases edge with rfl | rfl
      · refine (within (Nat.lt_succ_self _) leftShape path).beyond leftShape (by simp) ?_ ?_ jump
        · exact fun stmt alive => by simp [Flow.live, alive]
        · exact fun falls => behind (by simp [falls])
      · refine (within (Nat.lt_succ_self _) rightShape path).beyond rightShape (by simp) ?_ ?_ jump
        · exact fun stmt alive => by simp [Flow.live, alive]
        · exact fun falls => behind (by simp [falls])

theorem gets_loop {id : StmtId} {body rest : Flow} {entry exit bodyEnd : BlockId}
    (within : graph.GetsWithin goal blocks.length)
    (shows : graph.Shows cursor (before ++ [id]) [entry, exit] false)
    (bodyShape : graph.Realizes (some ⟨cursor, exit⟩) body [] entry bodyEnd [cursor, exit])
    (restShape : graph.Realizes frame rest [] exit last out)
    (path : graph.Path cursor goal blocks) :
    graph.Gets frame (.loop id body rest) before last goal blocks := by
  cases path with
  | here =>
      exact gets_cursor shows.statements_eq List.mem_cons_self (by simp [shows.successors_eq])
  | @step _ target _ more edge path =>
      have finished : ∀ behind, behind.length ≤ more.length → graph.Path exit goal behind →
          graph.Gets frame (.loop id body rest) before last goal (cursor :: more) := by
        intro behind less path
        have gets := within (Nat.lt_succ_of_le less) restShape path
        refine gets.of_part (Nat.le_succ_of_le less) ?_ fun falls => falls
        exact fun stmt alive => by simp [Flow.live, alive]
      have again : ∀ behind, behind.length < more.length → graph.Path cursor goal behind →
          graph.Gets frame (.loop id body rest) before last goal (cursor :: more) := by
        intro behind less path
        have gets := within (Nat.lt_succ_of_lt less) (.loop shows bodyShape restShape) path
        cases gets with
        | inside listed ways => exact .inside listed ways
        | through falls less' path =>
            exact .through falls (Nat.lt_trans less' (Nat.lt_succ_of_lt less)) path
        | out framed less' path =>
            exact .out framed (Nat.lt_trans less' (Nat.lt_succ_of_lt less)) path
      rw [shows.successors_eq] at edge
      simp only [List.mem_cons, List.not_mem_nil, or_false] at edge
      rcases edge with rfl | rfl
      · refine (within (Nat.lt_succ_self _) bodyShape path).beyond bodyShape (by simp) ?_ ?_ ?_
        · exact fun stmt alive => by simp [Flow.live, alive]
        · intro _ target member behind less path
          simp only [List.mem_cons, List.not_mem_nil, or_false] at member
          rcases member with rfl | rfl
          · exact again behind less path
          · exact finished behind (Nat.le_of_lt less) path
        · rintro _ behind ⟨⟩ less (path | path)
          · exact finished behind (Nat.le_of_lt less) path
          · exact again behind less path
      · exact finished more (Nat.le_refl _) path

/-- A path from the cursor of a flow stays among live statements until it leaves the flow. -/
theorem gets_of_path (shape : graph.Realizes frame flow before cursor last out)
    (path : graph.Path cursor goal blocks) :
    graph.Gets frame flow before last goal blocks := by
  -- by the length of the path; only within one block also by the shape
  induction length : blocks.length using Nat.strongRecOn
    generalizing frame flow before cursor last out blocks with
  | ind number shorter =>
  subst length
  have within : graph.GetsWithin goal blocks.length :=
    fun _ _ _ _ _ _ _ less shape path => shorter _ less shape path rfl
  induction shape with
  | done shows =>
      obtain ⟨behind, rfl⟩ := path.eq_cons
      exact .through rfl (Nat.lt_succ_self _) path
  | step _ ih =>
      cases ih path with
      | inside listed ways =>
          exact .inside (fun stmt member => Flow.mem_live_step (listed stmt member)) ways
      | through falls less path => exact .through falls less path
      | out framed less path => exact .out framed less path
  | branch shows left right rest => exact gets_branch within shows left right rest path
  | loop shows body rest => exact gets_loop within shows body rest path
  | returns shows _ _ =>
      cases path with
      | here => exact gets_cursor shows.statements_eq List.mem_cons_self (.inr shows.isTerminal_eq)
      | step edge _ => simp [shows.successors_eq] at edge
  | breaks shows _ _ =>
      cases path with
      | here =>
          exact gets_cursor shows.statements_eq List.mem_cons_self (by simp [shows.successors_eq])
      | step edge path =>
          rw [shows.successors_eq] at edge
          exact .out rfl (Nat.lt_succ_self _) (.inl (List.mem_singleton.mp edge ▸ path))
  | continues shows _ _ =>
      cases path with
      | here =>
          exact gets_cursor shows.statements_eq List.mem_cons_self (by simp [shows.successors_eq])
      | step edge path =>
          rw [shows.successors_eq] at edge
          exact .out rfl (Nat.lt_succ_self _) (.inr (List.mem_singleton.mp edge ▸ path))

end Graph

namespace Context

variable {context : Context} {graph : Graph} {start : Numbering} {body : List StmtId}
  {last : BlockId}

theorem Built.reaches_iff (built : context.Built start body last graph)
    (once : (context.visited body).Nodup) {stmt : StmtId} {block : BlockId}
    (listed : stmt ∈ graph.statements block) :
    graph.Reaches graph.entry block ↔ context.Live body stmt := by
  have shape := built.realizes
  have placed := built.placed once
  rw [← mem_live_iff built.reads]
  constructor
  · rintro ⟨blocks, path⟩
    cases Graph.gets_of_path shape path with
    | inside alive _ => simpa using alive stmt listed
    | out framed _ _ => cases framed
    | through falls _ path =>
        cases path with
        | here => simpa using shape.last_listed falls stmt listed
        | step edge _ => simp [shape.last_successors] at edge
  · intro alive
    obtain ⟨other, listed', reaches⟩ := (shape.reaches (.refl _)).1 stmt alive
    rwa [placed.unique listed listed']

theorem Built.reaches_last_iff (built : context.Built start body last graph) :
    graph.Reaches graph.entry last ↔ ∀ stmt ∈ body, context.FallsThrough stmt := by
  have shape := built.realizes
  obtain ⟨_, ending⟩ := shape.last_shows
  rw [← falls_iff built.reads]
  constructor
  · rintro ⟨blocks, path⟩
    cases Graph.gets_of_path shape path with
    | inside _ ways => simp [ending.successors_eq, ending.isTerminal_eq] at ways
    | through falls _ _ => exact falls
    | out framed _ _ => cases framed
  · exact (shape.reaches (.refl _)).2

/-- The blocks that are found reachable are those of the live statements, and the block
    where the walk ended when the body falls through. -/
theorem reachable_iff_live {log log' : Log}
    (success : context.build start body log = .ok graph log')
    (once : (context.visited body).Nodup) :
    ∃ last reachable, context.buildToEnd start body log = .ok (last, graph) log' ∧
      graph.reachableFrom graph.entry = .ok reachable ∧
      (∀ stmt ∈ context.visited body, ∃ block, graph.blockOf? stmt = some block ∧
        (block ∈ reachable ↔ context.Live body stmt) ∧
        (block ∉ graph.unreachable ↔ context.Live body stmt)) ∧
      (last ∈ reachable ↔ ∀ stmt ∈ body, context.FallsThrough stmt) := by
  obtain ⟨last, walked, built⟩ := built_of_build success
  obtain ⟨reachable, found, reached⟩ := Graph.mem_reachableFrom built.sound built.entry_known
  refine ⟨last, reachable, walked, found, fun stmt visited => ?_, ?_⟩
  · obtain ⟨block, listed⟩ := built.listed visited
    have reaches := built.reaches_iff once listed
    refine ⟨block, ((built.placed once).blockOf?_iff _ _).mpr listed, ?_, ?_⟩
    · rw [reached, reaches]
    · rw [Graph.mem_unreachable built.sound built.entry_known, reaches]
      simp [Graph.contains_of_mem_statements listed]
  · rw [reached, built.reaches_last_iff]

/-- A return in one arm of a branch in a loop, a jump and a dead statement behind it. -/
def guardedLoop : Context where
  pool := { slots := #[⟨0, none⟩, ⟨1, some (.whileLoop 1 [⟨2, 1⟩, ⟨4, 1⟩, ⟨5, 1⟩])⟩,
    ⟨1, some (.ifElse 2 [⟨3, 1⟩] [])⟩, ⟨1, some (.returnAt 3)⟩, ⟨1, some (.continueAt 4)⟩,
    ⟨1, some (.simple .pass 5)⟩] }
  dialect := .python3
  maxDepth := 2

theorem reachable_iff_live_guardedLoop :
    ∃ graph log last reachable, guardedLoop.build {} [⟨1, 1⟩] #[] = .ok graph log ∧
      guardedLoop.buildToEnd {} [⟨1, 1⟩] #[] = .ok (last, graph) log ∧
      (guardedLoop.visited [⟨1, 1⟩]).Nodup ∧
      graph.reachableFrom graph.entry = .ok reachable ∧
      (∃ block, graph.blockOf? ⟨5, 1⟩ = some block ∧
        (block ∈ reachable ↔ guardedLoop.Live [⟨1, 1⟩] ⟨5, 1⟩)) ∧
      (last ∈ reachable ↔ ∀ stmt ∈ [⟨1, 1⟩], guardedLoop.FallsThrough stmt) := by
  have success : ∃ graph log, guardedLoop.build {} [⟨1, 1⟩] #[] = .ok graph log :=
    build_succeeds (by decide) (by decide) #[]
  obtain ⟨graph, log, success⟩ := success
  obtain ⟨last, reachable, walked, found, live, ending⟩ := reachable_iff_live success (by decide)
  obtain ⟨block, placed, alive, _⟩ := live ⟨5, 1⟩ (by decide)
  exact ⟨graph, log, last, reachable, success, walked, by decide, found, ⟨block, placed, alive⟩,
    ending⟩

end Context

end FlowGraph
