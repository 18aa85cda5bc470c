import FlowGraph.Proofs.Exits
import FlowGraph.Proofs.Order
import FlowGraph.Proofs.Scopes

/-! # Cycles of a built graph

Control comes into the blocks of a sequence at one block only, its cursor, and leaves them
for blocks outside. So a cycle that stays in a sequence stays in one of its parts, or it
passes the header of a loop of the sequence, and every way to the blocks of that loop passes
the header too. Built graphs are reducible: each cycle has a block through which all ways
from the entry to the cycle lead.
-/

namespace FlowGraph

namespace Graph

/-- Blocks that control passes one after the other and then again from the first on. -/
def Cycle (graph : Graph) (blocks : List BlockId) : Prop :=
  ∃ first last, graph.Path first last blocks ∧ first ∈ graph.successors last

variable {graph : Graph} {source goal : BlockId} {blocks : List BlockId} {inside : BlockId → Prop}

theorem Path.source_mem (path : graph.Path source goal blocks) : source ∈ blocks := by
  cases path <;> exact List.mem_cons_self

theorem Path.goal_mem (path : graph.Path source goal blocks) : goal ∈ blocks := by
  induction path with
  | here => exact List.mem_cons_self
  | step _ _ ih => exact List.mem_cons_of_mem _ ih

theorem Path.stays (path : graph.Path source goal blocks)
    (closed : ∀ id ∈ blocks, inside id → ∀ target ∈ blocks, target ∈ graph.successors id →
      inside target) :
    (inside source → ∀ id ∈ blocks, inside id) ∧ ∀ id ∈ blocks, inside id → inside goal := by
  -- the second half is for a cycle that is met somewhere on the way
  induction path with
  | here => simp
  | @step source target goal blocks edge path ih =>
      obtain ⟨onward, toGoal⟩ := ih fun id member here other listed =>
        closed id (List.mem_cons_of_mem _ member) here other (List.mem_cons_of_mem _ listed)
      have entered : inside source → inside target := fun here =>
        closed source List.mem_cons_self here target
          (List.mem_cons_of_mem _ path.source_mem) edge
      constructor
      · intro here id member
        rcases List.mem_cons.mp member with rfl | member
        · exact here
        · exact onward (entered here) id member
      · intro id member here
        rcases List.mem_cons.mp member with rfl | member
        · exact toGoal target path.source_mem (entered here)
        · exact toGoal id member here

theorem Cycle.stays (cycle : graph.Cycle blocks)
    (closed : ∀ id ∈ blocks, inside id → ∀ target ∈ blocks, target ∈ graph.successors id →
      inside target)
    {id : BlockId} (member : id ∈ blocks) (here : inside id) : ∀ id ∈ blocks, inside id := by
  obtain ⟨first, last, path, back⟩ := cycle
  obtain ⟨onward, toLast⟩ := path.stays closed
  exact onward (closed last path.goal_mem (toLast id member here) first path.source_mem back)

theorem Path.entered (path : graph.Path source goal blocks) {id : BlockId} (member : id ∈ blocks) :
    id = source ∨ ∃ other ∈ blocks, id ∈ graph.successors other := by
  induction path with
  | here => exact .inl (List.mem_singleton.mp member)
  | @step source target goal blocks edge path ih =>
      rcases List.mem_cons.mp member with rfl | member
      · exact .inl rfl
      · right
        rcases ih member with rfl | ⟨other, listed, enters⟩
        · exact ⟨source, List.mem_cons_self, edge⟩
        · exact ⟨other, List.mem_cons_of_mem _ listed, enters⟩

theorem Cycle.entered (cycle : graph.Cycle blocks) {id : BlockId} (member : id ∈ blocks) :
    ∃ other ∈ blocks, id ∈ graph.successors other := by
  obtain ⟨first, last, path, back⟩ := cycle
  rcases path.entered member with rfl | entered
  · exact ⟨last, path.goal_mem, back⟩
  · exact entered

end Graph

/-- Where a flow is laid out: the cursor with the statements that it has already, the number
    of the next block, the innermost loop around the flow and what the flow leads to. -/
structure Site where
  flow : Flow
  before : List StmtId
  cursor : BlockId
  next : Nat
  frame : Option LoopFrame
  out : List BlockId

namespace Site

def Inside (site : Site) (id : BlockId) : Prop := site.flow.Region site.cursor site.next id

/-- The blocks for which control can leave a flow: what it leads to, and the innermost loop
    around it. -/
def Beyond (site : Site) (id : BlockId) : Prop :=
  id ∈ site.out ∨ ∃ inner, site.frame = some inner ∧ (id = inner.header ∨ id = inner.exit)

def pieces (site : Site) : List Piece :=
  site.flow.pieces site.before site.cursor site.next site.frame site.out

def IsLoop (site : Site) : Prop := ∃ id body rest, site.flow = .loop id body rest

/-- Control leaves the part only together with the whole flow. -/
def Closes (part whole : Site) : Prop := ∀ id, part.Beyond id → whole.Beyond id

/-- The sequences into which the statement at the end of the cursor divides a flow: those
    nested in the statement and the one behind it. -/
inductive Part : Site → Site → Prop where
  | body {id body orelse rest before cursor next frame out} :
      Part ⟨.branch id body orelse rest, before, cursor, next, frame, out⟩
        ⟨body, [], ⟨next⟩, next + 2, frame, [⟨next + 2 + body.width + orelse.width⟩]⟩
  | orelse {id body orelse rest before cursor next frame out} :
      Part ⟨.branch id body orelse rest, before, cursor, next, frame, out⟩
        ⟨orelse, [], ⟨next + 1⟩, next + 2 + body.width, frame,
          [⟨next + 2 + body.width + orelse.width⟩]⟩
  | joined {id body orelse rest before cursor next frame out} :
      Part ⟨.branch id body orelse rest, before, cursor, next, frame, out⟩
        ⟨rest, [], ⟨next + 2 + body.width + orelse.width⟩, next + 3 + body.width + orelse.width,
          frame, out⟩
  | turn {id body rest before cursor next frame out} :
      Part ⟨.loop id body rest, before, cursor, next, frame, out⟩
        ⟨body, [], ⟨next⟩, next + 2, some ⟨cursor, ⟨next + 1⟩⟩, [cursor, ⟨next + 1⟩]⟩
  | exited {id body rest before cursor next frame out} :
      Part ⟨.loop id body rest, before, cursor, next, frame, out⟩
        ⟨rest, [], ⟨next + 1⟩, next + 2 + body.width, frame, out⟩
  | behind {kind id rest before cursor next frame out} :
      Part ⟨.jump kind id rest, before, cursor, next, frame, out⟩
        ⟨rest, [], ⟨next⟩, next + 1, frame, out⟩

namespace Part

variable {whole part other : Site} {id : BlockId}

theorem old (h : Part whole part) : part.cursor.index < part.next := by
  cases h <;> simp only <;> omega

theorem inside (h : Part whole part) (here : part.Inside id) : whole.Inside id := by
  cases h with
  | body => exact .of_branch_body here
  | orelse => exact .of_branch_orelse here
  | joined => exact .of_branch_rest here
  | turn => exact .of_loop_body here
  | exited => exact .of_loop_rest here
  | behind => exact .of_jump_rest here

theorem not_inside_cursor (h : Part whole part) (old : whole.cursor.index < whole.next) :
    ¬ part.Inside whole.cursor := by
  cases h <;> simp only [Inside, Flow.Region, BlockId.eq_iff] at * <;> omega

theorem unique (left : Part whole part) (right : Part whole other) (here : part.Inside id)
    (there : other.Inside id) : part = other := by
  cases left <;> cases right <;> first
    | rfl
    | exfalso
      simp only [Inside, Flow.Region, BlockId.eq_iff] at here there
      omega

theorem covers (h : Part whole part) (here : whole.Inside id) :
    id = whole.cursor ∨ ∃ other, Part whole other ∧ other.Inside id := by
  cases h with
  | body | orelse | joined =>
      rcases Flow.region_branch_iff.mp here with same | (inBody | inOrelse) | inRest
      · exact .inl same
      · exact .inr ⟨_, .body, inBody⟩
      · exact .inr ⟨_, .orelse, inOrelse⟩
      · exact .inr ⟨_, .joined, inRest⟩
  | turn | exited =>
      rcases Flow.region_loop_iff.mp here with same | inBody | inRest
      · exact .inl same
      · exact .inr ⟨_, .turn, inBody⟩
      · exact .inr ⟨_, .exited, inRest⟩
  | behind => exact (Flow.region_jump_iff.mp here).imp_right fun inRest => ⟨_, .behind, inRest⟩

theorem mem_pieces (h : Part whole part) {piece : Piece} (member : piece ∈ part.pieces) :
    piece ∈ whole.pieces := by
  cases h <;> simp_all [pieces, Flow.pieces]

/-- Control leaves a part for the beginning of the last one, for the header of a loop, or
    together with the whole flow. -/
theorem leads (h : Part whole part) (beyond : part.Beyond id) :
    whole.Beyond id ∨ (id = whole.cursor ∧ whole.IsLoop) ∨
      ∃ last, Part whole last ∧ last.Closes whole ∧ id = last.cursor ∧ ¬ part.Inside id := by
  cases h with
  | joined | exited | behind => exact .inl beyond
  | body | orelse =>
      rcases beyond with listed | jump
      · obtain rfl := List.mem_singleton.mp listed
        refine .inr (.inr ⟨_, .joined, fun _ beyond => beyond, rfl, ?_⟩)
        simp only [Inside, Flow.Region, BlockId.eq_iff]
        omega
      · exact .inl (.inr jump)
  | @turn _ body _ _ cursor next =>
      have exit : ¬ body.Region ⟨next⟩ (next + 2) ⟨next + 1⟩ := by
        simp only [Flow.Region, BlockId.eq_iff]
        omega
      have ways : id = cursor ∨ id = ⟨next + 1⟩ := by
        rcases beyond with listed | ⟨_, ⟨⟩, jump⟩
        · simpa using listed
        · exact jump
      rcases ways with rfl | rfl
      · exact .inr (.inl ⟨rfl, _, _, _, rfl⟩)
      · exact .inr (.inr ⟨_, .exited, fun _ beyond => beyond, rfl, exit⟩)

theorem cursor_leads (h : Part whole part) :
    ∃ piece ∈ whole.pieces, piece.id = whole.cursor ∧ ∀ target ∈ piece.successors,
      whole.Beyond target ∨ ∃ other, Part whole other ∧ target = other.cursor := by
  cases h with
  | body | orelse | joined =>
      refine ⟨_, List.mem_cons_self, rfl, ?_⟩
      simp only [List.forall_mem_cons]
      exact ⟨.inr ⟨_, .body, rfl⟩, .inr ⟨_, .orelse, rfl⟩, List.forall_mem_nil _⟩
  | turn | exited =>
      refine ⟨_, List.mem_cons_self, rfl, ?_⟩
      simp only [List.forall_mem_cons]
      exact ⟨.inr ⟨_, .turn, rfl⟩, .inr ⟨_, .exited, rfl⟩, List.forall_mem_nil _⟩
  | @behind kind _ _ _ _ _ frame =>
      refine ⟨_, List.mem_cons_self, rfl, fun target member => .inl (.inr ?_)⟩
      cases kind <;> cases frame <;> simp_all [Jump.targets]

end Part

end Site

namespace Graph

variable {graph : Graph} {site whole inner : Site} {source target : BlockId}
  {blocks : List BlockId}

/-- The blocks of a flow are as its pieces say. -/
def Shown (graph : Graph) (site : Site) : Prop :=
  ∀ piece ∈ site.pieces, graph.Shows piece.id piece.statements piece.successors piece.terminal

namespace Shown

theorem part (shown : graph.Shown whole) (h : Site.Part whole inner) : graph.Shown inner :=
  fun piece member => shown piece (h.mem_pieces member)

theorem mem_out {before : List StmtId} {cursor : BlockId} {next : Nat}
    {frame : Option LoopFrame} {out : List BlockId}
    (shown : graph.Shown ⟨.done, before, cursor, next, frame, out⟩)
    (here : Flow.done.Region cursor next source) (edge : target ∈ graph.successors source) :
    target ∈ out := by
  obtain rfl : source = cursor := by
    rcases here with same | between
    · exact same
    · simp only [Flow.width] at between
      omega
  rwa [(shown _ List.mem_cons_self).successors_eq] at edge

/-- Control goes on in a part of a flow, to the beginning of a part or to the header of a
    loop, or it leaves the flow. -/
theorem edge_cases (shown : graph.Shown whole) (h : Site.Part whole inner)
    (stays : ∀ other, Site.Part whole other → other.Inside source →
      other.Inside target ∨ other.Beyond target)
    (here : whole.Inside source) (edge : target ∈ graph.successors source) :
    whole.Beyond target ∨ (target = whole.cursor ∧ whole.IsLoop) ∨
      (∃ other, Site.Part whole other ∧ target = other.cursor) ∨
      ∃ other, Site.Part whole other ∧ other.Inside source ∧ other.Inside target := by
  rcases h.covers here with rfl | ⟨other, isPart, inOther⟩
  · obtain ⟨piece, member, same, leads⟩ := h.cursor_leads
    rw [← same, (shown piece member).successors_eq] at edge
    rcases leads target edge with beyond | begins
    · exact .inl beyond
    · exact .inr (.inr (.inl begins))
  · rcases stays other isPart inOther with inside | beyond
    · exact .inr (.inr (.inr ⟨other, isPart, inOther, inside⟩))
    · rcases isPart.leads beyond with beyond | again | ⟨last, isLast, _, same, _⟩
      · exact .inl beyond
      · exact .inr (.inl again)
      · exact .inr (.inr (.inl ⟨last, isLast, same⟩))

theorem inside_or_beyond_of_parts (shown : graph.Shown whole) (h : Site.Part whole inner)
    (stays : ∀ other, Site.Part whole other → graph.Shown other → other.Inside source →
      other.Inside target ∨ other.Beyond target)
    (here : whole.Inside source) (edge : target ∈ graph.successors source) :
    whole.Inside target ∨ whole.Beyond target := by
  rcases shown.edge_cases h (fun other isPart => stays other isPart (shown.part isPart)) here edge
    with beyond | ⟨rfl, _⟩ | ⟨other, isPart, rfl⟩ | ⟨other, isPart, _, inside⟩
  · exact .inr beyond
  · exact .inl (.inl rfl)
  · exact .inl (isPart.inside (.inl rfl))
  · exact .inl (isPart.inside inside)

theorem inside_or_beyond (shown : graph.Shown site) (here : site.Inside source)
    (edge : target ∈ graph.successors source) : site.Inside target ∨ site.Beyond target := by
  obtain ⟨flow, before, cursor, next, frame, out⟩ := site
  induction flow generalizing before cursor next frame out with
  | done =>
      exact .inr (.inl (shown.mem_out here edge))
  | step stmt deferred rest ih => exact ih _ cursor next frame out shown here
  | branch stmt body orelse rest ihBody ihOrelse ihRest =>
      refine shown.inside_or_beyond_of_parts .body (fun other isPart shown here => ?_) here edge
      cases isPart with
      | body => exact ihBody _ _ _ _ _ shown here
      | orelse => exact ihOrelse _ _ _ _ _ shown here
      | joined => exact ihRest _ _ _ _ _ shown here
  | loop stmt body rest ihBody ihRest =>
      refine shown.inside_or_beyond_of_parts .turn (fun other isPart shown here => ?_) here edge
      cases isPart with
      | turn => exact ihBody _ _ _ _ _ shown here
      | exited => exact ihRest _ _ _ _ _ shown here
  | jump kind stmt rest ih =>
      refine shown.inside_or_beyond_of_parts .behind (fun other isPart shown here => ?_) here edge
      cases isPart
      exact ih _ _ _ _ _ shown here

theorem edge_in_parts (shown : graph.Shown whole) (h : Site.Part whole inner)
    (here : whole.Inside source) (edge : target ∈ graph.successors source) :
    whole.Beyond target ∨ (target = whole.cursor ∧ whole.IsLoop) ∨
      (∃ other, Site.Part whole other ∧ target = other.cursor) ∨
      ∃ other, Site.Part whole other ∧ other.Inside source ∧ other.Inside target :=
  shown.edge_cases h (fun _ isPart inside => (shown.part isPart).inside_or_beyond inside edge)
    here edge

/-- A cycle through a block of a flow that control does not leave along the cycle is all in
    the flow. -/
theorem cycle_stays (shown : graph.Shown site) (cycle : graph.Cycle blocks)
    (off : ∀ id ∈ blocks, ¬ site.Beyond id) {id : BlockId} (member : id ∈ blocks)
    (here : site.Inside id) : ∀ id ∈ blocks, site.Inside id := by
  refine cycle.stays (fun source _ inside target listed edge => ?_) member here
  exact (shown.inside_or_beyond inside edge).resolve_right (off target listed)

end Shown

/-- A flow is laid out in a graph as a place of its own: control comes in at the cursor only
    and leaves for blocks that are not of the flow. -/
structure Confined (graph : Graph) (site : Site) : Prop where
  old : site.cursor.index < site.next
  shown : graph.Shown site
  apart : ∀ id, site.Beyond id → ¬ site.Inside id
  begins : site.Inside graph.entry → graph.entry = site.cursor
  entered : ∀ ⦃source target⦄, target ∈ graph.successors source → ¬ site.Inside source →
    site.Inside target → target = site.cursor

namespace Confined

/-- Every way from the entry to a block of the flow passes the cursor. -/
theorem cursor_mem (confined : graph.Confined site) {goal : BlockId} {way : List BlockId}
    (path : graph.Path graph.entry goal way) (here : site.Inside goal) : site.cursor ∈ way := by
  have passes : ∀ {source goal way}, graph.Path source goal way → site.Inside goal →
      (site.Inside source → source = site.cursor) → site.cursor ∈ way := by
    intro source goal way path reached begun
    induction path with
    | here => simp [begun reached]
    | @step source target _ way edge path ih =>
        by_cases inside : site.Inside source
        · simp [begun inside]
        · exact List.mem_cons_of_mem _ (ih reached (confined.entered edge inside))
  exact passes path here confined.begins

theorem part (confined : graph.Confined whole) (h : Site.Part whole inner) :
    graph.Confined inner where
  old := h.old
  shown := confined.shown.part h
  apart := by
    intro id beyond here
    rcases h.leads beyond with beyond | ⟨rfl, _⟩ | ⟨_, _, _, _, outside⟩
    · exact confined.apart id beyond (h.inside here)
    · exact h.not_inside_cursor confined.old here
    · exact outside here
  begins := by
    intro begins
    have same := confined.begins (h.inside begins)
    exact absurd (same ▸ begins) (h.not_inside_cursor confined.old)
  entered := by
    intro source target edge outside inside
    have notCursor : target ≠ whole.cursor := by
      rintro rfl
      exact h.not_inside_cursor confined.old inside
    by_cases here : whole.Inside source
    · rcases confined.shown.edge_in_parts h here edge
        with beyond | ⟨same, _⟩ | ⟨other, isPart, rfl⟩ | ⟨other, isPart, comes, goes⟩
      · exact absurd (h.inside inside) (confined.apart target beyond)
      · exact absurd same notCursor
      · exact congrArg Site.cursor (isPart.unique h (.inl rfl) inside)
      · obtain rfl := isPart.unique h goes inside
        exact absurd comes outside
    · exact absurd (confined.entered edge here (h.inside inside)) notCursor

/-- A cycle that passes the cursor of a divided flow goes round the loop there. -/
theorem isLoop_of_cursor_mem (confined : graph.Confined whole) (h : Site.Part whole inner)
    (cycle : graph.Cycle blocks) (inside : ∀ id ∈ blocks, whole.Inside id)
    (passed : whole.cursor ∈ blocks) : whole.IsLoop := by
  obtain ⟨source, listed, edge⟩ := cycle.entered passed
  rcases confined.shown.edge_in_parts h (inside source listed) edge
    with beyond | ⟨_, isLoop⟩ | ⟨other, isPart, same⟩ | ⟨other, isPart, _, goes⟩
  · exact absurd (.inl rfl) (confined.apart _ beyond)
  · exact isLoop
  · exact absurd (.inl same) (isPart.not_inside_cursor confined.old)
  · exact absurd goes (isPart.not_inside_cursor confined.old)

/-- A cycle that does not pass the cursor of a divided flow is all in one of the parts. -/
theorem cycle_in_part (confined : graph.Confined whole) (h : Site.Part whole inner)
    (cycle : graph.Cycle blocks) (inside : ∀ id ∈ blocks, whole.Inside id)
    (off : whole.cursor ∉ blocks) :
    ∃ other, Site.Part whole other ∧ ∀ id ∈ blocks, other.Inside id := by
  have within : ∀ id ∈ blocks, ¬ whole.Beyond id :=
    fun id listed beyond => confined.apart id beyond (inside id listed)
  -- the other parts can be left for the last one, and that one only together with the flow
  by_cases closing : ∃ last, Site.Part whole last ∧ last.Closes whole ∧
    ∃ id ∈ blocks, last.Inside id
  · obtain ⟨last, isLast, closes, id, listed, here⟩ := closing
    refine ⟨last, isLast, (confined.shown.part isLast).cycle_stays cycle ?_ listed here⟩
    exact fun id listed beyond => within id listed (closes id beyond)
  · have ⟨first, _, path, _⟩ := cycle
    rcases h.covers (inside first path.source_mem) with rfl | ⟨other, isPart, here⟩
    · exact absurd path.source_mem off
    refine ⟨other, isPart, (confined.shown.part isPart).cycle_stays cycle ?_ path.source_mem here⟩
    intro id listed beyond
    rcases isPart.leads beyond with beyond | ⟨rfl, _⟩ | ⟨last, isLast, closes, rfl, _⟩
    · exact within id listed beyond
    · exact off listed
    · exact closing ⟨last, isLast, closes, _, listed, .inl rfl⟩

end Confined

end Graph

namespace Context

variable {context : Context} {graph : Graph} {inLoop : Bool} {ids before : List StmtId}
  {flow : Flow} {frame : Option LoopFrame} {cursor : BlockId} {next : Nat} {out : List BlockId}
  {blocks : List BlockId}

/-- Among the blocks is the header of a loop, and every way from the entry to one of them
    leads through the header. -/
def Headed (context : Context) (graph : Graph) (blocks : List BlockId) : Prop :=
  ∃ header ∈ blocks, (∃ block, graph.block? header = some block ∧ context.EndsBy block .loop) ∧
    ∀ id ∈ blocks, ∀ way, graph.Path graph.entry id way → header ∈ way

/-- A cycle in the blocks of a flow goes round one of its loops. -/
theorem headed_of_reads (reads : context.Reads inLoop ids flow)
    (confined : graph.Confined ⟨flow, before, cursor, next, frame, out⟩)
    (cycle : graph.Cycle blocks) (inside : ∀ id ∈ blocks, flow.Region cursor next id) :
    context.Headed graph blocks := by
  induction reads generalizing before cursor next frame out with
  | done =>
      obtain ⟨first, last, path, back⟩ := cycle
      have leaves := confined.shown.mem_out (inside last path.goal_mem) back
      exact absurd (inside first path.source_mem) (confined.apart first (.inl leaves))
  | plain _ _ ih | deferred _ _ ih =>
      exact ih ⟨confined.old, confined.shown, confined.apart, confined.begins, confined.entered⟩
        inside
  | branch _ _ _ _ ihBody ihOrelse ihRest =>
      have off : cursor ∉ blocks := by
        intro passed
        obtain ⟨_, _, _, ⟨⟩⟩ := confined.isLoop_of_cursor_mem .body cycle inside passed
      obtain ⟨part, isPart, inPart⟩ := confined.cycle_in_part .body cycle inside off
      have confined := confined.part isPart
      cases isPart with
      | body => exact ihBody confined inPart
      | orelse => exact ihOrelse confined inPart
      | joined => exact ihRest confined inPart
  | loop treats _ _ ihBody ihRest =>
      by_cases passed : cursor ∈ blocks
      · have header := confined.shown _ List.mem_cons_self
        obtain ⟨block, found⟩ := header.exists_block
        obtain ⟨statements, _⟩ := header.of_block? found
        refine ⟨cursor, passed, ⟨block, found, endsBy_of_treats statements treats⟩, ?_⟩
        exact fun id listed way path => confined.cursor_mem path (inside id listed)
      · obtain ⟨part, isPart, inPart⟩ := confined.cycle_in_part .turn cycle inside passed
        have confined := confined.part isPart
        cases isPart with
        | turn => exact ihBody confined inPart
        | exited => exact ihRest confined inPart
  | returns _ _ ih | breaks _ _ ih | continues _ _ ih =>
      have off : cursor ∉ blocks := by
        intro passed
        obtain ⟨_, _, _, ⟨⟩⟩ := confined.isLoop_of_cursor_mem .behind cycle inside passed
      obtain ⟨part, isPart, inPart⟩ := confined.cycle_in_part .behind cycle inside off
      have confined := confined.part isPart
      cases isPart
      exact ih confined inPart

variable {start : Numbering} {body : List StmtId} {last : BlockId}

namespace Built

theorem confined (built : context.Built start body last graph) :
    graph.Confined ⟨context.bodyFlow body, [], start.next, start.next.index + 1, none, []⟩ where
  old := Nat.lt_succ_self _
  shown := built.shows
  apart := by
    rintro id (listed | ⟨_, ⟨⟩, _⟩)
    cases listed
  begins := fun _ => built.entry_eq
  entered := by
    intro source target edge outside _
    have unknown : graph.contains source = false := by
      simpa using mt built.contains_iff_region.mp outside
    rw [Graph.successors_eq_nil unknown] at edge
    cases edge

theorem headed (built : context.Built start body last graph) (cycle : graph.Cycle blocks) :
    context.Headed graph blocks := by
  refine headed_of_reads built.reads built.confined cycle fun id listed => ?_
  obtain ⟨_, _, edge⟩ := cycle.entered listed
  exact built.contains_iff_region.mp (built.sound.contains_target edge)

end Built

/-- Cycles go round loops. Without a loop on the way through the body there is none. -/
structure Reducible (context : Context) (body : List StmtId) (graph : Graph) : Prop where
  headed : ∀ blocks, graph.Cycle blocks → context.Headed graph blocks
  acyclic : (∀ id ∈ context.visited body, context.rule? id ≠ some .loop) →
    ∀ blocks, ¬ graph.Cycle blocks

theorem Built.reducible (built : context.Built start body last graph) :
    context.Reducible body graph where
  headed := fun _ cycle => built.headed cycle
  acyclic := by
    intro loopless blocks cycle
    obtain ⟨header, _, ⟨block, found, id, ends, isLoop⟩, _⟩ := built.headed cycle
    have listed : id ∈ graph.statements header := by
      rw [Graph.statements, found]
      exact List.mem_of_getLast? ends
    exact loopless id ((built.statements_infix header).subset listed) isLoop

/-- Built graphs are reducible: on each cycle there is the header of a loop through which
    all ways from the entry to the cycle lead. -/
theorem cycles_have_dominating_header (context : Context) (start : Numbering) (log : Log) :
    (∀ body graph log', context.build start body log = .ok graph log' →
      context.Reducible body graph) ∧
    ∀ root graph log', context.buildDef start root log = .ok graph log' →
      ∃ stmt, context.pool.get? root = some stmt ∧ context.Reducible stmt.body graph := by
  constructor
  · intro body graph log' success
    obtain ⟨_, _, built⟩ := built_of_build success
    exact built.reducible
  · intro root graph log' success
    obtain ⟨stmt, kept, success⟩ := build_of_buildDef success
    obtain ⟨_, _, built⟩ := built_of_build success
    exact ⟨stmt, kept, built.reducible⟩

/-- A loop in a loop, with a branch inside that leaves the inner loop or begins its next turn,
    and a definition that has a branch only. -/
def loopInLoop : Context where
  pool := { slots := #[⟨0, none⟩, ⟨1, some (.whileLoop 1 [⟨2, 1⟩])⟩,
    ⟨1, some (.whileLoop 2 [⟨3, 1⟩])⟩, ⟨1, some (.ifElse 3 [⟨4, 1⟩] [⟨5, 1⟩])⟩,
    ⟨1, some (.breakAt 4)⟩, ⟨1, some (.continueAt 5)⟩,
    ⟨1, some (.define .functionDef 0 6 [⟨7, 1⟩])⟩, ⟨1, some (.ifElse 7 [⟨8, 1⟩] [])⟩,
    ⟨1, some (.returnAt 8)⟩] }
  dialect := .python3
  maxDepth := 3

theorem cycles_have_dominating_header_loopInLoop :
    (∃ graph log, loopInLoop.build {} [⟨1, 1⟩] #[] = .ok graph log ∧
      graph.Cycle [⟨1⟩, ⟨3⟩, ⟨6⟩] ∧ graph.Cycle [⟨0⟩, ⟨1⟩, ⟨3⟩, ⟨5⟩, ⟨4⟩] ∧
      loopInLoop.Reducible [⟨1, 1⟩] graph) ∧
    ∃ graph log, loopInLoop.buildDef {} ⟨6, 1⟩ #[] = .ok graph log ∧
      ∀ blocks, ¬ graph.Cycle blocks := by
  have ⟨reducible, reducibleDef⟩ := cycles_have_dominating_header loopInLoop {} #[]
  constructor
  · have success : ∃ graph log, loopInLoop.build {} [⟨1, 1⟩] #[] = .ok graph log :=
      build_succeeds (by decide) (by decide) #[]
    obtain ⟨graph, log, success⟩ := success
    obtain ⟨_, _, built⟩ := built_of_build success
    have edge : ∀ {source target}, (∃ piece ∈ loopInLoop.pieces {} [⟨1, 1⟩],
        piece.id = source ∧ target ∈ piece.successors) → target ∈ graph.successors source := by
      rintro _ target ⟨piece, listed, rfl, member⟩
      rwa [(built.shows piece listed).successors_eq]
    refine ⟨graph, log, success, ⟨⟨1⟩, ⟨6⟩, ?_, edge (by decide)⟩,
      ⟨⟨0⟩, ⟨4⟩, ?_, edge (by decide)⟩, reducible _ _ _ success⟩
    · exact .step (edge (by decide)) (.step (edge (by decide)) .here)
    · exact .step (edge (by decide)) (.step (edge (by decide)) (.step (edge (by decide))
        (.step (edge (by decide)) .here)))
  · have kept : loopInLoop.pool.get? ⟨6, 1⟩ = some (.define .functionDef 0 6 [⟨7, 1⟩]) := rfl
    have success : ∃ graph log, loopInLoop.buildDef {} ⟨6, 1⟩ #[] = .ok graph log := by
      rw [buildDef_eq_build kept]
      exact build_succeeds (by decide) (by decide) #[]
    obtain ⟨graph, log, success⟩ := success
    obtain ⟨stmt, same, reducible⟩ := reducibleDef _ _ _ success
    obtain rfl := Option.some.inj (kept.symm.trans same)
    exact ⟨graph, log, success, reducible.acyclic (by decide)⟩

end Context

end FlowGraph
