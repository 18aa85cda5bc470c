import FlowGraph.Proofs.Isolation

/-! # Builds from different numbers

Where a numbering begins decides nothing but the numbers. Two builds of one body, from any
two numbers and with enough block ids, are refused with one error, or give graphs that are
equal but for the numbers of their blocks. Those differ everywhere by what lies between the
two beginnings.
-/

namespace FlowGraph

/-- The place of a block in the numbering. -/
def BlockId.number (id : BlockId) : Int := id.index

/-- The place of a block, moved by an offset. -/
def BlockId.movedBy (offset : Int) (id : BlockId) : Int := id.number + offset

/-- `moved` is the block with its own id and those at its edges, in their order, moved by an
    offset. -/
structure Block.ShiftedBy (offset : Int) (block moved : Block) : Prop where
  id : moved.id.number = block.id.movedBy offset
  statements : moved.statements = block.statements
  predecessors : moved.predecessors.map (·.number) = block.predecessors.map (·.movedBy offset)
  successors : moved.successors.map (·.number) = block.successors.map (·.movedBy offset)
  terminal : moved.terminal = block.terminal

/-- `moved` is the graph with every block id moved by an offset. -/
structure Graph.ShiftedBy (offset : Int) (graph moved : Graph) : Prop where
  entry : moved.entry.number = graph.entry.movedBy offset
  base : (moved.base : Int) = graph.base + offset
  next : moved.numbering.next.number = graph.numbering.next.movedBy offset
  size : moved.size = graph.size
  blocks : ∀ (position : Nat) (block block' : Block), graph.blocks[position]? = some block →
    moved.blocks[position]? = some block' → block.ShiftedBy offset block'
  blockOf? : ∀ stmt, (moved.blockOf? stmt).map (·.number) =
    (graph.blockOf? stmt).map (·.movedBy offset)
  deferred : moved.deferred = graph.deferred

section Raise

variable (first second : Nat)

theorem BlockId.number_raise (id : BlockId) :
    (id.raise second).number = (id.raise first).movedBy (second - first) := by
  simp only [movedBy, number, raise]
  omega

theorem Block.shiftedBy_raise (block : Block) :
    (block.raise first).ShiftedBy (second - first) (block.raise second) where
  id := block.id.number_raise first second
  statements := rfl
  predecessors := by simp [raise, BlockId.number_raise first second]
  successors := by simp [raise, BlockId.number_raise first second]
  terminal := rfl

theorem Placement.get?_raise (number : Nat) (placement : Placement) (stmt : StmtId) :
    (placement.raise number).get? stmt = (placement.get? stmt).map (·.raise number) := by
  simp only [get?, current?_raise]
  cases placement.current? stmt.index with
  | none => rfl
  | some entry => by_cases same : entry.1 = stmt <;> simp [same]

/-- Two graphs that were raised from one differ by the two numbers. -/
theorem Graph.shiftedBy_raise (graph : Graph) :
    (graph.raise first).ShiftedBy (second - first) (graph.raise second) where
  entry := graph.entry.number_raise first second
  base := by
    simp only [raise]
    omega
  next := graph.numbering.next.number_raise first second
  size := by rw [size_raise, size_raise]
  blocks := by
    intro position block block' here there
    simp only [raise, Array.getElem?_map, Option.map_eq_some_iff] at here there
    obtain ⟨original, found, rfl⟩ := here
    obtain ⟨same, found', rfl⟩ := there
    cases found.symm.trans found'
    exact original.shiftedBy_raise first second
  blockOf? := by
    intro stmt
    simp only [blockOf?, raise, Placement.get?_raise, Option.map_map]
    cases graph.placement.get? stmt with
    | none => rfl
    | some id => exact congrArg some (id.number_raise first second)
  deferred := rfl

end Raise

namespace Context

variable {context : Context} {body : List StmtId} {first second : Numbering} {log log' : Log}

/-- Two builds of a body are refused with one error, or give graphs with the same blocks, moved
    by what lies between the numbers from which they began. -/
theorem builds_shift_with_start (roomFirst : ¬ RanOut (context.build first body log))
    (roomSecond : ¬ RanOut (context.build second body log')) :
    (∃ error log₁ log₂, context.build first body log = .error (.flow error) log₁ ∧
      context.build second body log' = .error (.flow error) log₂) ∨
    ∃ graph moved log₁ log₂, context.build first body log = .ok graph log₁ ∧
      context.build second body log' = .ok moved log₂ ∧
      graph.ShiftedBy (second.next.index - first.next.index) moved := by
  have decidedFirst := decided_build roomFirst
  have decidedSecond := decided_build roomSecond
  cases fault : context.firstFault? body with
  | some error =>
      rw [fault] at decidedFirst decidedSecond
      obtain ⟨log₁, refusedFirst⟩ := decidedFirst
      obtain ⟨log₂, refusedSecond⟩ := decidedSecond
      exact .inl ⟨error, log₁, log₂, refusedFirst, refusedSecond⟩
  | none =>
      rw [fault] at decidedFirst decidedSecond
      obtain ⟨graph, log₁, builtFirst⟩ := decidedFirst
      obtain ⟨moved, log₂, builtSecond⟩ := decidedSecond
      obtain ⟨alone, _, fromZero, rfl⟩ := build_raised builtFirst #[]
      obtain ⟨alone', _, fromZero', rfl⟩ := build_raised builtSecond #[]
      cases fromZero.symm.trans fromZero'
      exact .inr ⟨_, _, log₁, log₂, builtFirst, builtSecond, alone.shiftedBy_raise _ _⟩

/-- A loop that a branch in it may leave, with a function behind the branch. -/
def loopWithFunction : Context where
  pool := { slots := #[⟨0, none⟩, ⟨1, some (.whileLoop 1 [⟨2, 1⟩, ⟨4, 1⟩])⟩,
    ⟨1, some (.ifElse 2 [⟨3, 1⟩] [])⟩, ⟨1, some (.breakAt 3)⟩,
    ⟨1, some (.define .functionDef 0 4 [⟨3, 1⟩])⟩] }
  dialect := .python3
  maxDepth := 2

theorem builds_shift_with_start_loopWithFunction :
    ∃ graph moved log₁ log₂,
      loopWithFunction.build ⟨⟨5⟩⟩ [⟨1, 1⟩, ⟨4, 1⟩] #[] = .ok graph log₁ ∧
      loopWithFunction.build ⟨⟨2⟩⟩ [⟨1, 1⟩, ⟨4, 1⟩] #[] = .ok moved log₂ ∧
      graph.ShiftedBy (-3) moved := by
  have clean : loopWithFunction.firstFault? [⟨1, 1⟩, ⟨4, 1⟩] = none := by decide
  have builds : ∀ start ∈ [(⟨⟨5⟩⟩ : Numbering), ⟨⟨2⟩⟩],
      Decided (loopWithFunction.build start [⟨1, 1⟩, ⟨4, 1⟩] #[]) none := fun start member =>
    build_succeeds clean (by revert start; decide) #[]
  have fromFive := builds ⟨⟨5⟩⟩ (by decide)
  have fromTwo := builds ⟨⟨2⟩⟩ (by decide)
  rcases builds_shift_with_start fromFive.not_ranOut fromTwo.not_ranOut with
    ⟨error, log₁, _, refused, _⟩ | shifted
  · cases fromFive.error_iff.mp ⟨log₁, refused⟩
  · exact shifted

end Context

end FlowGraph
