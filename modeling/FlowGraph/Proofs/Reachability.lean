import FlowGraph.Graph.Reach
import FlowGraph.Proofs.History

/-! # Reachability is having a path

The search for reachable blocks marks a block when it is met. Every marked block has a
path from the start, and the successors of a marked block are marked unless it is still
pending; each look takes one block off, so when the looks are over nothing is pending.
-/

namespace FlowGraph.Graph

/-- The blocks that control passes on one way from a block to another, both included. -/
inductive Path (graph : Graph) : BlockId → BlockId → List BlockId → Prop where
  | here {id} : Path graph id id [id]
  | step {source target goal blocks} : target ∈ graph.successors source →
      Path graph target goal blocks → Path graph source goal (source :: blocks)

def Reaches (graph : Graph) (source goal : BlockId) : Prop :=
  ∃ blocks, graph.Path source goal blocks

variable {graph : Graph} {source mid target goal : BlockId} {blocks more : List BlockId}

theorem Path.eq_cons (path : graph.Path source goal blocks) :
    ∃ behind, blocks = source :: behind := by
  cases path <;> exact ⟨_, rfl⟩

theorem Path.trans (first : graph.Path source mid blocks) (edge : target ∈ graph.successors mid)
    (second : graph.Path target goal more) : graph.Path source goal (blocks ++ more) := by
  induction first with
  | here => exact .step edge second
  | step edge' _ ih => exact .step edge' (ih edge)

theorem Reaches.refl (id : BlockId) : graph.Reaches id id := ⟨_, .here⟩

theorem Reaches.snoc (h : graph.Reaches source mid) (edge : target ∈ graph.successors mid) :
    graph.Reaches source target :=
  h.elim fun _ path => ⟨_, path.trans edge .here⟩

theorem Sound.contains_of_path (sound : graph.Sound) (path : graph.Path source goal blocks)
    (known : graph.contains source = true) : graph.contains goal = true := by
  induction path with
  | here => exact known
  | step edge _ ih => exact ih (sound.contains_target edge)

theorem mem_ids (sound : graph.Sound) {id : BlockId} :
    id ∈ graph.ids ↔ graph.contains id = true := by
  constructor
  · intro member
    obtain ⟨block, listed, rfl⟩ := List.mem_map.mp member
    exact contains_of_block? (sound.numbered.block?_id listed)
  · intro known
    obtain ⟨block, here⟩ := Option.isSome_iff_exists.mp (block?_isSome.trans known)
    exact List.mem_map.mpr ⟨block, mem_blocks_of_block? here, sound.numbered.id_eq id block here⟩

section Marks

variable {marks : Array Bool} {search : Search} {id other : BlockId}

theorem position?_of_contains (known : graph.contains id = true) :
    graph.position? id = some (id.index - graph.base) ∧
      id.index - graph.base < graph.size := by
  have bounds := contains_iff.mp known
  simp only [next] at bounds
  have inside : graph.base ≤ id.index ∧ id.index - graph.base < graph.size := by
    omega
  exact ⟨if_pos inside, inside.2⟩

theorem contains_of_marked (h : graph.marked marks id = true) : graph.contains id = true := by
  unfold marked at h
  unfold contains
  cases found : graph.position? id with
  | none => simp [found] at h
  | some position => rfl

theorem marked_set (size : marks.size = graph.size) (known : graph.contains id = true) :
    graph.marked (marks.setIfInBounds (id.index - graph.base) true) other = true ↔
      other = id ∨ graph.marked marks other = true := by
  obtain ⟨_, inside⟩ := position?_of_contains known
  by_cases knownOther : graph.contains other = true
  · obtain ⟨found, insideOther⟩ := position?_of_contains knownOther
    by_cases same : other = id
    · subst same
      simp [marked, found, size, inside]
    · have apart : id.index - graph.base ≠ other.index - graph.base := by
        intro equal
        have bounds := contains_iff.mp known
        have boundsOther := contains_iff.mp knownOther
        apply same
        cases other
        cases id
        simp only [BlockId.mk.injEq] at *
        omega
      simp [marked, found, same, apart]
  · have different : other ≠ id := by
      rintro rfl
      exact knownOther known
    constructor
    · exact fun h => absurd (contains_of_marked h) knownOther
    · rintro (same | h)
      · exact absurd same different
      · exact absurd (contains_of_marked h) knownOther

end Marks

/-- How much of a search is left: every look takes one away, and meeting a block none. -/
def Search.left (search : Search) : Nat := search.pending.length + search.marks.count false

/-- A search after meeting some blocks: they are marked, and those that were not are
    pending. -/
structure Met (graph : Graph) (search : Search) (ids : List BlockId) (after : Search) : Prop where
  size : after.marks.size = search.marks.size
  marked : ∀ id, graph.marked after.marks id = true ↔
    graph.marked search.marks id = true ∨ id ∈ ids
  pending : ∀ id, id ∈ after.pending ↔
    id ∈ search.pending ∨ id ∈ ids ∧ ¬ graph.marked search.marks id = true
  left : after.left = search.left

theorem met_meet {search : Search} {id : BlockId} (size : search.marks.size = graph.size)
    (known : graph.contains id = true) : graph.Met search [id] (graph.meet search id) := by
  obtain ⟨found, inside⟩ := position?_of_contains known
  have marked_eq : graph.marked search.marks id =
      search.marks.getD (id.index - graph.base) false := by
    simp [marked, found]
  by_cases before : graph.marked search.marks id = true
  · have same : graph.meet search id = search := by
      simp only [meet, found, ← marked_eq, before, if_true]
    rw [same]
    refine ⟨rfl, fun other => ?_, fun other => ?_, rfl⟩
    · by_cases equal : other = id <;> simp [equal, before]
    · by_cases equal : other = id <;> simp [equal, before]
  · have new : graph.meet search id =
        ⟨search.marks.setIfInBounds (id.index - graph.base) true, id :: search.pending⟩ := by
      simp only [meet, found, ← marked_eq, before]
      rfl
    rw [new]
    have room : id.index - graph.base < search.marks.size := by omega
    have unmarked : search.marks[id.index - graph.base] = false := by
      rw [marked_eq] at before
      simpa [room] using before
    refine ⟨by simp, fun other => ?_, fun other => ?_, ?_⟩
    · rw [marked_set size known, List.mem_singleton, or_comm]
    · by_cases equal : other = id <;> simp [equal, before]
    · have counted := Array.count_pos_iff.mpr (unmarked ▸ Array.getElem_mem room)
      simp only [Search.left, List.length_cons, Array.setIfInBounds, room, dif_pos,
        Array.count_set, unmarked]
      simp
      omega

theorem met_foldl {search : Search} {ids : List BlockId} (size : search.marks.size = graph.size)
    (known : ∀ id ∈ ids, graph.contains id = true) :
    graph.Met search ids (ids.foldl graph.meet search) := by
  induction ids generalizing search with
  | nil => exact ⟨rfl, by simp, by simp, rfl⟩
  | cons id ids ih =>
      have first := met_meet size (known id List.mem_cons_self)
      have rest := ih (first.size.trans size) fun other member =>
        known other (List.mem_cons_of_mem _ member)
      refine ⟨rest.size.trans first.size, fun other => ?_, fun other => ?_,
        rest.left.trans first.left⟩
      · rw [List.foldl_cons, rest.marked, first.marked, List.mem_singleton, List.mem_cons, or_assoc]
      · rw [List.foldl_cons, rest.pending, first.pending, first.marked, List.mem_singleton,
          List.mem_cons]
        by_cases same : other = id <;> by_cases member : other ∈ ids <;> simp [same, member]

/-- What holds while a search from a block goes on. -/
structure Searching (graph : Graph) (start : BlockId) (search : Search) : Prop where
  size : search.marks.size = graph.size
  begun : graph.marked search.marks start = true
  reached : ∀ id, graph.marked search.marks id = true → graph.Reaches start id
  pending : ∀ id ∈ search.pending, graph.marked search.marks id = true
  closed : ∀ id, graph.marked search.marks id = true →
    id ∈ search.pending ∨ ∀ target ∈ graph.successors id, graph.marked search.marks target = true

namespace Searching

variable {start : BlockId} {search : Search}

theorem marked_of_path (searching : graph.Searching start search) (finished : search.pending = [])
    (path : graph.Path source goal blocks) (marked : graph.marked search.marks source = true) :
    graph.marked search.marks goal = true := by
  induction path with
  | here => exact marked
  | step edge _ ih =>
      rcases searching.closed _ marked with waiting | closed
      · simp [finished] at waiting
      · exact ih (closed _ edge)

/-- When nothing is pending, the marks are those of the reachable blocks. -/
theorem marked_iff (searching : graph.Searching start search) (finished : search.pending = [])
    (id : BlockId) : graph.marked search.marks id = true ↔ graph.Reaches start id :=
  ⟨searching.reached id, fun ⟨_, path⟩ => searching.marked_of_path finished path searching.begun⟩

theorem look (searching : graph.Searching start search) {id : BlockId}
    {pending : List BlockId} (first : search.pending = id :: pending) {after : Search}
    (met : graph.Met ⟨search.marks, pending⟩ (graph.successors id) after) :
    graph.Searching start after := by
  have here := searching.pending id (by simp [first])
  constructor
  · exact met.size.trans searching.size
  · exact (met.marked start).mpr (.inl searching.begun)
  · intro other marked
    rcases (met.marked other).mp marked with old | edge
    · exact searching.reached other old
    · exact (searching.reached id here).snoc edge
  · intro other waiting
    rcases (met.pending other).mp waiting with old | ⟨new, _⟩
    · exact (met.marked other).mpr (.inl (searching.pending other (by simp [first, old])))
    · exact (met.marked other).mpr (.inr new)
  · intro other marked
    by_cases before : graph.marked search.marks other = true
    · rcases searching.closed other before with waiting | closed
      · rw [first] at waiting
        rcases List.mem_cons.mp waiting with rfl | waiting
        · exact .inr fun target edge => (met.marked target).mpr (.inr edge)
        · exact .inl ((met.pending other).mpr (.inl waiting))
      · exact .inr fun target edge => (met.marked target).mpr (.inl (closed target edge))
    · rcases (met.marked other).mp marked with old | new
      · exact absurd old before
      · exact .inl ((met.pending other).mpr (.inr ⟨new, before⟩))

/-- A search with enough looks finds exactly the reachable blocks. -/
theorem marked_sweep (searching : graph.Searching start search) (sound : graph.Sound) {looks : Nat}
    (enough : search.left ≤ looks) (id : BlockId) :
    graph.marked (graph.sweep looks search) id = true ↔ graph.Reaches start id := by
  induction looks generalizing search with
  | zero =>
      have finished : search.pending = [] := by
        rw [← List.length_eq_zero_iff]
        simp only [Search.left] at enough
        omega
      exact searching.marked_iff finished id
  | succ looks ih =>
      unfold sweep
      cases first : search.pending with
      | nil => exact searching.marked_iff first id
      | cons next pending =>
          have met : graph.Met ⟨search.marks, pending⟩ (graph.successors next) _ :=
            met_foldl searching.size fun target edge => sound.contains_target edge
          refine ih (searching.look first met) ?_
          rw [met.left]
          simp only [Search.left, first, List.length_cons] at enough ⊢
          omega

end Searching

theorem marked_replicate (id : BlockId) :
    graph.marked (Array.replicate graph.size false) id = false := by
  unfold marked
  split
  · rw [Array.getD_eq_getD_getElem?, Array.getElem?_replicate]
    split <;> rfl
  · rfl

/-- The search from a block begins with the block met. -/
theorem searching_first {start : BlockId} (known : graph.contains start = true) :
    graph.Searching start (graph.meet ⟨Array.replicate graph.size false, []⟩ start) := by
  have met : graph.Met ⟨Array.replicate graph.size false, []⟩ [start] _ :=
    met_meet (by simp) known
  have marked : ∀ other,
      graph.marked (graph.meet ⟨Array.replicate graph.size false, []⟩ start).marks other = true ↔
        other = start := by
    intro other
    rw [met.marked, marked_replicate, List.mem_singleton]
    simp
  constructor
  · simpa using met.size
  · exact (marked start).mpr rfl
  · intro other h
    rw [(marked other).mp h]
    exact .refl start
  · intro other waiting
    rw [met.pending, marked_replicate] at waiting
    exact (marked other).mpr (by simpa using waiting)
  · intro other h
    left
    rw [met.pending, marked_replicate]
    simpa using (marked other).mp h

theorem marked_marksFrom (sound : graph.Sound) {start : BlockId}
    (known : graph.contains start = true) (id : BlockId) :
    graph.marked (graph.marksFrom start) id = true ↔ graph.Reaches start id := by
  refine (searching_first known).marked_sweep sound ?_ id
  rw [(met_meet (by simp) known).left]
  simp [Search.left]

/-- The reachable blocks are those to which there is a path. -/
theorem mem_reachableFrom (sound : graph.Sound) {start : BlockId}
    (known : graph.contains start = true) :
    ∃ reachable, graph.reachableFrom start = .ok reachable ∧
      ∀ id, id ∈ reachable ↔ graph.Reaches start id := by
  refine ⟨_, if_pos known, fun id => ?_⟩
  rw [List.mem_filter, mem_ids sound, marked_marksFrom sound known]
  exact ⟨And.right, fun ⟨blocks, path⟩ => ⟨sound.contains_of_path path known, blocks, path⟩⟩

theorem mem_unreachable (sound : graph.Sound) (known : graph.contains graph.entry = true)
    {id : BlockId} :
    id ∈ graph.unreachable ↔ graph.contains id = true ∧ ¬ graph.Reaches graph.entry id := by
  rw [unreachable, List.mem_filter, mem_ids sound, ← marked_marksFrom sound known]
  simp

end FlowGraph.Graph
