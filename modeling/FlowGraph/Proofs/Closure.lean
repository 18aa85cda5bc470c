import FlowGraph.Proofs.Calls
import FlowGraph.Proofs.Reachability
import Mathlib.Data.List.Sort
import Mathlib.Logic.Relation

/-! # Reachable blocks are a closure

The search for reachable blocks as a loop without a bound: as long as a block is on the
stack, it is looked up, and those of its successors that were not seen before are seen and
put on the stack. Every look takes a block off the stack, and a block is put on it once, so
the loop ends in every graph. In a graph that calls have made it comes upon no unknown block,
runs as the search by marks does, and sees the closure of the start under successors.
-/

namespace FlowGraph

/-- The order of ids. -/
def BlockId.Before (left right : BlockId) : Prop := left.index < right.index

namespace BlockId

instance (left right : BlockId) : Decidable (left.Before right) :=
  inferInstanceAs (Decidable (left.index < right.index))

instance : Std.Irrefl Before := ⟨fun id => Nat.lt_irrefl id.index⟩

instance : Std.Antisymm Before := ⟨fun _ _ before behind => absurd behind (Nat.lt_asymm before)⟩

theorem pairwise_orderedInsert {ids : List BlockId} {id : BlockId} (sorted : ids.Pairwise Before)
    (new : id ∉ ids) : (ids.orderedInsert Before id).Pairwise Before := by
  induction ids with
  | nil => exact List.pairwise_singleton ..
  | cons first ids ih =>
      obtain ⟨least, sorted⟩ := List.pairwise_cons.mp sorted
      obtain ⟨other, new⟩ := not_or.mp (mt List.mem_cons.mpr new)
      rw [List.orderedInsert_cons]
      split
      · rename_i before
        refine List.pairwise_cons.mpr ⟨?_, List.pairwise_cons.mpr ⟨least, sorted⟩⟩
        simp only [List.forall_mem_cons]
        exact ⟨before, fun later member => Nat.lt_trans before (least later member)⟩
      · rename_i notBefore
        refine List.pairwise_cons.mpr ⟨fun later member => ?_, ih sorted new⟩
        rcases (List.mem_orderedInsert ..).mp member with rfl | member
        · rw [eq_iff] at other
          simp only [Before] at notBefore ⊢
          omega
        · exact least later member

end BlockId

namespace Graph

/-- The blocks seen so far, by increasing id, and those of them that were not looked at, the
    one put there last first. -/
structure Exploration where
  seen : List BlockId
  stack : List BlockId
  deriving Repr, DecidableEq

/-- Sees a block and puts it on the stack, unless it was seen before. -/
def Exploration.meet (exploration : Exploration) (id : BlockId) : Exploration :=
  if id ∈ exploration.seen then exploration
  else ⟨exploration.seen.orderedInsert BlockId.Before id, id :: exploration.stack⟩

/-- The ends of all edges. -/
def targets (graph : Graph) : List BlockId := graph.blocks.toList.flatMap (·.successors)

/-- How much an exploration has before it: the blocks on the stack, and the ends of edges
    that can still be put there. -/
def ahead (graph : Graph) (exploration : Exploration) : Nat :=
  exploration.stack.length + (graph.targets.filter (· ∉ exploration.seen)).length

variable {graph : Graph} {exploration : Exploration} {search : Search} {id start : BlockId}
  {block : Block}

theorem ahead_meet_le (target : id ∈ graph.targets) :
    graph.ahead (exploration.meet id) ≤ graph.ahead exploration := by
  unfold Exploration.meet
  split
  · exact Nat.le_refl _
  · rename_i new
    have without : graph.targets.filter (· ∉ exploration.seen.orderedInsert BlockId.Before id) =
        (graph.targets.filter (· ∉ exploration.seen)).filter (· ≠ id) := by
      simp [List.filter_filter, List.mem_orderedInsert]
    have listed : id ∈ graph.targets.filter (· ∉ exploration.seen) :=
      List.mem_filter.mpr ⟨target, decide_eq_true new⟩
    have fewer : ((graph.targets.filter (· ∉ exploration.seen)).filter (· ≠ id)).length <
        (graph.targets.filter (· ∉ exploration.seen)).length :=
      List.length_filter_lt_length_iff_exists.mpr ⟨id, listed, by simp⟩
    simp only [ahead, List.length_cons, without]
    omega

theorem ahead_foldl_le {ids : List BlockId} (targets : ∀ id ∈ ids, id ∈ graph.targets) :
    graph.ahead (ids.foldl Exploration.meet exploration) ≤ graph.ahead exploration := by
  induction ids generalizing exploration with
  | nil => exact Nat.le_refl _
  | cons id ids ih =>
      obtain ⟨first, others⟩ := List.forall_mem_cons.mp targets
      exact Nat.le_trans (ih others) (ahead_meet_le first)

theorem block_eq_ok : graph.block id = .ok block ↔ graph.block? id = some block := by
  unfold Graph.block
  cases graph.block? id <;> simp

theorem mem_targets (here : graph.block id = .ok block) {target : BlockId}
    (edge : target ∈ block.successors) : target ∈ graph.targets :=
  List.mem_flatMap.mpr ⟨block, mem_blocks_of_block? (block_eq_ok.mp here), edge⟩

/-- Looks at the blocks on the stack until there are none. A block that is not in the graph
    stops the loop. -/
def explore (graph : Graph) : Exploration → Except GraphFault (List BlockId)
  | ⟨seen, []⟩ => .ok seen
  | ⟨seen, id :: stack⟩ =>
      match _here : graph.block id with
      | .error fault => .error fault
      | .ok block => graph.explore (block.successors.foldl Exploration.meet ⟨seen, stack⟩)
termination_by exploration => graph.ahead exploration
decreasing_by
  have fewer : graph.ahead (block.successors.foldl Exploration.meet ⟨seen, stack⟩) ≤
      graph.ahead ⟨seen, stack⟩ := ahead_foldl_le fun _ => mem_targets _here
  simp only [ahead, List.length_cons] at fewer ⊢
  omega

/-- The blocks that an exploration from a block sees. -/
def exploreFrom (graph : Graph) (start : BlockId) : Except GraphFault (List BlockId) :=
  if graph.contains start then graph.explore ⟨[start], [start]⟩ else .error (.unknownBlock start)

/-- The exploration has seen the blocks that the search has marked, and both have the same
    blocks before them. -/
structure Mirrors (graph : Graph) (search : Search) (exploration : Exploration) : Prop where
  size : search.marks.size = graph.size
  sorted : exploration.seen.Pairwise BlockId.Before
  seen : ∀ id, id ∈ exploration.seen ↔ graph.marked search.marks id = true
  stack : exploration.stack = search.pending

theorem pending_meet (known : graph.contains id = true) (search : Search) :
    (graph.meet search id).pending =
      if graph.marked search.marks id then search.pending else id :: search.pending := by
  obtain ⟨found, _⟩ := position?_of_contains known
  simp only [meet, marked, found]
  split <;> rfl

namespace Mirrors

theorem meet (mirrors : graph.Mirrors search exploration) (known : graph.contains id = true) :
    graph.Mirrors (graph.meet search id) (exploration.meet id) := by
  have met := met_meet mirrors.size known
  have pending := pending_meet known search
  unfold Exploration.meet
  split
  · rename_i old
    have marked := (mirrors.seen id).mp old
    refine ⟨met.size.trans mirrors.size, mirrors.sorted, fun other => ?_, ?_⟩
    · rw [met.marked, mirrors.seen, List.mem_singleton]
      constructor
      · exact .inl
      · rintro (old | rfl)
        · exact old
        · exact marked
    · rw [pending, if_pos marked, mirrors.stack]
  · rename_i new
    have unmarked := mt (mirrors.seen id).mpr new
    refine ⟨met.size.trans mirrors.size, BlockId.pairwise_orderedInsert mirrors.sorted new,
      fun other => ?_, ?_⟩
    · rw [met.marked, ← mirrors.seen, List.mem_orderedInsert, List.mem_singleton, or_comm]
    · rw [pending, if_neg unmarked, mirrors.stack]

theorem foldl {ids : List BlockId} (mirrors : graph.Mirrors search exploration)
    (known : ∀ id ∈ ids, graph.contains id = true) :
    graph.Mirrors (ids.foldl graph.meet search) (ids.foldl Exploration.meet exploration) := by
  induction ids generalizing search exploration with
  | nil => exact mirrors
  | cons id ids ih =>
      obtain ⟨first, others⟩ := List.forall_mem_cons.mp known
      exact ih (mirrors.meet first) others

/-- One look of the loop is one look of the search. -/
theorem look {seen stack : List BlockId} (sound : graph.Sound)
    (mirrors : graph.Mirrors search ⟨seen, id :: stack⟩) (here : graph.block id = .ok block) :
    graph.Mirrors ((graph.successors id).foldl graph.meet ⟨search.marks, stack⟩)
      (block.successors.foldl Exploration.meet ⟨seen, stack⟩) := by
  have out : graph.successors id = block.successors := by
    rw [successors, block_eq_ok.mp here]
  rw [out]
  refine foldl ⟨mirrors.size, mirrors.sorted, mirrors.seen, rfl⟩ fun target edge => ?_
  exact sound.contains_target (out ▸ edge)

end Mirrors

/-- A loop that has seen what a search has marked ends, and has then seen all blocks to which
    there is a way from the start of the search. -/
theorem explore_eq_ok (sound : graph.Sound) (searching : graph.Searching start search)
    (mirrors : graph.Mirrors search exploration) :
    ∃ reachable, graph.explore exploration = .ok reachable ∧
      reachable.Pairwise BlockId.Before ∧ ∀ id, id ∈ reachable ↔ graph.Reaches start id := by
  induction exploration using explore.induct graph generalizing search with
  | case1 seen =>
      refine ⟨seen, by rw [explore], mirrors.sorted, fun id => ?_⟩
      exact (mirrors.seen id).trans (searching.marked_iff mirrors.stack.symm id)
  | case2 seen id stack fault lost =>
      have waiting : id ∈ search.pending := mirrors.stack ▸ List.mem_cons_self
      have known := contains_of_marked (searching.pending id waiting)
      obtain ⟨block, here⟩ := Option.isSome_iff_exists.mp (block?_isSome.trans known)
      rw [block_eq_ok.mpr here] at lost
      cases lost
  | case3 seen id stack block here ih =>
      have met : graph.Met ⟨search.marks, stack⟩ (graph.successors id) _ :=
        met_foldl mirrors.size fun target edge => sound.contains_target edge
      obtain ⟨reachable, explored, found⟩ :=
        ih (searching.look mirrors.stack.symm met) (mirrors.look sound here)
      refine ⟨reachable, ?_, found⟩
      rw [explore, here]
      exact explored

theorem mirrors_first (known : graph.contains start = true) :
    graph.Mirrors (graph.meet ⟨Array.replicate graph.size false, []⟩ start)
      ⟨[start], [start]⟩ := by
  have blank : graph.Mirrors ⟨Array.replicate graph.size false, []⟩ ⟨[], []⟩ :=
    ⟨by simp, .nil, by simp [marked_replicate], rfl⟩
  exact blank.meet known

/-- Control can go on from a block to another one. -/
def Leads (graph : Graph) (source target : BlockId) : Prop := target ∈ graph.successors source

theorem reaches_iff_closure {goal : BlockId} :
    graph.Reaches start goal ↔ Relation.ReflTransGen graph.Leads start goal := by
  constructor
  · rintro ⟨blocks, path⟩
    induction path with
    | here => exact .refl
    | step edge _ ih => exact .head edge ih
  · intro closure
    induction closure with
    | refl => exact .refl start
    | tail _ edge ih => exact ih.snoc edge

theorem pairwise_ids (sound : graph.Sound) : graph.ids.Pairwise BlockId.Before := by
  rw [sound.numbered.ids_eq, List.pairwise_map]
  exact List.pairwise_lt_range.imp fun less => Nat.add_lt_add_left less _

/-- The loop and the search by marks give the same list. -/
theorem exploreFrom_eq (sound : graph.Sound) (known : graph.contains start = true) :
    ∃ reachable, graph.exploreFrom start = .ok reachable ∧
      graph.reachableFrom start = .ok reachable ∧ reachable.Pairwise BlockId.Before ∧
      ∀ id, id ∈ reachable ↔ Relation.ReflTransGen graph.Leads start id := by
  obtain ⟨reachable, explored, sorted, found⟩ :=
    explore_eq_ok sound (searching_first known) (mirrors_first known)
  have searched : graph.ids.filter (graph.marked (graph.marksFrom start)) = reachable := by
    refine ((pairwise_ids sound).filter _).eq_of_mem_iff sorted fun id => ?_
    rw [found, List.mem_filter, mem_ids sound, marked_marksFrom sound known]
    exact ⟨And.right, fun ⟨blocks, path⟩ => ⟨sound.contains_of_path path known, blocks, path⟩⟩
  refine ⟨reachable, ?_, ?_, sorted, fun id => (found id).trans reaches_iff_closure⟩
  · rw [exploreFrom, if_pos known, explored]
  · simp only [reachableFrom, known, if_true, searched]

/-- The blocks that are not reached are those without a mark. -/
theorem unreachable_eq {reachable : List BlockId}
    (searched : graph.reachableFrom graph.entry = .ok reachable) :
    graph.unreachable = graph.ids.filter (· ∉ reachable) := by
  unfold reachableFrom at searched
  split at searched
  · cases searched
    refine List.filter_congr fun id member => ?_
    simp [member]
  · cases searched

/-- The graph is what some calls leave of a new one. -/
def Arises (graph : Graph) : Prop :=
  ∃ start first calls, new start = .ok first ∧ first.calledAll calls = graph

theorem entry_known_of_perform {after : Graph} {operation : Operation}
    (known : graph.contains graph.entry = true) (h : graph.perform operation = .ok after) :
    after.contains after.entry = true := by
  have history := history_perform h
  rw [history.entry]
  exact history.contains known

namespace Arises

theorem regular (arises : graph.Arises) : graph.Regular := by
  obtain ⟨start, first, calls, made, rfl⟩ := arises
  obtain rfl := new_eq_blank made
  exact (Regular.blank (new_eq_ok made).1).calledAll calls

theorem sound (arises : graph.Arises) : graph.Sound := arises.regular.sound

theorem entry_known (arises : graph.Arises) : graph.contains graph.entry = true := by
  obtain ⟨start, first, calls, made, rfl⟩ := arises
  obtain rfl := new_eq_blank made
  exact calledAll_induction (fun later => later.contains later.entry = true)
    (fun _ _ _ => entry_known_of_perform) (WalkState.ready_blank start.next).known calls

end Arises

/-- In a graph that arises from calls the search from a block that is there ends without
    coming upon an unknown one, and gives the closure of the block under successors, each
    block once and by increasing id. The others are unreachable, in the order in which they
    were made. -/
theorem reachable_blocks_closure (arises : graph.Arises) :
    (∀ start, graph.contains start = true →
      ∃ reachable, graph.exploreFrom start = .ok reachable ∧
        graph.reachableFrom start = .ok reachable ∧ reachable.Pairwise BlockId.Before ∧
        ∀ id, id ∈ reachable ↔ Relation.ReflTransGen graph.Leads start id) ∧
    ∃ reachable, graph.exploreFrom graph.entry = .ok reachable ∧
      graph.unreachable = graph.ids.filter (· ∉ reachable) ∧
      ∀ id, id ∈ graph.unreachable ↔
        graph.contains id = true ∧ ¬ Relation.ReflTransGen graph.Leads graph.entry id := by
  have sound := arises.sound
  refine ⟨fun start known => exploreFrom_eq sound known, ?_⟩
  obtain ⟨reachable, explored, searched, _, _⟩ := exploreFrom_eq sound arises.entry_known
  refine ⟨reachable, explored, unreachable_eq searched, fun id => ?_⟩
  rw [mem_unreachable sound arises.entry_known, reaches_iff_closure]

/-- Calls that make a loop between two blocks, one edge from a block to itself and a block that
    has ways out but none in, from the number seven on. -/
def loopAndIsland : List Operation :=
  [.create, .create, .create, .link ⟨8⟩ ⟨7⟩, .link ⟨7⟩ ⟨8⟩, .link ⟨8⟩ ⟨8⟩, .link ⟨8⟩ ⟨12⟩,
    .link ⟨10⟩ ⟨9⟩, .link ⟨9⟩ ⟨7⟩]

theorem reachable_blocks_closure_loopAndIsland :
    ∃ graph : Graph, graph.Arises ∧ graph.exploreFrom ⟨8⟩ = .ok [⟨7⟩, ⟨8⟩] ∧
      graph.exploreFrom ⟨10⟩ = .ok [⟨7⟩, ⟨8⟩, ⟨9⟩, ⟨10⟩] ∧ graph.unreachable = [⟨9⟩, ⟨10⟩] ∧
      ¬ Relation.ReflTransGen graph.Leads graph.entry ⟨9⟩ := by
  have made : new (.startingFrom 7) = .ok (blank ⟨7⟩) := rfl
  have arises : ((blank ⟨7⟩).calledAll loopAndIsland).Arises := ⟨_, _, loopAndIsland, made, rfl⟩
  obtain ⟨searches, _, _, _, mem_unreachable⟩ := reachable_blocks_closure arises
  have found : ∀ start reachable,
      ((blank ⟨7⟩).calledAll loopAndIsland).contains start = true →
      ((blank ⟨7⟩).calledAll loopAndIsland).reachableFrom start = .ok reachable →
      ((blank ⟨7⟩).calledAll loopAndIsland).exploreFrom start = .ok reachable := by
    intro start reachable known searched
    obtain ⟨_, explored, same, _⟩ := searches start known
    cases same.symm.trans searched
    exact explored
  have unreachable : ((blank ⟨7⟩).calledAll loopAndIsland).unreachable = [⟨9⟩, ⟨10⟩] := by decide
  refine ⟨_, arises, found _ _ (by decide) (by decide), found _ _ (by decide) (by decide),
    unreachable, ?_⟩
  exact ((mem_unreachable ⟨9⟩).mp (unreachable ▸ List.mem_cons_self)).2

end Graph

end FlowGraph
