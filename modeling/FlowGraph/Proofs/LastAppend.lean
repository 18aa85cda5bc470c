import FlowGraph.Proofs.Calls
import FlowGraph.Proofs.Order
import Mathlib.Data.List.Induction

/-! # The last append decides

The placement of a graph is a second record of what was appended to its blocks. An append that
went through leaves no trace there when its id is null, or older than the one that counts for
its slot. As long as the versions of a slot are less than half the circle apart, the one that
counts is the newest of them, with the block to which that was appended last. A build appends
ids of statements that are in the pool, one version for each slot; so its placement has the
last occurrence of every statement that it visited, and nothing else.
-/

namespace FlowGraph

/-- Where the versions lie within half a circle, the older one is the smaller number. -/
theorem StmtId.olderThan_iff {left right : StmtId}
    (above : left.version.toNat < right.version.toNat + 2147483648)
    (below : right.version.toNat < left.version.toNat + 2147483648) :
    left.olderThan right = true ↔ left.version < right.version := by
  rw [olderThan, decide_eq_true_eq, UInt32.le_iff_toNat_le, UInt32.lt_iff_toNat_lt,
    UInt32.toNat_sub]
  have small := left.version.toNat_lt
  have small' := right.version.toNat_lt
  have half : (0x80000000 : UInt32).toNat = 2147483648 := rfl
  omega

/-- What an operation appends, with the block to which it appends it. -/
def Operation.placements : Operation → List (StmtId × BlockId)
  | append block stmt => [(stmt, block)]
  | _ => []

/-- The block to which a statement was appended last. -/
def lastBlock? (appends : List (StmtId × BlockId)) (stmt : StmtId) : Option BlockId :=
  appends.reverse.lookup stmt

theorem lastBlock?_snoc (appends : List (StmtId × BlockId)) (new stmt : StmtId)
    (block : BlockId) :
    lastBlock? (appends ++ [(new, block)]) stmt =
      if stmt = new then some block else lastBlock? appends stmt := by
  rw [lastBlock?, List.reverse_append, List.reverse_singleton, List.singleton_append,
    List.lookup_cons]
  by_cases same : stmt = new
  · simp [same]
  · simp [beq_false_of_ne same, same, lastBlock?]

theorem mem_of_lastBlock? {appends : List (StmtId × BlockId)} {stmt : StmtId} {block : BlockId}
    (last : lastBlock? appends stmt = some block) : (stmt, block) ∈ appends := by
  obtain ⟨before, behind, split, _⟩ := List.lookup_eq_some_iff.mp last
  apply List.mem_reverse.mp
  rw [split]
  exact List.mem_append_right _ List.mem_cons_self

theorem exists_lastBlock? {appends : List (StmtId × BlockId)} {stmt : StmtId}
    (appended : stmt ∈ appends.map (·.1)) : ∃ block, lastBlock? appends stmt = some block := by
  induction appends using List.reverseRecOn with
  | nil => cases appended
  | append_singleton appends entry ih =>
      rw [lastBlock?_snoc]
      by_cases same : stmt = entry.1
      · exact ⟨entry.2, if_pos same⟩
      · rw [if_neg same]
        apply ih
        simpa [same] using appended

namespace Placement

/-- The placement after some appends, first to last. -/
def ofAppends (appends : List (StmtId × BlockId)) : Placement :=
  appends.foldl (fun placement entry => placement.insert entry.1 entry.2) {}

theorem ofAppends_snoc (appends : List (StmtId × BlockId)) (entry : StmtId × BlockId) :
    ofAppends (appends ++ [entry]) = (ofAppends appends).insert entry.1 entry.2 := by
  rw [ofAppends, List.foldl_append]
  rfl

/-- The versions appended for a slot index differ by less than half a circle. -/
def Close (appends : List (StmtId × BlockId)) (index : UInt32) : Prop :=
  ∀ left ∈ appends, ∀ right ∈ appends, left.1.index = index → right.1.index = index →
    left.1.version.toNat < right.1.version.toNat + 2147483648

instance (appends : List (StmtId × BlockId)) (index : UInt32) : Decidable (Close appends index) :=
  inferInstanceAs (Decidable (∀ left ∈ appends, ∀ right ∈ appends, _))

/-- No version was appended for the slot of the statement that is newer than its own. -/
def Newest (appends : List (StmtId × BlockId)) (stmt : StmtId) : Prop :=
  ∀ entry ∈ appends, entry.1.index = stmt.index → entry.1.version ≤ stmt.version

instance (appends : List (StmtId × BlockId)) (stmt : StmtId) : Decidable (Newest appends stmt) :=
  inferInstanceAs (Decidable (∀ entry ∈ appends, _))

/-- The entry is the one that counts for a slot index: none when nothing was appended for it,
    otherwise the newest version with its last block. -/
def Counts (appends : List (StmtId × BlockId)) (index : UInt32) :
    Option (StmtId × BlockId) → Prop
  | none => ∀ entry ∈ appends, entry.1.index ≠ index
  | some (stmt, block) =>
      stmt.index = index ∧ lastBlock? appends stmt = some block ∧ Newest appends stmt

theorem current?_insert_self (placement : Placement) {stmt : StmtId} (block : BlockId)
    (real : stmt.isNull = false) :
    (placement.insert stmt block).current? stmt.index =
      match placement.current? stmt.index with
      | none => some (stmt, block)
      | some entry => if stmt.olderThan entry.1 then some entry else some (stmt, block) := by
  unfold insert
  cases found : placement.current? stmt.index with
  | none => simp [real, current?]
  | some entry =>
      cases older : stmt.olderThan entry.1 with
      | false => simp [real, older, current?]
      | true => simpa [real, older] using found

theorem newest_snoc {appends : List (StmtId × BlockId)} {stmt new : StmtId} {block : BlockId}
    (newest : Newest appends stmt) (older : new.index = stmt.index → new.version ≤ stmt.version) :
    Newest (appends ++ [(new, block)]) stmt := by
  intro entry member same
  rcases List.mem_append.mp member with old | last
  · exact newest entry old same
  · obtain rfl := List.mem_singleton.mp last
    exact older same

theorem Counts.snoc_of_ne {appends : List (StmtId × BlockId)} {index : UInt32} {new : StmtId}
    {block : BlockId} {entry : Option (StmtId × BlockId)} (counts : Counts appends index entry)
    (other : new.index ≠ index) : Counts (appends ++ [(new, block)]) index entry := by
  cases entry with
  | none =>
      intro appended member
      rcases List.mem_append.mp member with old | last
      · exact counts appended old
      · obtain rfl := List.mem_singleton.mp last
        exact other
  | some found =>
      obtain ⟨here, last, newest⟩ := counts
      have different : found.1 ≠ new := fun same => other (same ▸ here)
      refine ⟨here, ?_, newest_snoc newest fun same => absurd (same.trans here) other⟩
      rw [lastBlock?_snoc, if_neg different]
      exact last

theorem counts_snoc_self {appends : List (StmtId × BlockId)} {new : StmtId} (block : BlockId)
    (newest : Newest appends new) :
    Counts (appends ++ [(new, block)]) new.index (some (new, block)) := by
  refine ⟨rfl, ?_, newest_snoc newest fun _ => UInt32.le_refl _⟩
  rw [lastBlock?_snoc, if_pos rfl]

theorem Counts.snoc_of_lt {appends : List (StmtId × BlockId)} {index : UInt32} {new : StmtId}
    {block : BlockId} {entry : StmtId × BlockId} (counts : Counts appends index (some entry))
    (older : new.version < entry.1.version) :
    Counts (appends ++ [(new, block)]) index (some entry) := by
  obtain ⟨here, last, newest⟩ := counts
  have different : entry.1 ≠ new := by
    intro same
    exact UInt32.lt_irrefl _ (same ▸ older)
  refine ⟨here, ?_, newest_snoc newest fun _ => UInt32.le_of_lt older⟩
  rw [lastBlock?_snoc, if_neg different]
  exact last

theorem Counts.insert {appends : List (StmtId × BlockId)} {index : UInt32} {new : StmtId}
    {block : BlockId} {placement : Placement}
    (counts : Counts appends index (placement.current? index))
    (close : Close (appends ++ [(new, block)]) index) (real : index ≠ StmtId.nullIndex) :
    Counts (appends ++ [(new, block)]) index ((placement.insert new block).current? index) := by
  by_cases other : new.index ≠ index
  · rw [current?_insert_of_ne _ _ other]
    exact counts.snoc_of_ne other
  obtain rfl := not_not.mp other
  rw [current?_insert_self _ _ (by simpa [StmtId.isNull] using real)]
  cases found : placement.current? new.index with
  | none =>
      rw [found] at counts
      exact counts_snoc_self block fun entry member same => absurd same (counts entry member)
  | some entry =>
      rw [found] at counts
      have here : entry.1.index = new.index := counts.1
      have listed : entry ∈ appends ++ [(new, block)] :=
        List.mem_append_left _ (mem_of_lastBlock? counts.2.1)
      have appended : (new, block) ∈ appends ++ [(new, block)] := by simp
      have older_iff : new.olderThan entry.1 = true ↔ new.version < entry.1.version :=
        StmtId.olderThan_iff (close _ appended _ listed rfl here)
          (close _ listed _ appended here rfl)
      by_cases older : new.olderThan entry.1 = true
      · simp only [older, if_true]
        exact counts.snoc_of_lt (older_iff.mp older)
      · simp only [older]
        apply counts_snoc_self
        intro appendedEntry member same
        have notLess : entry.1.version ≤ new.version := UInt32.not_lt.mp (mt older_iff.mpr older)
        exact UInt32.le_trans (counts.2.2 appendedEntry member (same.trans here.symm)) notLess

theorem counts_ofAppends {appends : List (StmtId × BlockId)} {index : UInt32}
    (close : Close appends index) (real : index ≠ StmtId.nullIndex) :
    Counts appends index ((ofAppends appends).current? index) := by
  induction appends using List.reverseRecOn with
  | nil => exact fun _ => nofun
  | append_singleton appends entry ih =>
      rw [ofAppends_snoc]
      refine (ih fun left hl right hr => ?_).insert close real
      exact close left (List.mem_append_left _ hl) right (List.mem_append_left _ hr)

theorem get?_eq_some {placement : Placement} {stmt : StmtId} {block : BlockId} :
    placement.get? stmt = some block ↔ placement.current? stmt.index = some (stmt, block) := by
  unfold get?
  cases placement.current? stmt.index with
  | none => simp
  | some entry => simp [Prod.ext_iff]

theorem current?_null (appends : List (StmtId × BlockId)) :
    (ofAppends appends).current? StmtId.nullIndex = none := by
  induction appends using List.reverseRecOn with
  | nil => rfl
  | append_singleton appends entry ih =>
      rw [ofAppends_snoc]
      by_cases null : entry.1.index = StmtId.nullIndex
      · rw [insert, if_pos (by simpa [StmtId.isNull] using null)]
        exact ih
      · rw [current?_insert_of_ne _ _ null]
        exact ih

theorem Counts.eq {appends : List (StmtId × BlockId)} {stmt other : StmtId}
    {block last : BlockId} (counts : Counts appends stmt.index (some (other, block)))
    (appended : lastBlock? appends stmt = some last) (newest : Newest appends stmt) :
    (other, block) = (stmt, last) := by
  obtain ⟨here, appended', newest'⟩ := counts
  have version : other.version = stmt.version :=
    UInt32.le_antisymm (newest _ (mem_of_lastBlock? appended') here)
      (newest' _ (mem_of_lastBlock? appended) here.symm)
  obtain rfl : other = stmt := by
    cases other
    cases stmt
    simp_all only
  rw [Option.some.inj (appended'.symm.trans appended)]

/-- A statement is placed in the block to which it was appended last, when it is not null and
    no newer version was appended for its slot. -/
theorem get?_ofAppends {appends : List (StmtId × BlockId)} {stmt : StmtId} {block : BlockId}
    (close : Close appends stmt.index) :
    (ofAppends appends).get? stmt = some block ↔
      stmt.isNull = false ∧ lastBlock? appends stmt = some block ∧ Newest appends stmt := by
  rw [get?_eq_some]
  by_cases null : stmt.index = StmtId.nullIndex
  · rw [null, current?_null]
    simp [StmtId.isNull, null]
  have counts := counts_ofAppends close null
  have real : stmt.isNull = false := by simpa [StmtId.isNull] using null
  constructor
  · intro found
    rw [found] at counts
    exact ⟨real, counts.2⟩
  · rintro ⟨_, last, newest⟩
    cases found : (ofAppends appends).current? stmt.index with
    | none =>
        rw [found] at counts
        exact absurd rfl (counts _ (mem_of_lastBlock? last))
    | some entry =>
        rw [found] at counts
        exact congrArg some (counts.eq last newest)

end Placement

namespace Graph

variable {graph : Graph} {earlier : List (StmtId × BlockId)}

/-- The calls that go through, when they are made one after the other. -/
def accepted (graph : Graph) : List Operation → List Operation
  | [] => []
  | operation :: operations =>
      match operation.call graph with
      | .ok _ after => operation :: after.accepted operations
      | .error _ left => left.accepted operations

theorem performAll_accepted (graph : Graph) (calls : List Operation) :
    graph.performAll (graph.accepted calls) = .ok (graph.calledAll calls) := by
  induction calls generalizing graph with
  | nil => rfl
  | cons call calls ih =>
      have left : graph.calledAll (call :: calls) = (graph.called call).calledAll calls := rfl
      rw [left, accepted, called, call_eq]
      cases performed : graph.perform call with
      | ok after => exact performAll_cons_eq_ok.mpr ⟨after, performed, ih after⟩
      | error fault => exact ih graph

theorem History.placement_eq {after : Graph} {operations : List Operation}
    (history : graph.History operations after) (recorded : graph.placement = .ofAppends earlier) :
    after.placement = .ofAppends (earlier ++ operations.flatMap Operation.placements) := by
  have place : ∀ placement : Placement, operations.foldl Operation.place placement =
      (operations.flatMap Operation.placements).foldl
        (fun placement entry => placement.insert entry.1 entry.2) placement := by
    intro placement
    rw [List.foldl_flatMap]
    congr 1
    funext placement operation
    cases operation <;> rfl
  rw [history.placement, place, recorded, Placement.ofAppends, Placement.ofAppends,
    List.foldl_append]

/-- The appends among some calls that go through. -/
def acceptedAppends (graph : Graph) (calls : List Operation) : List (StmtId × BlockId) :=
  (graph.accepted calls).flatMap Operation.placements

theorem placement_calledAll (recorded : graph.placement = .ofAppends earlier)
    (calls : List Operation) :
    (graph.calledAll calls).placement = .ofAppends (earlier ++ graph.acceptedAppends calls) :=
  (history_performAll (performAll_accepted graph calls)).placement_eq recorded

/-- What the blocks list, one after the other, each statement with its block. -/
def listing (graph : Graph) (order : List BlockId) : List (StmtId × BlockId) :=
  order.flatMap fun id => (graph.statements id).map fun stmt => (stmt, id)

end Graph

theorem Flow.placements_script (flow : Flow) (before : List StmtId) (cursor : BlockId)
    (next : Nat) (frame : Option LoopFrame) (out : List BlockId) :
    (flow.pieces before cursor next frame out).flatMap
        (fun piece => piece.statements.map fun stmt => (stmt, piece.id)) =
      before.map (fun stmt => (stmt, cursor)) ++
        (flow.script cursor next frame).flatMap Operation.placements := by
  induction flow generalizing before cursor next frame out with
  | done => simp [pieces, script]
  | step id deferred rest ih => cases deferred <;> simp [pieces, script, Operation.placements, ih]
  | branch id body orelse rest ihBody ihOrelse ihRest =>
      simp [pieces, script, fork, Operation.placements, ihBody, ihOrelse, ihRest]
  | loop id body rest ihBody ihRest =>
      simp [pieces, script, fork, Operation.placements, ihBody, ihRest]
  | jump kind id rest ih =>
      have leave : (kind.leave cursor frame).flatMap Operation.placements = [] := by
        cases kind <;> cases frame <;> rfl
      simp [pieces, script, Operation.placements, leave, ih]

namespace Context

variable {context : Context} {start : Numbering} {body : List StmtId} {last : BlockId}
  {graph : Graph} {log log' : Log}

/-- The placement of a built graph is that of what its blocks list, in the order in which they
    became the cursor. -/
theorem Built.placement_eq (built : context.Built start body last graph) :
    graph.placement = .ofAppends (graph.listing ((context.pieces start body).map (·.id))) := by
  have listed : graph.listing ((context.pieces start body).map (·.id)) =
      (context.pieces start body).flatMap
        fun piece => piece.statements.map fun stmt => (stmt, piece.id) := by
    rw [Graph.listing, List.flatMap_map, List.flatMap_def, List.flatMap_def]
    congr 1
    apply List.map_congr_left
    intro piece member
    rw [(built.shows piece member).statements_eq]
  have nothing : (Graph.blank start.next).placement = .ofAppends [] := rfl
  rw [listed, pieces, Flow.placements_script]
  exact (Graph.history_performAll built.laid).placement_eq nothing

theorem Built.listing_map (built : context.Built start body last graph) :
    (graph.listing ((context.pieces start body).map (·.id))).map (·.1) = context.visited body := by
  rw [← built.statements_order, Graph.listing, List.map_flatMap]
  simp [Function.comp_def]

theorem Built.eq_of_index_eq (built : context.Built start body last graph) {left right : StmtId}
    (hl : left ∈ context.visited body) (hr : right ∈ context.visited body)
    (same : left.index = right.index) : left = right := by
  rw [built.stmts_eq] at hl hr
  obtain ⟨_, keptLeft⟩ := kept_of_reads built.reads hl
  obtain ⟨_, keptRight⟩ := kept_of_reads built.reads hr
  exact StmtPool.eq_of_get? keptLeft keptRight same

theorem Built.blockOf?_iff (built : context.Built start body last graph) {stmt : StmtId}
    {id : BlockId} : graph.blockOf? stmt = some id ↔
      lastBlock? (graph.listing ((context.pieces start body).map (·.id))) stmt = some id := by
  have visited : ∀ entry ∈ graph.listing ((context.pieces start body).map (·.id)),
      entry.1 ∈ context.visited body := by
    intro entry member
    rw [← built.listing_map]
    exact List.mem_map_of_mem member
  have close : Placement.Close (graph.listing ((context.pieces start body).map (·.id)))
      stmt.index := by
    intro left hl right hr here here'
    rw [built.eq_of_index_eq (visited left hl) (visited right hr) (here.trans here'.symm)]
    omega
  rw [Graph.blockOf?, built.placement_eq, Placement.get?_ofAppends close]
  constructor
  · exact fun found => found.2.1
  · intro appended
    have here := visited _ (mem_of_lastBlock? appended)
    refine ⟨?_, appended, fun entry member same => ?_⟩
    · obtain ⟨_, kept⟩ := kept_of_reads built.reads (built.stmts_eq ▸ here)
      exact StmtPool.isNull_of_get? kept
    · rw [built.eq_of_index_eq (visited entry member) here same]
      exact UInt32.le_refl _

/-- A statement is in the block of the last append of it that went through, unless it is null or
    a newer version was appended for its slot. After a build the statements visited, and no
    others, are in the blocks of their last occurrences. -/
theorem last_append_decides :
    (∀ (graph : Graph) (earlier : List (StmtId × BlockId)), graph.placement = .ofAppends earlier →
      ∀ (calls : List Operation) (stmt : StmtId),
        Placement.Close (earlier ++ graph.acceptedAppends calls) stmt.index → ∀ id,
          ((graph.calledAll calls).blockOf? stmt = some id ↔
            stmt.isNull = false ∧
              lastBlock? (earlier ++ graph.acceptedAppends calls) stmt = some id ∧
              Placement.Newest (earlier ++ graph.acceptedAppends calls) stmt)) ∧
    ∀ (context : Context) (start : Numbering) (body : List StmtId) (log : Log) (graph : Graph)
      (log' : Log), context.build start body log = .ok graph log' →
      ∃ order, (∀ other,
          context.Traverses (context.firstLeg start body log) other ↔ other = order) ∧
        (graph.listing order).map (·.1) = context.visited body ∧
        (∀ stmt ∈ context.visited body, ∃ id,
          lastBlock? (graph.listing order) stmt = some id ∧ graph.blockOf? stmt = some id) ∧
        ∀ stmt, stmt ∉ context.visited body → graph.blockOf? stmt = none := by
  constructor
  · intro graph earlier recorded calls stmt close id
    rw [Graph.blockOf?, Graph.placement_calledAll recorded, Placement.get?_ofAppends close]
  · intro context start body log graph log' success
    obtain ⟨last, _, built⟩ := built_of_build success
    have traverses : context.Traverses (context.firstLeg start body log)
        ((context.pieces start body).map (·.id)) :=
      traverses_of_stands built.reads (stands_firstLeg success)
    refine ⟨_, fun other => ⟨fun other => other.unique traverses, fun same => same ▸ traverses⟩,
      built.listing_map, ?_, ?_⟩
    · intro stmt visited
      rw [← built.listing_map] at visited
      obtain ⟨id, appended⟩ := exists_lastBlock? visited
      exact ⟨id, appended, built.blockOf?_iff.mpr appended⟩
    · intro stmt notVisited
      rw [Option.eq_none_iff_forall_ne_some]
      intro id placed
      apply notVisited
      rw [← built.listing_map]
      exact List.mem_map_of_mem (mem_of_lastBlock? (built.blockOf?_iff.mp placed))

/-- Appends for one slot in several versions, the newest one twice; one of an older version, one
    of the null id, and two that are refused, to no block and to a terminal one. -/
def mixedVersions : List Operation :=
  [.create, .append ⟨0⟩ ⟨1, 1⟩, .append ⟨1⟩ ⟨1, 5⟩, .append ⟨0⟩ ⟨1, 3⟩, .append ⟨0⟩ .null,
    .append ⟨7⟩ ⟨2, 1⟩, .append ⟨0⟩ ⟨1, 5⟩, .markTerminal ⟨1⟩, .append ⟨1⟩ ⟨1, 5⟩]

theorem last_append_decides_mixedVersions :
    ((Graph.blank ⟨0⟩).calledAll mixedVersions).blockOf? ⟨1, 5⟩ = some ⟨0⟩ ∧
    (∀ id, ((Graph.blank ⟨0⟩).calledAll mixedVersions).blockOf? ⟨1, 3⟩ ≠ some id) ∧
    (∀ id, ((Graph.blank ⟨0⟩).calledAll mixedVersions).blockOf? .null ≠ some id) ∧
    ∃ graph log, sharedArms.build {} [⟨1, 1⟩, ⟨2, 1⟩] #[] = .ok graph log ∧
      (∃ id, graph.blockOf? ⟨3, 1⟩ = some id) ∧ graph.blockOf? ⟨4, 1⟩ = none := by
  have decides := last_append_decides.1 (.blank ⟨0⟩) [] rfl mixedVersions
  have success : ∃ graph log, sharedArms.build {} [⟨1, 1⟩, ⟨2, 1⟩] #[] = .ok graph log :=
    build_succeeds (by decide) (by decide) #[]
  obtain ⟨graph, log, success⟩ := success
  obtain ⟨order, _, _, placed, others⟩ := last_append_decides.2 _ _ _ _ _ _ success
  obtain ⟨id, _, here⟩ := placed ⟨3, 1⟩ (by decide)
  refine ⟨(decides ⟨1, 5⟩ (by decide) _).mpr (by decide), ?_, ?_, graph, log, success, ⟨id, here⟩,
    others ⟨4, 1⟩ (by decide)⟩
  · intro id found
    exact absurd ((decides ⟨1, 3⟩ (by decide) id).mp found).2.2 (by decide)
  · intro id found
    exact absurd ((decides .null (by decide) id).mp found).1 (by decide)

end Context

end FlowGraph
