import FlowGraph.Proofs.Acyclic
import FlowGraph.Proofs.Homes

/-! # The work-list of a module

More definitions may wait after each turn of the loop that builds them, and a definition may
wait again and again, as its own descendant even. But each turn uses up a block id, so the
loop comes to an end whatever the definitions hold. Every definition met in a scope has a
later scope of its own. So one that contains itself would have one scope after the other and
never a last one: no module has it in its scopes.
-/

namespace FlowGraph

open Relation (TransGen ReflTransGen)

/-- What the loop over the waiting definitions has in hand. -/
structure Pending where
  start : Numbering
  scopes : Array Scope
  queue : List Waiting
  log : Log

/-- The block ids that are left for the scopes to come. -/
def Pending.room (pending : Pending) : Nat := BlockId.limit - pending.start.next.index

/-- The first of the two scopes is the parent of the second one. -/
def ModuleGraphs.IsParent (graphs : ModuleGraphs) (parent number : Nat) : Prop :=
  ∃ scope, graphs.scopes[number]? = some scope ∧ scope.parent = some parent

namespace Context

variable {context : Context} {before after pending last : Pending}
  {result : EStateM.Result Failure Log (Array Scope)}

/-- What the loop gives that goes on from there. -/
def resume (context : Context) (pending : Pending) : EStateM.Result Failure Log (Array Scope) :=
  context.buildWaiting pending.start pending.scopes pending.queue pending.log

/-- One turn of the loop: the definition that has waited longest gets its scope, and those met
    in it wait behind the others. -/
inductive Turns (context : Context) : Pending → Pending → Prop where
  | next {start scopes waiting queue log stmt graph log'} :
      context.pool.get? waiting.root = some stmt →
      context.build start stmt.body (log.push (.definitionBegun stmt.kind stmt.line)) =
        .ok graph log' →
      Turns context ⟨start, scopes, waiting :: queue, log⟩
        ⟨graph.numbering, scopes.push ⟨some waiting.root, stmt.name, some waiting.parent, graph⟩,
          queue ++ graph.waiting scopes.size, log'⟩

/-- The loop stops with a result: nothing waits any more, or the definition whose turn it is
    is not there or cannot be built. -/
inductive Stops (context : Context) :
    Pending → EStateM.Result Failure Log (Array Scope) → Prop where
  | done {start scopes log} : Stops context ⟨start, scopes, [], log⟩ (.ok scopes log)
  | missing {start scopes waiting queue log} : context.pool.get? waiting.root = none →
      Stops context ⟨start, scopes, waiting :: queue, log⟩
        (.error (.flow (.missingStatement waiting.root)) log)
  | failed {start scopes waiting queue log stmt failure log'} :
      context.pool.get? waiting.root = some stmt →
      context.build start stmt.body (log.push (.definitionBegun stmt.kind stmt.line)) =
        .error failure log' →
      Stops context ⟨start, scopes, waiting :: queue, log⟩ (.error failure log')

/-- A turn raises the next block id, and leaves it below the limit. -/
theorem Turns.next_lt (turns : context.Turns before after) :
    before.start.next.index < after.start.next.index ∧
      after.start.next.index < BlockId.limit := by
  cases turns with
  | next _ success =>
      obtain ⟨room, raised⟩ := next_lt_of_build success
      obtain ⟨_, _, built⟩ := built_of_build success
      have first : (Graph.blank _).next < BlockId.limit := room
      exact ⟨raised, Graph.next_lt_of_performAll first built.laid⟩

theorem Turns.room_lt (turns : context.Turns before after) : after.room < before.room := by
  have next := turns.next_lt
  unfold Pending.room
  omega

theorem wellFounded_turns (context : Context) :
    WellFounded fun after before => context.Turns before after :=
  Subrelation.wf Turns.room_lt (measure Pending.room).wf

theorem Turns.resume_eq (turns : context.Turns before after) :
    context.resume before = context.resume after := by
  cases turns with
  | next kept success => exact buildWaiting_of_ok kept success

theorem Stops.resume_eq (stops : context.Stops last result) : context.resume last = result := by
  cases stops with
  | done =>
      rw [resume, buildWaiting]
      rfl
  | missing lost =>
      rw [resume, buildWaiting, lost]
      rfl
  | failed kept failed => exact buildWaiting_of_error kept failed

theorem stops_or_turns (context : Context) (pending : Pending) :
    (∃ result, context.Stops pending result) ∨ ∃ after, context.Turns pending after := by
  obtain ⟨start, scopes, queue, log⟩ := pending
  cases queue with
  | nil => exact .inl ⟨_, .done⟩
  | cons waiting queue =>
      cases kept : context.pool.get? waiting.root with
      | none => exact .inl ⟨_, .missing kept⟩
      | some stmt =>
          cases built : context.build start stmt.body
              (log.push (.definitionBegun stmt.kind stmt.line)) with
          | error failure log' => exact .inl ⟨_, .failed kept built⟩
          | ok graph log' => exact .inr ⟨_, .next kept built⟩

theorem exists_stop (context : Context) (pending : Pending) :
    ∃ last, ReflTransGen context.Turns pending last ∧
      context.Stops last (context.resume pending) := by
  induction pending using context.wellFounded_turns.induction with
  | _ pending ih =>
      rcases context.stops_or_turns pending with ⟨result, stops⟩ | ⟨after, turns⟩
      · exact ⟨pending, .refl, stops.resume_eq.symm ▸ stops⟩
      · obtain ⟨last, run, stops⟩ := ih after turns
        exact ⟨last, .head turns run, turns.resume_eq ▸ stops⟩

theorem Stops.settled (stops : context.Stops last result) : Settled result := by
  cases stops with
  | done => exact .inl ⟨_, _, rfl⟩
  | missing => exact .inr (.inl ⟨_, _, rfl⟩)
  | @failed start _ _ _ log stmt _ _ _ failed =>
      have settled := settled_build context start stmt.body
        (log.push (.definitionBegun stmt.kind stmt.line))
      rw [failed] at settled
      rcases settled with ⟨_, _, same⟩ | ⟨_, _, same⟩ | ⟨_, _, same⟩
      · cases same
      · cases same
        exact .inr (.inl ⟨_, _, rfl⟩)
      · cases same
        exact .inr (.inr ⟨_, _, rfl⟩)

section Module

variable {body : List StmtId} {graphs : ModuleGraphs} {log log' : Log} {outer inner : StmtId}

theorem settled_buildModule (context : Context) (body : List StmtId) (log : Log) :
    Settled (context.buildModule body log) := by
  have begun : Settled (BuildM.record .moduleBegun log) := .inl ⟨_, _, rfl⟩
  refine begun.bind fun _ mid _ => ?_
  refine (settled_build context {} body mid).bind fun top mid _ => ?_
  obtain ⟨last, _, stops⟩ := context.exists_stop
    ⟨top.numbering, #[⟨none, none, none, top⟩], top.waiting 0, mid⟩
  exact stops.settled.bind fun scopes mid _ => .inl ⟨⟨scopes⟩, mid, rfl⟩

/-- The inner definition stands in the body of the outer one, in branches and loops at any
    depth. -/
def Contains (context : Context) (outer inner : StmtId) : Prop :=
  context.rule? inner = some .deferred ∧ ∃ stmt, context.pool.get? outer = some stmt ∧
    ∃ top ∈ stmt.body, ReflTransGen context.Nests top inner

namespace Assembled

variable {scopes : Array Scope} {number : Nat} {scope : Scope} {root : StmtId}
  (assembled : context.Assembled body scopes)

include assembled

theorem contains_iff (member : scope ∈ scopes) (isRoot : scope.root = some root) :
    context.Contains root inner ↔
      context.rule? inner = some .deferred ∧ inner ∈ context.walkOf body scope := by
  obtain ⟨_, _, built⟩ := assembled.built scope member
  rw [Contains, walkOf, built.unfolds.mem_iff, isRoot, bodyOf]
  cases kept : context.pool.get? root with
  | none => simp
  | some stmt => simp

theorem root_acyclic (here : scopes[number]? = some scope) (isRoot : scope.root = some root) :
    ¬ TransGen context.Contains root root := by
  -- the scope of such a definition has a child with such a definition, which comes later
  induction left : scopes.size - number using Nat.strongRecOn generalizing number scope root with
  | _ left ih =>
      subst left
      intro cycle
      obtain ⟨inner, contains, back⟩ := Relation.TransGen.head'_iff.mp cycle
      obtain ⟨deferred, walked⟩ :=
        (assembled.contains_iff (Array.mem_of_getElem? here) isRoot).mp contains
      obtain ⟨child, scope', there, isRoot', isParent⟩ :=
        assembled.exists_child here walked deferred
      have later : number < child := assembled.older child scope' number there isParent
      obtain ⟨inside, _⟩ := Array.getElem?_eq_some_iff.mp there
      exact ih (scopes.size - child) (by omega) there isRoot' rfl (.tail' back contains)

theorem listed_acyclic (here : scopes[number]? = some scope) {id : BlockId}
    (listed : root ∈ scope.graph.statements id) : ¬ TransGen context.Contains root root := by
  intro cycle
  obtain ⟨_, _, deferred, _⟩ := Relation.TransGen.tail'_iff.mp cycle
  obtain ⟨_, _, built⟩ := assembled.built scope (Array.mem_of_getElem? here)
  have walked := (built.statements_infix id).subset listed
  obtain ⟨child, scope', there, isRoot, _⟩ := assembled.exists_child here walked deferred
  exact assembled.root_acyclic there isRoot cycle

theorem contains_of_isParent {parent : Nat} {around : Scope}
    (isParent : ModuleGraphs.IsParent ⟨scopes⟩ parent number)
    (there : scopes[parent]? = some around) :
    ∃ scope root, scopes[number]? = some scope ∧ scope.root = some root ∧
      ∀ outer, around.root = some outer → context.Contains outer root := by
  obtain ⟨scope, here, parent_eq⟩ := isParent
  rcases assembled.origin_cases here with ⟨_, noParent⟩ | met
  · cases noParent.symm.trans parent_eq
  obtain ⟨_, _, root, _, _, origin_eq⟩ := Scope.mem_met.mp met
  obtain ⟨root_eq, _⟩ := Prod.mk.inj origin_eq
  obtain ⟨parent', around', parent_eq', there', walked, deferred⟩ :=
    assembled.exists_parent here root_eq
  cases parent_eq.symm.trans parent_eq'
  cases there.symm.trans there'
  refine ⟨scope, root, here, root_eq, fun outer isOuter => ?_⟩
  exact (assembled.contains_iff (Array.mem_of_getElem? there) isOuter).mpr ⟨deferred, walked⟩

/-- A scope with an ancestor is that of a definition, which is contained in that of the
    ancestor, be it through others. -/
theorem contains_of_ancestor {other : Nat} {ancestor : Scope}
    (above : TransGen (ModuleGraphs.IsParent ⟨scopes⟩) other number)
    (there : scopes[other]? = some ancestor) :
    ∃ scope root, scopes[number]? = some scope ∧ scope.root = some root ∧
      ∀ outer, ancestor.root = some outer → TransGen context.Contains outer root := by
  induction above with
  | single isParent =>
      obtain ⟨scope, root, here, isRoot, contained⟩ := assembled.contains_of_isParent isParent there
      exact ⟨scope, root, here, isRoot, fun outer isOuter => .single (contained outer isOuter)⟩
  | tail _ isParent ih =>
      obtain ⟨around, middle, between, isMiddle, chain⟩ := ih
      obtain ⟨scope, root, here, isRoot, contained⟩ :=
        assembled.contains_of_isParent isParent between
      refine ⟨scope, root, here, isRoot, fun outer isOuter => ?_⟩
      exact .tail (chain outer isOuter) (contained middle isMiddle)

end Assembled

/-- The loop over the waiting definitions ends for every input: each turn raises the next
    block id, and so brings it nearer to the limit; after some turns nothing waits, or the
    definition whose turn it is stops the build. So the build of a module gives its graphs, is
    refused or runs out of block ids. In what it gives, no scope has an ancestor with the root
    that it has itself, and no definition that contains itself has a scope or stands in one. -/
theorem worklist_ends_without_recursion (context : Context) (body : List StmtId) (log : Log) :
    (∀ before after, context.Turns before after →
      before.start.next.index < after.start.next.index ∧ after.room < before.room) ∧
    (WellFounded fun after before => context.Turns before after) ∧
    (∀ pending, ∃ last, ReflTransGen context.Turns pending last ∧
      context.Stops last (context.resume pending)) ∧
    Settled (context.buildModule body log) ∧
    ∀ graphs log', context.buildModule body log = .ok graphs log' →
      (∀ (number other : Nat) (scope ancestor : Scope), graphs.scopes[number]? = some scope →
        graphs.scopes[other]? = some ancestor → TransGen graphs.IsParent other number →
        ancestor.root ≠ scope.root) ∧
      ∀ scope ∈ graphs.scopes, ∀ root,
        scope.root = some root ∨ (∃ id, root ∈ scope.graph.statements id) →
        ¬ TransGen context.Contains root root := by
  refine ⟨fun _ _ turns => ⟨turns.next_lt.1, turns.room_lt⟩, context.wellFounded_turns,
    context.exists_stop, settled_buildModule context body log, ?_⟩
  intro graphs log' success
  have assembled := assembled_of_buildModule success
  constructor
  · intro number other scope ancestor here there above same
    obtain ⟨scope', root, here', isRoot, contained⟩ := assembled.contains_of_ancestor above there
    cases here.symm.trans here'
    exact assembled.root_acyclic here isRoot (contained root (same.trans isRoot))
  · intro scope member root stands
    obtain ⟨number, here⟩ := Array.getElem?_of_mem member
    rcases stands with isRoot | ⟨id, listed⟩
    · exact assembled.root_acyclic here isRoot
    · exact assembled.listed_acyclic here listed

/-- A function with a branch in which a class stands that holds the function again. -/
def functionInItself : Context where
  pool := { slots := #[⟨0, none⟩, ⟨1, some (.define .functionDef 0 1 [⟨2, 1⟩])⟩,
    ⟨1, some (.ifElse 2 [] [⟨3, 1⟩])⟩, ⟨1, some (.define .classDef 1 3 [⟨1, 1⟩])⟩] }
  dialect := .python3

theorem worklist_ends_without_recursion_functionInItself :
    (∃ error log, functionInItself.buildModule [⟨1, 1⟩] #[] = .error (.flow error) log) ∨
      RanOut (functionInItself.buildModule [⟨1, 1⟩] #[]) := by
  obtain ⟨_, _, _, settled, accepted⟩ :=
    worklist_ends_without_recursion functionInItself [⟨1, 1⟩] #[]
  rcases settled with ⟨graphs, log, success⟩ | ends
  · have toClass : functionInItself.Contains ⟨1, 1⟩ ⟨3, 1⟩ := by
      refine ⟨rfl, _, rfl, ⟨2, 1⟩, by decide, .single ?_⟩
      exact ⟨_, ⟨.ifElse 2 [] [⟨3, 1⟩], .inl ⟨⟨rfl, rfl⟩, .inr rfl⟩⟩, by decide⟩
    have toFunction : functionInItself.Contains ⟨3, 1⟩ ⟨1, 1⟩ :=
      ⟨rfl, _, rfl, ⟨1, 1⟩, by decide, .refl⟩
    have assembled := assembled_of_buildModule success
    obtain ⟨top, others, scopes_eq, _⟩ := assembled.top
    have first : graphs.scopes[0]? = some ⟨none, none, none, top⟩ := by
      rw [← Array.getElem?_toList, scopes_eq]
      rfl
    have walked : ⟨1, 1⟩ ∈ functionInItself.visited [⟨1, 1⟩] := by decide
    obtain ⟨_, scope, there, isRoot, _⟩ := assembled.exists_child first walked rfl
    obtain ⟨_, acyclic⟩ := accepted graphs log success
    exact absurd (.tail (.single toClass) toFunction)
      (acyclic scope (Array.mem_of_getElem? there) ⟨1, 1⟩ (.inl isRoot))
  · exact ends

end Module

end Context

end FlowGraph
