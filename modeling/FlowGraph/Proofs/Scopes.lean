import FlowGraph.Module.Basic
import FlowGraph.Proofs.Raise
import FlowGraph.Proofs.Shape

/-! # The scopes of a module

The scopes of a module are both what its build gives and what the numbers of the parents
refer to. The definitions that have been built and those that still wait are, one list
after the other, the definitions met in the scopes so far; at the end nothing waits. Each
scope has the graph that its definition has when it is built alone.
-/

namespace FlowGraph

/-- The definition whose body a scope is, and the number of the scope in which it stands. -/
def Scope.origin (scope : Scope) : Option StmtId × Option Nat := (scope.root, scope.parent)

/-- The definitions met in some scopes, scope by scope, with the numbers of the scopes. -/
def Scope.met (scopes : List Scope) : List (Option StmtId × Option Nat) :=
  scopes.zipIdx.flatMap fun (scope, number) =>
    scope.graph.deferred.map fun root => (some root, some number)

theorem Scope.met_append_singleton (scopes : List Scope) (scope : Scope) :
    met (scopes ++ [scope]) =
      met scopes ++ scope.graph.deferred.map fun root => (some root, some scopes.length) := by
  simp [met, List.zipIdx_append]

theorem Scope.parent_lt_of_mem_met {scopes : List Scope} {root : Option StmtId} {parent : Nat}
    (member : (root, some parent) ∈ met scopes) : parent < scopes.length := by
  simp only [met, List.mem_flatMap, List.mem_map, Prod.exists, Prod.mk.injEq,
    Option.some.injEq] at member
  obtain ⟨scope, number, listed, _, _, _, rfl⟩ := member
  simpa using List.snd_lt_add_of_mem_zipIdx listed

namespace Context

/-- The definitions that wait are built one after the other, and those met in a body wait
    behind the others. -/
inductive Enumerates (context : Context) :
    Numbering → Array Scope → List Waiting → Array Scope → Prop where
  | done {start scopes} : Enumerates context start scopes [] scopes
  | next {start scopes waiting queue stmt graph log log' result} :
      context.pool.get? waiting.root = some stmt →
      context.build start stmt.body log = .ok graph log' →
      Enumerates context graph.numbering
        (scopes.push ⟨some waiting.root, stmt.name, some waiting.parent, graph⟩)
        (queue ++ graph.waiting scopes.size) result →
      Enumerates context start scopes (waiting :: queue) result

variable {context : Context} {start : Numbering} {scopes result : Array Scope}
  {queue : List Waiting} {log log' : Log}

theorem enumerates_of_buildWaiting
    (ok : context.buildWaiting start scopes queue log = .ok result log') :
    context.Enumerates start scopes queue result := by
  induction start, scopes, queue using buildWaiting.induct context generalizing log with
  | case1 start scopes =>
      rw [buildWaiting] at ok
      cases ok
      exact .done
  | case2 start scopes waiting queue missing =>
      rw [buildWaiting, missing] at ok
      cases ok
  | case3 start scopes waiting queue stmt kept ih =>
      rw [buildWaiting, kept] at ok
      simp only at ok
      split at ok
      · cases ok
      · rename_i graph mid built
        exact .next kept built (ih _ _ _ built ok)

/-- The scopes that have been built and the definitions that still wait. -/
structure Ordered (scopes : Array Scope) (queue : List Waiting) : Prop where
  nonempty : 0 < scopes.size
  listed : scopes.toList.tail.map Scope.origin ++
    queue.map (fun waiting => (some waiting.root, some waiting.parent)) = Scope.met scopes.toList
  older : ∀ (number : Nat) (scope : Scope) (parent : Nat), scopes[number]? = some scope →
    scope.parent = some parent → parent < number

/-- The first of the waiting definitions is built. -/
theorem Ordered.push {waiting : Waiting} {name : Option Symbol} {graph : Graph}
    (ordered : Ordered scopes (waiting :: queue)) :
    Ordered (scopes.push ⟨some waiting.root, name, some waiting.parent, graph⟩)
      (queue ++ graph.waiting scopes.size) := by
  have nonempty : scopes.toList ≠ [] := by
    intro empty
    have := ordered.nonempty
    simp [← Array.length_toList, empty] at this
  constructor
  · simp
  · rw [Array.toList_push, Scope.met_append_singleton, ← ordered.listed,
      List.tail_append_of_ne_nil nonempty]
    simp [Scope.origin, Graph.waiting]
  · intro number scope parent here stands
    rw [Array.getElem?_push] at here
    split at here
    · rename_i last
      cases here
      cases stands
      have met : (some waiting.root, some waiting.parent) ∈ Scope.met scopes.toList := by
        simp [← ordered.listed]
      have := Scope.parent_lt_of_mem_met met
      rwa [Array.length_toList, ← last] at this
    · exact ordered.older number scope parent here stands

theorem Enumerates.ordered (enumerates : context.Enumerates start scopes queue result)
    (ordered : Ordered scopes queue) : Ordered result [] := by
  induction enumerates with
  | done => exact ordered
  | next _ _ _ ih => exact ih ordered.push

theorem Enumerates.isPrefix (enumerates : context.Enumerates start scopes queue result) :
    scopes.toList <+: result.toList := by
  induction enumerates with
  | done => exact List.prefix_rfl
  | next _ _ _ ih =>
      rw [Array.toList_push] at ih
      exact (List.prefix_append ..).trans ih

/-- A scope with the name and the graph of its definition, as that is built alone and with
    its block ids raised. -/
def BuiltAlone (context : Context) (scope : Scope) : Prop :=
  ∃ root stmt alone log, scope.root = some root ∧ context.pool.get? root = some stmt ∧
    scope.name = stmt.name ∧ context.buildDef {} root #[] = .ok alone log ∧
    scope.graph = alone.raise scope.graph.entry.index

theorem buildDef_eq_build {root : StmtId} {stmt : Stmt}
    (kept : context.pool.get? root = some stmt) (start : Numbering) :
    context.buildDef start root = context.build start stmt.body := by
  simp only [buildDef, build, buildToEnd, kept, bind_assoc]

theorem build_of_buildDef {root : StmtId} {graph : Graph}
    (success : context.buildDef start root log = .ok graph log') :
    ∃ stmt, context.pool.get? root = some stmt ∧
      context.build start stmt.body log = .ok graph log' := by
  cases kept : context.pool.get? root with
  | none =>
      obtain ⟨_, _, _, refused⟩ := BuildM.bind_eq_ok.mp success
      rw [kept] at refused
      cases refused
  | some stmt => exact ⟨stmt, rfl, buildDef_eq_build kept start ▸ success⟩

theorem builtAlone_of_build {root : StmtId} {stmt : Stmt} {parent : Option Nat} {graph : Graph}
    (kept : context.pool.get? root = some stmt)
    (success : context.build start stmt.body log = .ok graph log') :
    context.BuiltAlone ⟨some root, stmt.name, parent, graph⟩ := by
  obtain ⟨alone, log₁, fromZero, graph_eq⟩ := build_raised success #[]
  obtain ⟨_, _, built⟩ := built_of_build success
  refine ⟨root, stmt, alone, log₁, rfl, kept, rfl, ?_, ?_⟩
  · rw [buildDef_eq_build kept]
    exact fromZero
  · rw [built.entry_eq]
    exact graph_eq

theorem Enumerates.builtAlone (enumerates : context.Enumerates start scopes queue result)
    (first : scopes.toList ≠ []) (alone : ∀ scope ∈ scopes.toList.tail, context.BuiltAlone scope) :
    ∀ scope ∈ result.toList.tail, context.BuiltAlone scope := by
  induction enumerates with
  | done => exact alone
  | next kept built _ ih =>
      apply ih (by simp)
      rw [Array.toList_push, List.tail_append_of_ne_nil first, List.forall_mem_append,
        List.forall_mem_singleton]
      exact ⟨alone, builtAlone_of_build kept built⟩

/-- Definitions met in later scopes have later parents. -/
theorem pairwise_parents (scopes : List Scope) :
    ((Scope.met scopes).filterMap (·.2)).Pairwise (· ≤ ·) := by
  have numbers : scopes.zipIdx.Pairwise fun left right => left.2 < right.2 := by
    rw [← List.pairwise_map, List.zipIdx_map_snd]
    exact List.pairwise_lt_range'
  rw [List.pairwise_filterMap, Scope.met, List.pairwise_flatMap]
  constructor
  · intro pair _
    rw [List.pairwise_map]
    apply List.pairwise_of_forall
    rintro _ _ _ ⟨⟩ _ ⟨⟩
    exact Nat.le_refl _
  · refine numbers.imp fun less => ?_
    simp only [List.mem_map]
    rintro _ ⟨_, _, rfl⟩ _ ⟨_, _, rfl⟩ _ ⟨⟩ _ ⟨⟩
    exact Nat.le_of_lt less

/-- The scopes of a module are its top sequence and then, breadth first, the definitions
    met in its scopes, each with the graph that it has when it is built alone. -/
theorem scopes_breadth_first {body : List StmtId} {graphs : ModuleGraphs}
    (success : context.buildModule body log = .ok graphs log') :
    ∃ top others log₀,
      graphs.scopes.toList = ⟨none, none, none, top⟩ :: others ∧
      context.build {} body #[] = .ok top log₀ ∧
      others.map (fun scope => (scope.root, scope.parent)) =
        graphs.scopes.toList.zipIdx.flatMap (fun (scope, number) =>
          scope.graph.deferred.map fun root => (some root, some number)) ∧
      (∀ (number : Nat) (scope : Scope) (parent : Nat), graphs.scopes[number]? = some scope →
        scope.parent = some parent → parent < number) ∧
      (others.filterMap (·.parent)).Pairwise (· ≤ ·) ∧
      ∀ scope ∈ others, context.BuiltAlone scope := by
  obtain ⟨_, _, ⟨⟩, success⟩ := BuildM.bind_eq_ok.mp success
  obtain ⟨top, _, built, success⟩ := BuildM.bind_eq_ok.mp success
  obtain ⟨scopes, _, waited, ⟨⟩⟩ := BuildM.bind_eq_ok.mp success
  have enumerates := enumerates_of_buildWaiting waited
  have first : Ordered #[⟨none, none, none, top⟩] (top.waiting 0) := by
    constructor
    · exact Nat.zero_lt_one
    · simp [Scope.met, Graph.waiting]
    · intro number scope parent here stands
      rw [← Array.getElem?_toList, List.getElem?_singleton] at here
      split at here <;> cases here
      cases stands
  have ordered := enumerates.ordered first
  obtain ⟨others, scopes_eq⟩ := enumerates.isPrefix
  obtain ⟨alone, log₀, fromZero, top_eq⟩ := build_raised built #[]
  rw [Graph.raise_zero] at top_eq
  have listed := ordered.listed
  simp only [List.map_nil, List.append_nil, ← scopes_eq, List.cons_append, List.nil_append,
    List.tail_cons] at listed
  refine ⟨top, others, log₀, scopes_eq.symm, top_eq ▸ fromZero, ?_, ordered.older, ?_, ?_⟩
  · rw [← scopes_eq]
    exact listed
  · have parents : others.filterMap (·.parent) = (others.map Scope.origin).filterMap (·.2) := by
      rw [List.filterMap_map]
      rfl
    rw [parents, listed]
    exact pairwise_parents _
  · have alone := enumerates.builtAlone (by simp) (by simp)
    rw [← scopes_eq] at alone
    exact alone

/-- Two definitions with one and the same definition inside. -/
def sharedInner : Context where
  pool := { slots := #[⟨0, none⟩, ⟨1, some (.define .functionDef 0 1 [⟨3, 1⟩])⟩,
    ⟨1, some (.define .classDef 1 2 [⟨3, 1⟩, ⟨4, 1⟩])⟩,
    ⟨1, some (.define .functionDef 2 3 [⟨4, 1⟩])⟩, ⟨1, some (.simple .pass 4)⟩] }
  dialect := .python27
  maxDepth := 1

theorem scopes_breadth_first_sharedInner :
    ∃ graphs log top others log₀,
      sharedInner.buildModule [⟨1, 1⟩, ⟨2, 1⟩] #[] = .ok graphs log ∧
      graphs.scopes.toList = ⟨none, none, none, top⟩ :: others ∧
      sharedInner.build {} [⟨1, 1⟩, ⟨2, 1⟩] #[] = .ok top log₀ ∧
      others.map (fun scope => (scope.root, scope.parent)) =
        [(some ⟨1, 1⟩, some 0), (some ⟨2, 1⟩, some 0), (some ⟨3, 1⟩, some 1),
          (some ⟨3, 1⟩, some 2)] ∧
      ∀ scope ∈ others, sharedInner.BuiltAlone scope := by
  have evaluated : (sharedInner.buildModule [⟨1, 1⟩, ⟨2, 1⟩]).outcome.1.toOption.map
      (fun graphs => graphs.scopes.toList.tail.map fun scope => (scope.root, scope.parent)) =
        some [(some ⟨1, 1⟩, some 0), (some ⟨2, 1⟩, some 0), (some ⟨3, 1⟩, some 1),
          (some ⟨3, 1⟩, some 2)] := by decide +kernel
  cases success : sharedInner.buildModule [⟨1, 1⟩, ⟨2, 1⟩] #[] with
  | error failure log => simp [BuildM.outcome, EStateM.run, success, Except.toOption] at evaluated
  | ok graphs log =>
      obtain ⟨top, others, log₀, scopes_eq, built, _, _, _, alone⟩ := scopes_breadth_first success
      refine ⟨graphs, log, top, others, log₀, rfl, scopes_eq, built, ?_, alone⟩
      simpa [BuildM.outcome, EStateM.run, success, Except.toOption, scopes_eq] using evaluated

end Context

end FlowGraph
