import FlowGraph.Proofs.Order
import FlowGraph.Proofs.Scopes

/-! # Where the statements of a module live

A definition stands as a leaf in the scope around it, and what its body holds stands in the
scope of its own and nowhere else. So, when no statement is visited twice in all the scopes
of a module, each statement has one home, a block of one scope. That of a definition is in
the parent of its scope, however deep in branches, loops and other definitions it stands.
-/

namespace FlowGraph

/-- The statement is in one block of one scope of a module: only this scope has an answer for
    it, and among the blocks of all scopes only this one lists it. -/
structure ModuleGraphs.Home (graphs : ModuleGraphs) (stmt : StmtId) (number : Nat) (id : BlockId) :
    Prop where
  placed : ∃ scope block, graphs.scopes[number]? = some scope ∧
    scope.graph.blockOf? stmt = some id ∧ scope.graph.block? id = some block ∧
    stmt ∈ block.statements
  answers : ∀ (other : Nat) (scope : Scope) (block : BlockId), graphs.scopes[other]? = some scope →
    scope.graph.blockOf? stmt = some block → other = number
  listed : ∀ (other : Nat) (scope : Scope), graphs.scopes[other]? = some scope →
    ∀ block ∈ scope.graph.blocks.toList, stmt ∈ block.statements → other = number ∧ block.id = id

/-- Parts that have nothing in common are told apart by what they hold. -/
theorem position_eq_of_nodup_flatMap {α β : Type} {items : List α} {parts : α → List β}
    (once : (items.flatMap parts).Nodup) {i j : Nat} {left right : α} (here : items[i]? = some left)
    (there : items[j]? = some right) {held : β} (inLeft : held ∈ parts left)
    (inRight : held ∈ parts right) : i = j := by
  have apart := List.pairwise_iff_getElem.mp (List.pairwise_flatMap.mp once).2
  obtain ⟨hi, rfl⟩ := List.getElem?_eq_some_iff.mp here
  obtain ⟨hj, rfl⟩ := List.getElem?_eq_some_iff.mp there
  rcases Nat.lt_trichotomy i j with less | same | more
  · exact absurd rfl (apart i j hi hj less held inLeft held inRight)
  · exact same
  · exact absurd rfl (apart j i hj hi more held inRight held inLeft)

/-- Without the numbers of their scopes, the definitions met in some scopes are their deferred
    definitions. -/
theorem Scope.roots_met (scopes : List Scope) :
    (met scopes).flatMap (·.1.toList) = scopes.flatMap (·.graph.deferred) := by
  have single : ∀ roots : List StmtId, roots.flatMap (fun root => [root]) = roots := by simp
  calc (met scopes).flatMap (·.1.toList)
      = scopes.zipIdx.flatMap (fun pair => pair.1.graph.deferred) := by
        simp only [met, List.flatMap_assoc, List.flatMap_map, Option.toList_some, single]
    _ = (scopes.zipIdx.map Prod.fst).flatMap (·.graph.deferred) := by rw [List.flatMap_map]
    _ = scopes.flatMap (·.graph.deferred) := by rw [List.zipIdx_map_fst]

theorem Scope.mem_met {scopes : List Scope} {origin : Option StmtId × Option Nat} :
    origin ∈ met scopes ↔ ∃ number scope root, scopes[number]? = some scope ∧
      root ∈ scope.graph.deferred ∧ origin = (some root, some number) := by
  simp only [met, List.mem_flatMap, List.mem_map, Prod.exists, List.mem_zipIdx_iff_getElem?]
  constructor
  · rintro ⟨scope, number, here, root, member, rfl⟩
    exact ⟨number, scope, root, here, member, rfl⟩
  · rintro ⟨number, scope, root, here, member, rfl⟩
    exact ⟨scope, number, here, root, member, rfl⟩

namespace Context

/-- The sequence of a scope: the top sequence, or the body of a definition. -/
def bodyOf (context : Context) (body : List StmtId) : Option StmtId → List StmtId
  | none => body
  | some root => ((context.pool.get? root).map Stmt.body).getD []

/-- The statements of a scope in the order in which the walk of it visits them. -/
def walkOf (context : Context) (body : List StmtId) (scope : Scope) : List StmtId :=
  context.visited (context.bodyOf body scope.root)

/-- The scope has the graph of its sequence. -/
def BuiltScope (context : Context) (body : List StmtId) (scope : Scope) : Prop :=
  ∃ start last, context.Built start (context.bodyOf body scope.root) last scope.graph

variable {context : Context} {body : List StmtId} {start : Numbering} {scopes result : Array Scope}
  {queue : List Waiting} {graphs : ModuleGraphs} {log log' : Log}

theorem Enumerates.builtScopes (enumerates : context.Enumerates start scopes queue result)
    (built : ∀ scope ∈ scopes.toList, context.BuiltScope body scope) :
    ∀ scope ∈ result.toList, context.BuiltScope body scope := by
  induction enumerates with
  | done => exact built
  | @next start _ _ _ stmt _ _ _ _ kept success _ ih =>
      apply ih
      rw [Array.toList_push, List.forall_mem_append, List.forall_mem_singleton]
      obtain ⟨last, _, builtBody⟩ := built_of_build success
      refine ⟨built, start, last, ?_⟩
      simp only [bodyOf, kept, Option.map_some, Option.getD_some]
      exact builtBody

theorem ordered_top (top : Graph) : Ordered #[⟨none, none, none, top⟩] (top.waiting 0) where
  nonempty := Nat.zero_lt_one
  listed := by simp [Scope.met, Graph.waiting]
  older := by
    intro number scope parent here stands
    rw [← Array.getElem?_toList, List.getElem?_singleton] at here
    split at here <;> cases here
    cases stands

/-- The scopes of a module, each with the graph of its sequence: that of the top sequence, and
    those of the definitions met in them, behind the scopes in which they were met. -/
structure Assembled (context : Context) (body : List StmtId) (scopes : Array Scope) : Prop where
  top : ∃ graph others, scopes.toList = ⟨none, none, none, graph⟩ :: others ∧
    others.map Scope.origin = Scope.met scopes.toList
  built : ∀ scope ∈ scopes, context.BuiltScope body scope
  older : ∀ (number : Nat) (scope : Scope) (parent : Nat), scopes[number]? = some scope →
    scope.parent = some parent → parent < number

theorem assembled_of_buildModule (success : context.buildModule body log = .ok graphs log') :
    context.Assembled body graphs.scopes := by
  obtain ⟨_, _, ⟨⟩, success⟩ := BuildM.bind_eq_ok.mp success
  obtain ⟨top, _, builtTop, success⟩ := BuildM.bind_eq_ok.mp success
  obtain ⟨scopes, _, waited, ⟨⟩⟩ := BuildM.bind_eq_ok.mp success
  have enumerates := enumerates_of_buildWaiting waited
  have ordered := enumerates.ordered (ordered_top top)
  refine ⟨?_, ?_, ordered.older⟩
  · have listed := ordered.listed
    obtain ⟨others, scopes_eq⟩ := enumerates.isPrefix
    refine ⟨top, others, scopes_eq.symm, ?_⟩
    simpa [← scopes_eq] using listed
  · obtain ⟨last, _, built⟩ := built_of_build builtTop
    intro scope member
    exact enumerates.builtScopes (List.forall_mem_singleton.mpr ⟨_, last, built⟩) scope
      (Array.mem_toList_iff.mpr member)

namespace Assembled

variable {number : Nat} {scope : Scope} {root : StmtId} (assembled : context.Assembled body scopes)

include assembled

theorem deferred_eq (member : scope ∈ scopes) :
    scope.graph.deferred =
      (context.walkOf body scope).filter fun id => context.rule? id = some .deferred := by
  obtain ⟨_, _, built⟩ := assembled.built scope member
  exact built.deferred_eq

theorem origin_cases (here : scopes[number]? = some scope) :
    scope.root = none ∧ scope.parent = none ∨ scope.origin ∈ Scope.met scopes.toList := by
  obtain ⟨top, others, scopes_eq, met⟩ := assembled.top
  have member := Array.mem_toList_iff.mpr (Array.mem_of_getElem? here)
  rw [scopes_eq, List.mem_cons] at member
  rcases member with rfl | member
  · exact .inl ⟨rfl, rfl⟩
  · exact .inr (met ▸ List.mem_map_of_mem member)

theorem exists_parent (here : scopes[number]? = some scope) (isRoot : scope.root = some root) :
    ∃ parent around, scope.parent = some parent ∧ scopes[parent]? = some around ∧
      root ∈ context.walkOf body around ∧ context.rule? root = some .deferred := by
  rcases assembled.origin_cases here with ⟨noRoot, _⟩ | met
  · cases isRoot.symm.trans noRoot
  obtain ⟨parent, around, _, there, deferred, origin_eq⟩ := Scope.mem_met.mp met
  obtain ⟨root_eq, parent_eq⟩ := Prod.mk.inj origin_eq
  cases isRoot.symm.trans root_eq
  rw [Array.getElem?_toList] at there
  refine ⟨parent, around, parent_eq, there, ?_⟩
  rw [assembled.deferred_eq (Array.mem_of_getElem? there), List.mem_filter, decide_eq_true_eq]
    at deferred
  exact deferred

theorem exists_child (here : scopes[number]? = some scope)
    (walked : root ∈ context.walkOf body scope) (deferred : context.rule? root = some .deferred) :
    ∃ (child : Nat) (inner : Scope), scopes[child]? = some inner ∧ inner.root = some root ∧
      inner.parent = some number := by
  obtain ⟨top, others, scopes_eq, met⟩ := assembled.top
  have member := Array.mem_of_getElem? here
  have listed : (some root, some number) ∈ Scope.met scopes.toList := by
    refine Scope.mem_met.mpr ⟨number, scope, root, Array.getElem?_toList.trans here, ?_, rfl⟩
    rw [assembled.deferred_eq member]
    exact List.mem_filter.mpr ⟨walked, decide_eq_true deferred⟩
  rw [← met] at listed
  obtain ⟨inner, among, origin_eq⟩ := List.mem_map.mp listed
  obtain ⟨root_eq, parent_eq⟩ := Prod.mk.inj origin_eq
  obtain ⟨child, there⟩ := List.getElem?_of_mem (List.mem_cons_of_mem _ among)
  rw [← scopes_eq, Array.getElem?_toList] at there
  exact ⟨child, inner, there, root_eq, parent_eq⟩

end Assembled

/-- The scopes of a module, when no statement is visited twice in all of them. -/
structure Apart (context : Context) (body : List StmtId) (scopes : Array Scope) : Prop
    extends context.Assembled body scopes where
  once : (scopes.toList.flatMap (context.walkOf body)).Nodup

theorem apart_of_buildModule (success : context.buildModule body log = .ok graphs log')
    (once : (graphs.scopes.toList.flatMap (context.walkOf body)).Nodup) :
    context.Apart body graphs.scopes :=
  ⟨assembled_of_buildModule success, once⟩

namespace Apart

variable {number other : Nat} {scope scope' : Scope} {stmt root : StmtId} {id : BlockId}
  (apart : context.Apart body scopes)

include apart

theorem placed (member : scope ∈ scopes) : scope.graph.Placed := by
  obtain ⟨_, _, built⟩ := apart.built scope member
  apply built.placed
  exact (List.pairwise_flatMap.mp apart.once).1 scope (Array.mem_toList_iff.mpr member)

theorem mem_walkOf_iff (member : scope ∈ scopes) :
    stmt ∈ context.walkOf body scope ↔ ∃ id, scope.graph.blockOf? stmt = some id := by
  obtain ⟨_, _, built⟩ := apart.built scope member
  simp only [(apart.placed member).blockOf?_iff]
  constructor
  · exact built.listed
  · rintro ⟨id, listed⟩
    exact (built.statements_infix id).subset listed

theorem number_eq (here : scopes[number]? = some scope) (there : scopes[other]? = some scope')
    (walked : stmt ∈ context.walkOf body scope) (walked' : stmt ∈ context.walkOf body scope') :
    number = other := by
  rw [← Array.getElem?_toList] at here there
  exact position_eq_of_nodup_flatMap apart.once here there walked walked'

theorem blockOf?_of_listed (member : scope ∈ scopes) {block : Block}
    (inside : block ∈ scope.graph.blocks.toList) (holds : stmt ∈ block.statements) :
    scope.graph.blockOf? stmt = some block.id := by
  obtain ⟨_, _, built⟩ := apart.built scope member
  rw [(apart.placed member).blockOf?_iff, Graph.statements,
    built.sound.numbered.block?_id inside]
  exact holds

theorem home (here : scopes[number]? = some scope) (walked : stmt ∈ context.walkOf body scope) :
    ∃ id, ModuleGraphs.Home ⟨scopes⟩ stmt number id := by
  have member := Array.mem_of_getElem? here
  obtain ⟨id, found⟩ := (apart.mem_walkOf_iff member).mp walked
  have listed := ((apart.placed member).blockOf?_iff stmt id).mp found
  have known := Graph.block?_isSome.trans (Graph.contains_of_mem_statements listed)
  obtain ⟨block, known⟩ := Option.isSome_iff_exists.mp known
  refine ⟨id, ⟨scope, block, here, found, known, ?_⟩, ?_, ?_⟩
  · simpa only [Graph.statements, known] using listed
  · intro other scope' block there answer
    have member' := Array.mem_of_getElem? there
    exact apart.number_eq there here ((apart.mem_walkOf_iff member').mpr ⟨block, answer⟩) walked
  · -- a block that lists the statement is in a scope that walks it, and so in this one
    intro other scope' there block inside holds
    have member' := Array.mem_of_getElem? there
    have answer := apart.blockOf?_of_listed member' inside holds
    have walked' := (apart.mem_walkOf_iff member').mpr ⟨block.id, answer⟩
    obtain rfl := apart.number_eq there here walked' walked
    cases there.symm.trans here
    exact ⟨rfl, Option.some.inj (answer.symm.trans found)⟩

theorem roots_eq : scopes.toList.flatMap (·.root.toList) =
    (scopes.toList.flatMap (context.walkOf body)).filter fun id =>
      context.rule? id = some .deferred := by
  obtain ⟨top, others, scopes_eq, met⟩ := apart.top
  have deferred : scopes.toList.map (·.graph.deferred) = scopes.toList.map fun scope =>
      (context.walkOf body scope).filter fun id => context.rule? id = some .deferred :=
    List.map_congr_left fun scope member => apart.deferred_eq (Array.mem_toList_iff.mp member)
  calc scopes.toList.flatMap (·.root.toList)
      = (others.map Scope.origin).flatMap (·.1.toList) := by
        rw [scopes_eq, List.flatMap_cons, List.flatMap_map]
        rfl
    _ = scopes.toList.flatMap (·.graph.deferred) := by rw [met, Scope.roots_met]
    _ = _ := by rw [List.filter_flatMap, List.flatMap_def, deferred, ← List.flatMap_def]

theorem number_eq_of_root (here : scopes[number]? = some scope)
    (there : scopes[other]? = some scope') (isRoot : scope.root = some root)
    (isRoot' : scope'.root = some root) : number = other := by
  have once : (scopes.toList.flatMap (·.root.toList)).Nodup := by
    rw [apart.roots_eq]
    exact apart.once.filter _
  rw [← Array.getElem?_toList] at here there
  exact position_eq_of_nodup_flatMap once here there (Option.mem_toList.mpr isRoot)
    (Option.mem_toList.mpr isRoot')

end Apart

/-- Every statement of a module has one home. A definition lives in the parent of its scope, of
    which there is one, and all that its body holds lives in this scope. -/
theorem statements_have_one_home (success : context.buildModule body log = .ok graphs log')
    (once : (graphs.scopes.toList.flatMap (context.walkOf body)).Nodup) :
    (∀ (number : Nat) (scope : Scope) (stmt : StmtId), graphs.scopes[number]? = some scope →
      (∃ id, scope.graph.blockOf? stmt = some id) ∨
        (∃ block ∈ scope.graph.blocks.toList, stmt ∈ block.statements) →
      ∃ id, graphs.Home stmt number id) ∧
    (∀ (number : Nat) (scope : Scope) (root : StmtId), graphs.scopes[number]? = some scope →
      scope.root = some root → ∃ stmt parent id, context.Treats root stmt .deferred ∧
        scope.parent = some parent ∧ graphs.Home root parent id ∧
        (∀ inner ∈ context.visited stmt.body, ∃ id, graphs.Home inner number id) ∧
        ∀ (other : Nat) (scope' : Scope), graphs.scopes[other]? = some scope' →
          scope'.root = some root → other = number) ∧
    ∀ root stmt number id, context.Treats root stmt .deferred → graphs.Home root number id →
      ∃ (child : Nat) (inner : Scope), graphs.scopes[child]? = some inner ∧
        inner.root = some root ∧ inner.parent = some number := by
  have apart := apart_of_buildModule success once
  refine ⟨?_, ?_, ?_⟩
  · intro number scope stmt here stands
    have member := Array.mem_of_getElem? here
    apply apart.home here
    rw [apart.mem_walkOf_iff member]
    rcases stands with answer | ⟨block, inside, holds⟩
    · exact answer
    · exact ⟨block.id, apart.blockOf?_of_listed member inside holds⟩
  · intro number scope root here isRoot
    obtain ⟨parent, around, isParent, there, walked, deferred⟩ := apart.exists_parent here isRoot
    obtain ⟨stmt, kept, treated⟩ := Option.bind_eq_some_iff.mp deferred
    obtain ⟨id, home⟩ := apart.home there walked
    refine ⟨stmt, parent, id, ⟨kept, treated⟩, isParent, home, ?_, ?_⟩
    · intro inner visited
      apply apart.home here
      simpa only [walkOf, bodyOf, isRoot, kept, Option.map_some, Option.getD_some] using visited
    · intro other scope' there isRoot'
      exact apart.number_eq_of_root there here isRoot' isRoot
  · intro root stmt number id treats home
    obtain ⟨scope, _, here, answer, _⟩ := home.placed
    have member := Array.mem_of_getElem? here
    exact apart.exists_child here ((apart.mem_walkOf_iff member).mpr ⟨id, answer⟩) treats.rule?_eq

/-- A definition in a branch in a loop, with another one inside that returns. -/
def nestedDefinitions : Context where
  pool := { slots := #[⟨0, none⟩, ⟨1, some (.whileLoop 1 [⟨2, 1⟩])⟩,
    ⟨1, some (.ifElse 2 [] [⟨3, 1⟩])⟩, ⟨1, some (.define .classDef 0 3 [⟨4, 1⟩, ⟨5, 1⟩])⟩,
    ⟨1, some (.simple .pass 4)⟩, ⟨1, some (.define .functionDef 1 5 [⟨6, 1⟩])⟩,
    ⟨1, some (.returnAt 6)⟩] }
  dialect := .python3
  maxDepth := 2

theorem statements_have_one_home_nestedDefinitions :
    ∃ graphs log, nestedDefinitions.buildModule [⟨1, 1⟩] #[] = .ok graphs log ∧
      (∃ id, graphs.Home ⟨3, 1⟩ 0 id) ∧ (∃ id, graphs.Home ⟨4, 1⟩ 1 id) ∧
      (∃ id, graphs.Home ⟨5, 1⟩ 1 id) ∧ ∃ id, graphs.Home ⟨6, 1⟩ 2 id := by
  have evaluated : (nestedDefinitions.buildModule [⟨1, 1⟩]).outcome.1.toOption.map
      (fun graphs => graphs.scopes.toList.map fun scope => (scope.root, scope.parent)) =
        some [(none, none), (some ⟨3, 1⟩, some 0), (some ⟨5, 1⟩, some 1)] := by decide +kernel
  cases success : nestedDefinitions.buildModule [⟨1, 1⟩] #[] with
  | error failure log => simp [BuildM.outcome, EStateM.run, success, Except.toOption] at evaluated
  | ok graphs log =>
      simp only [BuildM.outcome, EStateM.run, success, Except.toOption, Option.map_some,
        Option.some.injEq] at evaluated
      have once : (graphs.scopes.toList.flatMap (nestedDefinitions.walkOf [⟨1, 1⟩])).Nodup := by
        have walks : graphs.scopes.toList.flatMap (nestedDefinitions.walkOf [⟨1, 1⟩]) =
            (graphs.scopes.toList.map fun scope => (scope.root, scope.parent)).flatMap fun origin =>
              nestedDefinitions.visited (nestedDefinitions.bodyOf [⟨1, 1⟩] origin.1) := by
          rw [List.flatMap_map]
          rfl
        rw [walks, evaluated]
        decide
      obtain ⟨_, scopes, _⟩ := statements_have_one_home success once
      have inScope : ∀ number root parent stmt, (graphs.scopes.toList.map fun scope =>
          (scope.root, scope.parent))[number]? = some (some root, some parent) →
          nestedDefinitions.pool.get? root = some stmt → (∃ id, graphs.Home root parent id) ∧
            ∀ inner ∈ nestedDefinitions.visited stmt.body, ∃ id, graphs.Home inner number id := by
        intro number root parent stmt listed kept
        rw [List.getElem?_map, Array.getElem?_toList, Option.map_eq_some_iff] at listed
        obtain ⟨scope, here, origin_eq⟩ := listed
        obtain ⟨isRoot, isParent⟩ := Prod.mk.inj origin_eq
        obtain ⟨_, _, id, treats, isParent', home, inside, _⟩ :=
          scopes number scope root here isRoot
        cases isParent.symm.trans isParent'
        cases kept.symm.trans treats.kept
        exact ⟨⟨id, home⟩, inside⟩
      rw [evaluated] at inScope
      obtain ⟨definition, inDefinition⟩ := inScope 1 ⟨3, 1⟩ 0 _ rfl rfl
      obtain ⟨function, inFunction⟩ := inScope 2 ⟨5, 1⟩ 1 _ rfl rfl
      exact ⟨graphs, log, rfl, definition, inDefinition ⟨4, 1⟩ (by decide), function,
        inFunction ⟨6, 1⟩ (by decide)⟩

end Context

end FlowGraph
