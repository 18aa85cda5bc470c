import FlowGraph.Proofs.Nesting
import FlowGraph.Proofs.Order
import Mathlib.Logic.Relation

/-! # Statements that are nested in themselves

A pool is any graph of statements: branches and loops in it may be nested in themselves, be it
through each other. A walk of such statements ends nevertheless, since it goes one level deeper
with each branch or loop that it goes into and the levels are limited. But no build accepts
them: what it accepts unfolds to a finite walk, and in that a statement on a cycle would have
another one inside of it without end.
-/

namespace FlowGraph

namespace Context

open WalkM

variable {context : Context} {id outer inner : StmtId} {ids walk : List StmtId}

/-- The walk of a statement that is told how deep it is, instead of the levels that are left.
    It goes down only where it is no deeper than the limit, whatever the pool keeps. -/
def walkAt (context : Context) (depth : Nat) (cursor : BlockId) (id : StmtId) : WalkM BlockId :=
  match context.pool.get? id with
  | none => .refuse (.missingStatement id)
  | some stmt =>
      if _deep : context.maxDepth < depth then
        .refuse (.nestingTooDeep id stmt.line context.maxDepth)
      else
        let below (entry : BlockId) (ids : List StmtId) : WalkM BlockId :=
          ids.foldlM (context.walkAt (depth + 1)) entry
        context.visit below cursor id stmt
termination_by context.maxDepth + 1 - depth

theorem walkAt_eq (context : Context) (depth : Nat) :
    context.walkAt depth = context.walkStmt (context.maxDepth + 1 - depth) := by
  generalize left : context.maxDepth + 1 - depth = levels
  induction levels generalizing depth with
  | zero =>
      funext cursor id
      have deep : context.maxDepth < depth := by omega
      rw [walkAt]
      cases kept : context.pool.get? id with
      | none => rw [walkStmt_of_missing kept]
      | some stmt => simp only [walkStmt_zero kept, deep, dif_pos]
  | succ levels ih =>
      funext cursor id
      have shallow : ¬ context.maxDepth < depth := by omega
      rw [walkAt]
      cases kept : context.pool.get? id with
      | none => rw [walkStmt_of_missing kept]
      | some stmt =>
          simp only [walkStmt_succ kept, shallow, dif_neg, not_false_eq_true]
          rw [ih (depth + 1) (by omega)]
          rfl

/-- The legs to which a leg leads have fewer levels, or the same and fewer statements. -/
theorem Leads.descends {way : Way} {leg next : Leg} (leads : context.Leads way leg next) :
    Prod.Lex (· < ·) (· < ·) (next.levels, next.ids.length) (leg.levels, leg.ids.length) := by
  cases leads with
  | onward => exact .right _ (Nat.lt_succ_self _)
  | body | orelse | turn => exact .left _ _ (Nat.lt_succ_self _)

theorem wellFounded_leads (context : Context) :
    WellFounded fun next leg => ∃ way, context.Leads way leg next := by
  refine Subrelation.wf ?_ (InvImage.wf (fun leg : Leg => (leg.levels, leg.ids.length))
    (Prod.lex Nat.lt_wfRel Nat.lt_wfRel).wf)
  rintro next leg ⟨way, leads⟩
  exact leads.descends

/-- The inner statement stands in a sequence into which the rule of the outer one goes. -/
def Nests (context : Context) (outer inner : StmtId) : Prop :=
  ∃ clause, context.Opens outer clause ∧ inner ∈ clause

open Relation (TransGen ReflTransGen)

theorem Nests.rule?_eq (nests : context.Nests outer inner) :
    context.rule? outer = some .branch ∨ context.rule? outer = some .loop := by
  obtain ⟨_, ⟨_, ⟨treats, _⟩ | ⟨treats, _⟩⟩, _⟩ := nests
  · exact .inl treats.rule?_eq
  · exact .inr treats.rule?_eq

theorem Nests.withLimit (nests : context.Nests outer inner) (maxDepth : Nat) :
    { context with maxDepth }.Nests outer inner := by
  obtain ⟨clause, ⟨stmt, ⟨treats, opened⟩ | ⟨treats, opened⟩⟩, member⟩ := nests
  · exact ⟨clause, ⟨stmt, .inl ⟨⟨treats.kept, treats.treated⟩, opened⟩⟩, member⟩
  · exact ⟨clause, ⟨stmt, .inr ⟨⟨treats.kept, treats.treated⟩, opened⟩⟩, member⟩

theorem exists_top_of_opens {clause : List StmtId} (opens : context.Opens outer clause)
    (found : ∃ top ∈ clause, ReflTransGen context.Nests top inner) :
    ∃ top ∈ outer :: ids, ReflTransGen context.Nests top inner := by
  obtain ⟨top, within, nested⟩ := found
  exact ⟨outer, List.mem_cons_self, .head ⟨clause, opens, within⟩ nested⟩

theorem exists_top_of_rest (found : ∃ top ∈ ids, ReflTransGen context.Nests top inner) :
    ∃ top ∈ outer :: ids, ReflTransGen context.Nests top inner := by
  obtain ⟨top, first, nested⟩ := found
  exact ⟨top, List.mem_cons_of_mem _ first, nested⟩

theorem Unfolds.exists_top (unfolds : context.Unfolds ids walk) (member : inner ∈ walk) :
    ∃ top ∈ ids, ReflTransGen context.Nests top inner := by
  induction unfolds with
  | done => cases member
  | leaf _ _ _ ih =>
      rcases List.mem_cons.mp member with rfl | behind
      · exact ⟨inner, List.mem_cons_self, .refl⟩
      · exact exists_top_of_rest (ih behind)
  | @branch _ stmt _ _ _ _ treats _ _ _ ihBody ihOrelse ih =>
      rw [List.mem_cons, List.mem_append, List.mem_append] at member
      rcases member with rfl | (inBody | inOrelse) | behind
      · exact ⟨inner, List.mem_cons_self, .refl⟩
      · exact exists_top_of_opens ⟨stmt, .inl ⟨treats, .inl rfl⟩⟩ (ihBody inBody)
      · exact exists_top_of_opens ⟨stmt, .inl ⟨treats, .inr rfl⟩⟩ (ihOrelse inOrelse)
      · exact exists_top_of_rest (ih behind)
  | @loop _ stmt _ _ _ treats _ _ ihBody ih =>
      rw [List.mem_cons, List.mem_append] at member
      rcases member with rfl | inBody | behind
      · exact ⟨inner, List.mem_cons_self, .refl⟩
      · exact exists_top_of_opens ⟨stmt, .inr ⟨treats, rfl⟩⟩ (ihBody inBody)
      · exact exists_top_of_rest (ih behind)

theorem Unfolds.mem_iff (unfolds : context.Unfolds ids walk) :
    inner ∈ walk ↔ ∃ top ∈ ids, ReflTransGen context.Nests top inner := by
  constructor
  · exact unfolds.exists_top
  · rintro ⟨top, first, nested⟩
    induction nested with
    | refl => exact unfolds.subset first
    | tail _ nests ih =>
        obtain ⟨_, opens, within⟩ := nests
        exact unfolds.opened ih opens within

/-- A statement that is nested in itself has inside of it one that is, too. -/
theorem exists_nested_cycle (cycle : TransGen context.Nests id id) :
    ∃ clause, context.Opens id clause ∧ ∃ next ∈ clause, TransGen context.Nests next next := by
  obtain ⟨next, nests, back⟩ := Relation.TransGen.head'_iff.mp cycle
  obtain ⟨clause, opens, within⟩ := nests
  exact ⟨clause, opens, next, within, .tail' back ⟨clause, opens, within⟩⟩

theorem Unfolds.acyclic (unfolds : context.Unfolds ids walk) :
    ∀ id ∈ walk, ¬ TransGen context.Nests id id := by
  -- a statement on a cycle would have another one inside of it, in a shorter walk
  induction unfolds with
  | done => exact List.forall_mem_nil _
  | leaf notBranch notLoop _ ih =>
      refine List.forall_mem_cons.mpr ⟨fun cycle => ?_, ih⟩
      obtain ⟨_, nests, _⟩ := Relation.TransGen.head'_iff.mp cycle
      exact nests.rule?_eq.elim notBranch notLoop
  | branch treats body orelse _ ihBody ihOrelse ih =>
      refine List.forall_mem_cons.mpr ⟨fun cycle => ?_, ?_⟩
      · obtain ⟨_, ⟨_, ⟨treats', opened⟩ | ⟨treats', _⟩⟩, next, within, again⟩ :=
          exists_nested_cycle cycle
        · obtain ⟨rfl, _⟩ := treats.unique treats'
          rcases opened with rfl | rfl
          · exact ihBody next (body.subset within) again
          · exact ihOrelse next (orelse.subset within) again
        · cases (treats.unique treats').2
      · simp only [List.forall_mem_append]
        exact ⟨⟨ihBody, ihOrelse⟩, ih⟩
  | loop treats body _ ihBody ih =>
      refine List.forall_mem_cons.mpr ⟨fun cycle => ?_, ?_⟩
      · obtain ⟨_, ⟨_, ⟨treats', _⟩ | ⟨treats', rfl⟩⟩, next, within, again⟩ :=
          exists_nested_cycle cycle
        · cases (treats.unique treats').2
        · obtain ⟨rfl, _⟩ := treats.unique treats'
          exact ihBody next (body.subset within) again
      · simp only [List.forall_mem_append]
        exact ⟨ihBody, ih⟩

section Build

variable {start : Numbering} {body : List StmtId} {log log' : Log} {graph : Graph}

theorem acyclic_of_build (success : context.build start body log = .ok graph log') :
    ∀ id ∈ context.visited body, ¬ TransGen context.Nests id id := by
  obtain ⟨_, _, built⟩ := built_of_build success
  exact built.unfolds.acyclic

/-- The walk of a body ends for every pool: it may be told its depth, it has as many levels
    left as there are between that and the limit, and from no leg does it go on for ever. A
    body is accepted only when none of the statements visited is nested in itself; so one
    that has such a statement anywhere inside of it is refused with every limit, unless the
    block ids run out first. -/
theorem cyclic_bodies_refused (context : Context) (body : List StmtId) :
    (∀ depth, context.walkAt depth = context.walkStmt (context.maxDepth + 1 - depth)) ∧
    (∀ start log around leg, context.Comes (context.firstLeg start body log) around leg →
      leg.levels + around.length = context.maxDepth + 1) ∧
    (WellFounded fun next leg => ∃ way, context.Leads way leg next) ∧
    (∀ start log graph log', context.build start body log = .ok graph log' →
      ∀ id ∈ context.visited body, ¬ TransGen context.Nests id id) ∧
    ∀ top ∈ body, ∀ id, ReflTransGen context.Nests top id → TransGen context.Nests id id →
      ∀ maxDepth start log,
        (∃ error log', { context with maxDepth }.build start body log =
          .error (.flow error) log') ∨
        RanOut ({ context with maxDepth }.build start body log) := by
  refine ⟨context.walkAt_eq, fun _ _ _ _ comes => comes.levels, context.wellFounded_leads,
    fun _ _ _ _ success => acyclic_of_build success, ?_⟩
  intro top first id inside cycle maxDepth start log
  have same : ∀ outer inner, context.Nests outer inner →
      { context with maxDepth }.Nests outer inner := fun _ _ nests => nests.withLimit maxDepth
  rcases settled_build { context with maxDepth } start body log with ⟨graph, log', success⟩ | ends
  · -- the walk of an accepted body has all that is nested in it, but nothing nested in itself
    obtain ⟨_, _, built⟩ := built_of_build success
    have visited := built.unfolds.mem_iff.mpr ⟨top, first, ReflTransGen.mono same top id inside⟩
    exact absurd (TransGen.mono same id id cycle) (acyclic_of_build success id visited)
  · exact ends

/-- A loop and a branch, each nested in the other one, behind a plain statement. -/
def loopInItself : Context where
  pool := { slots := #[⟨0, none⟩, ⟨1, some (.simple .pass 1)⟩,
    ⟨1, some (.whileLoop 2 [⟨1, 1⟩, ⟨3, 1⟩])⟩, ⟨1, some (.ifElse 3 [] [⟨2, 1⟩])⟩] }
  dialect := .python3

theorem cyclic_bodies_refused_loopInItself :
    ∃ error log, { loopInItself with maxDepth := 1 }.build {} [⟨1, 1⟩, ⟨2, 1⟩] #[] =
      .error (.flow error) log := by
  have toBranch : loopInItself.Nests ⟨2, 1⟩ ⟨3, 1⟩ :=
    ⟨_, ⟨.whileLoop 2 [⟨1, 1⟩, ⟨3, 1⟩], .inr ⟨⟨rfl, rfl⟩, rfl⟩⟩, by decide⟩
  have toLoop : loopInItself.Nests ⟨3, 1⟩ ⟨2, 1⟩ :=
    ⟨_, ⟨.ifElse 3 [] [⟨2, 1⟩], .inl ⟨⟨rfl, rfl⟩, .inr rfl⟩⟩, by decide⟩
  have tooDeep : Decided ({ loopInItself with maxDepth := 1 }.build {} [⟨1, 1⟩, ⟨2, 1⟩] #[])
      (some (.nestingTooDeep ⟨2, 1⟩ 2 1)) := refusalOf?_eq_some.mp (by decide)
  obtain ⟨_, _, _, _, refused⟩ := cyclic_bodies_refused loopInItself [⟨1, 1⟩, ⟨2, 1⟩]
  rcases refused ⟨2, 1⟩ (by decide) ⟨3, 1⟩ (.single toBranch) (.tail (.single toLoop) toBranch)
    1 {} #[] with failed | ran
  · exact failed
  · exact absurd ran tooDeep.not_ranOut

end Build

end Context

end FlowGraph
