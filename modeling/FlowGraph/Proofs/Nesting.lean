import FlowGraph.Proofs.Visible

/-! # The limit of nesting

A walk comes to each statement inside some branches and loops, and with each of these it has
one level less. So it is the limit that stops a build exactly where it comes to a statement
inside one more of them than the limit says, and there it comes at most once. Up to there the
limit has no influence: a build that it does not stop goes the same way with any higher one.
-/

namespace FlowGraph

/-- A build was stopped by the limit of nesting. -/
def TooDeep {α : Type} (result : EStateM.Result Failure Log α) : Prop :=
  ∃ stmt line limit log, result = .error (.flow (.nestingTooDeep stmt line limit)) log

/-- Two results are the same, unless the first is a failure of some kind. -/
def SameUnless {α : Type} (kind : Failure → Prop) (left right : EStateM.Result Failure Log α) :
    Prop :=
  (∃ failure log, left = .error failure log ∧ kind failure) ∨ right = left

namespace SameUnless

variable {α β : Type} {kind kind' : Failure → Prop} {log : Log}

theorem mono {left right : EStateM.Result Failure Log α} (same : SameUnless kind left right)
    (wider : ∀ failure, kind failure → kind' failure) : SameUnless kind' left right := by
  rcases same with ⟨failure, log, failed, of⟩ | same
  · exact .inl ⟨failure, log, failed, wider failure of⟩
  · exact .inr same

theorem bind {first first' : BuildM α} {next next' : α → BuildM β}
    (same : SameUnless kind (first log) (first' log))
    (onward : ∀ value mid, first log = .ok value mid →
      SameUnless kind (next value mid) (next' value mid)) :
    SameUnless kind ((first >>= next) log) ((first' >>= next') log) := by
  rcases same with ⟨failure, mid, failed, of⟩ | same
  · exact .inl ⟨failure, mid, BuildM.bind_of_error failed, of⟩
  · cases run : first log with
    | ok value mid =>
        rw [BuildM.bind_of_ok run, BuildM.bind_of_ok (same.trans run)]
        exact onward value mid run
    | error failure mid =>
        rw [BuildM.bind_of_error run, BuildM.bind_of_error (same.trans run)]
        exact .inr rfl

theorem bindWalk {first first' : WalkM α} {next next' : α → WalkM β} {state : WalkState}
    (same : SameUnless kind (first state log) (first' state log))
    (onward : ∀ value after mid, first state log = .ok (value, after) mid →
      SameUnless kind (next value after mid) (next' value after mid)) :
    SameUnless kind ((first >>= next) state log) ((first' >>= next') state log) :=
  bind same fun pair mid went => onward pair.1 pair.2 mid went

end SameUnless

namespace Context

open WalkM

/-- From a leg the walk comes to another one, inside the given branches and loops, outermost
    first. -/
inductive Comes (context : Context) : Leg → List StmtId → Leg → Prop where
  | here {leg} : Comes context leg [] leg
  | onward {leg behind around final} : context.Leads .onward leg behind →
      Comes context behind around final → Comes context leg around final
  | inside {way leg inner id around final} : way ≠ .onward → leg.ids.head? = some id →
      context.Enters id → context.Leads way leg inner → Comes context inner around final →
      Comes context leg (id :: around) final

variable {context : Context} {leg inner behind final other : Leg} {way : Way} {id : StmtId}
  {stmt : Stmt} {around around' : List StmtId} {last : BlockId}

/-- A leg has one level less than another one for each branch or loop that is around it. -/
theorem Comes.levels (comes : context.Comes leg around final) :
    final.levels + around.length = leg.levels := by
  induction comes with
  | here => rfl
  | onward leads _ ih =>
      cases leads
      exact ih
  | inside notOnward _ _ leads _ ih =>
      rw [List.length_cons, ← Nat.add_assoc, ih]
      cases leads with
      | onward => exact absurd rfl notOnward
      | body | orelse | turn => rfl

theorem Comes.nested (comes : context.Comes leg around final) :
    ∀ outer ∈ around, context.rule? outer = some .branch ∨ context.rule? outer = some .loop := by
  induction comes with
  | here => simp
  | onward _ _ ih => exact ih
  | inside _ _ enters _ _ ih =>
      refine List.forall_mem_cons.mpr ⟨?_, ih⟩
      cases enters with
      | branch treats => exact .inl treats.rule?_eq
      | loop treats => exact .inr treats.rule?_eq

section Once

theorem exists_onward (ends : context.Ends leg last) (first : leg.ids.head? = some id) :
    ∃ behind, context.Leads .onward leg behind ∧ context.Ends behind last := by
  obtain ⟨loop, levels, cursor, ids, state, log⟩ := leg
  obtain ⟨after, log', walked⟩ := ends
  cases ids with
  | nil => cases first
  | cons _ ids =>
      obtain ⟨mid, state₁, log₁, step, rest⟩ := walkSeq_cons_eq_ok.mp walked
      exact ⟨_, .onward step, after, log', rest⟩

theorem Leads.ends_of_onward (leads : context.Leads way leg inner) (inside : way ≠ .onward)
    (onward : context.Leads .onward leg behind) : ∃ last, context.Ends inner last := by
  cases leads with
  | onward => exact absurd rfl inside
  | body treats forked =>
      cases onward with
      | onward walked =>
          obtain ⟨_, _, _, left, s₂, l₂, _, _, _, forked', walkBody, _⟩ :=
            parts_of_walkStmt_branch treats walked
          cases forked.symm.trans forked'
          exact ⟨left, s₂, l₂, walkBody⟩
  | orelse treats forked walkedBody =>
      cases onward with
      | onward walked =>
          obtain ⟨_, _, _, _, _, _, right, s₃, l₃, forked', walkBody, walkOrelse, _⟩ :=
            parts_of_walkStmt_branch treats walked
          cases forked.symm.trans forked'
          cases walkedBody.symm.trans walkBody
          exact ⟨right, s₃, l₃, walkOrelse⟩
  | turn treats forked =>
      cases onward with
      | onward walked =>
          obtain ⟨_, _, _, bodyEnd, s₂, l₂, forked', walkBody, _⟩ :=
            parts_of_walkStmt_loop treats walked
          cases forked.symm.trans forked'
          exact ⟨bodyEnd, s₂, l₂, walkBody⟩

/-- A walk has no levels left for the statement to which it comes. -/
structure Spent (leg : Leg) : Prop where
  levels : leg.levels = 0
  ids : leg.ids ≠ []

theorem Spent.not_leads (spent : Spent leg) : ¬ context.Leads way leg inner := by
  intro leads
  have none := spent.levels
  cases leads with
  | onward walked =>
      obtain ⟨_, _, _, some, _⟩ := exists_treats_of_walkStmt walked
      exact absurd (none.symm.trans some) (Nat.succ_ne_zero _).symm
  | body | orelse | turn => cases none

theorem Comes.not_ends (comes : context.Comes leg around final) (spent : Spent final) :
    ¬ context.Ends leg last := by
  induction comes generalizing last with
  | @here leg =>
      intro ends
      obtain ⟨id, ids, first⟩ := List.exists_cons_of_ne_nil spent.ids
      obtain ⟨behind, leads, _⟩ := exists_onward ends (congrArg List.head? first)
      exact spent.not_leads leads
  | @onward leg behind _ _ leads _ ih =>
      intro ends
      obtain ⟨id, ids, first⟩ := List.exists_cons_of_ne_nil leads.ids_ne_nil
      obtain ⟨behind', leads', ends'⟩ := exists_onward ends (congrArg List.head? first)
      obtain rfl := leads.unique leads'
      exact ih spent ends'
  | inside notOnward first _ leads _ ih =>
      intro ends
      obtain ⟨_, onward, _⟩ := exists_onward ends first
      obtain ⟨last, within⟩ := leads.ends_of_onward notOnward onward
      exact ih spent within

/-- The walk goes into the second arm of a branch only when it went through the first one. -/
theorem Leads.way_eq {way' : Way} (leads : context.Leads way leg inner)
    (leads' : context.Leads way' leg other) (inside : way ≠ .onward) (inside' : way' ≠ .onward)
    (stops : ∀ last, ¬ context.Ends inner last) (stops' : ∀ last, ¬ context.Ends other last) :
    way = way' := by
  cases leads with
  | onward => exact absurd rfl inside
  | body treats forked =>
      cases leads' with
      | onward => exact absurd rfl inside'
      | body => rfl
      | orelse treats' forked' walked =>
          obtain ⟨rfl, _⟩ := treats.unique treats'
          cases forked.symm.trans forked'
          exact absurd ⟨_, _, walked⟩ (stops _)
      | turn treats' => cases (treats.unique treats').2
  | orelse treats forked walked =>
      cases leads' with
      | onward => exact absurd rfl inside'
      | body treats' forked' =>
          obtain ⟨rfl, _⟩ := treats.unique treats'
          cases forked.symm.trans forked'
          exact absurd ⟨_, _, walked⟩ (stops' _)
      | orelse => rfl
      | turn treats' => cases (treats.unique treats').2
  | turn treats =>
      cases leads' with
      | onward => exact absurd rfl inside'
      | body treats' | orelse treats' => cases (treats.unique treats').2
      | turn => rfl

theorem Comes.unique (comes : context.Comes leg around final) (spent : Spent final)
    (comes' : context.Comes leg around' other) (spent' : Spent other) :
    around = around' ∧ final = other := by
  induction comes generalizing around' with
  | here =>
      cases comes' with
      | here => exact ⟨rfl, rfl⟩
      | onward leads | inside _ _ _ leads => exact absurd leads spent.not_leads
  | onward leads comes ih =>
      cases comes' with
      | here => exact absurd leads spent'.not_leads
      | onward leads' comes' =>
          obtain rfl := leads.unique leads'
          exact ih spent comes'
      | inside notOnward _ _ leads' comes' =>
          obtain ⟨last, ends⟩ := leads'.ends_of_onward notOnward leads
          exact absurd ends (comes'.not_ends spent')
  | inside notOnward first _ leads comes ih =>
      cases comes' with
      | here => exact absurd leads spent'.not_leads
      | onward leads' _ =>
          obtain ⟨last, ends⟩ := leads.ends_of_onward notOnward leads'
          exact absurd ends (comes.not_ends spent)
      | inside notOnward' first' _ leads' comes' =>
          obtain rfl := leads.way_eq leads' notOnward notOnward'
            (fun _ => comes.not_ends spent) (fun _ => comes'.not_ends spent')
          obtain rfl := leads.unique leads'
          obtain ⟨rfl, same⟩ := ih spent comes'
          obtain rfl := Option.some.inj (first.symm.trans first')
          exact ⟨rfl, same⟩

end Once

section Fails

variable {failure : Failure} {levels : Nat} {cursor : BlockId} {log : Log}

/-- The walk of a leg fails. -/
def Fails (context : Context) (leg : Leg) (failure : Failure) (log : Log) : Prop :=
  context.walkSeq leg.levels leg.cursor leg.ids leg.state leg.log = .error failure log

theorem Enters.plain (enters : context.Enters id) {rule : Rule}
    (treats : context.Treats id stmt rule) :
    stmt.hasClauses = false ∧ (rule = .loop → stmt.orelse.isEmpty) := by
  cases enters with
  | branch treats' plain =>
      obtain ⟨rfl, rfl⟩ := treats.unique treats'
      exact ⟨plain, fun loop => by cases loop⟩
  | loop treats' elseless plain =>
      obtain ⟨rfl, rfl⟩ := treats.unique treats'
      exact ⟨plain, fun _ => elseless⟩

theorem walkStmt_branch_eq (enters : context.Enters id) (treats : context.Treats id stmt .branch) :
    context.walkStmt (levels + 1) cursor id = (do
      record (.visited stmt.line stmt.kind .branch cursor)
      let entries ← fork cursor id (.branched cursor)
      let left ← context.walkSeq levels entries.1 stmt.body
      let right ← context.walkSeq levels entries.2 stmt.orelse
      join left right) := by
  obtain ⟨plain, _⟩ := enters.plain treats
  simp only [walkStmt_succ treats.kept, visit, treats.treated, walkBranch_eq, plain,
    Bool.false_eq_true, if_false]

theorem walkStmt_loop_eq (enters : context.Enters id) (treats : context.Treats id stmt .loop) :
    context.walkStmt (levels + 1) cursor id = (do
      record (.visited stmt.line stmt.kind .loop cursor)
      let entries ← fork cursor id (.looped cursor)
      enterLoop ⟨cursor, entries.2⟩
      let last ← context.walkSeq levels entries.1 stmt.body
      finishLoop cursor entries.2 last) := by
  obtain ⟨plain, elseless⟩ := enters.plain treats
  simp only [walkStmt_succ treats.kept, visit, treats.treated, walkLoop_eq, plain, elseless,
    Bool.not_true, Bool.false_eq_true, if_false]

theorem Leads.fails_inside (leads : context.Leads way leg inner) (notOnward : way ≠ .onward)
    (first : leg.ids.head? = some id) (enters : context.Enters id)
    (failed : context.Fails inner failure log) : context.Fails leg failure log := by
  cases leads with
  | onward => exact absurd rfl notOnward
  | body treats forking =>
      cases first
      refine BuildM.bind_of_error ?_
      rw [walkStmt_branch_eq enters treats]
      exact ((BuildM.bind_of_ok rfl).trans (BuildM.bind_of_ok forking)).trans
        (BuildM.bind_of_error failed)
  | orelse treats forking walked =>
      cases first
      refine BuildM.bind_of_error ?_
      rw [walkStmt_branch_eq enters treats]
      exact (((BuildM.bind_of_ok rfl).trans (BuildM.bind_of_ok forking)).trans
        (BuildM.bind_of_ok walked)).trans (BuildM.bind_of_error failed)
  | turn treats forking =>
      cases first
      refine BuildM.bind_of_error ?_
      rw [walkStmt_loop_eq enters treats]
      exact (((BuildM.bind_of_ok rfl).trans (BuildM.bind_of_ok forking)).trans
        (BuildM.bind_of_ok rfl)).trans (BuildM.bind_of_error failed)

theorem Comes.fails (comes : context.Comes leg around final)
    (failed : context.Fails final failure log) : context.Fails leg failure log := by
  induction comes with
  | here => exact failed
  | onward leads _ ih =>
      cases leads with
      | onward walked => exact (BuildM.bind_of_ok walked).trans (ih failed)
  | inside notOnward first enters leads _ ih =>
      exact leads.fails_inside notOnward first enters (ih failed)

end Fails

/-- A walk from the leg comes to a statement with no levels left and is refused for that. -/
def Exceeds (context : Context) (leg : Leg) (failure : Failure) : Prop :=
  ∃ around final stmt kept, context.Comes leg around final ∧ final.levels = 0 ∧
    final.ids.head? = some stmt ∧ context.pool.get? stmt = some kept ∧
    failure = .flow (.nestingTooDeep stmt kept.line context.maxDepth)

theorem Exceeds.onward {failure : Failure} (leads : context.Leads .onward leg behind)
    (exceeds : context.Exceeds behind failure) : context.Exceeds leg failure := by
  obtain ⟨around, final, stmt, kept, comes, found⟩ := exceeds
  exact ⟨around, final, stmt, kept, .onward leads comes, found⟩

theorem Exceeds.inside {failure : Failure} (notOnward : way ≠ .onward)
    (first : leg.ids.head? = some id) (enters : context.Enters id)
    (leads : context.Leads way leg inner) (exceeds : context.Exceeds inner failure) :
    context.Exceeds leg failure := by
  obtain ⟨around, final, stmt, kept, comes, found⟩ := exceeds
  exact ⟨id :: around, final, stmt, kept, .inside notOnward first enters leads comes, found⟩

/-- The context with a limit that is higher by a number of levels. -/
def raiseLimit (context : Context) (more : Nat) : Context :=
  { context with maxDepth := context.maxDepth + more }

/-- With so many levels, a walk goes the same way as one that has some levels more, unless it
    has none left. -/
def WalksOn (context : Context) (more levels : Nat) : Prop :=
  ∀ loop cursor ids state log,
    SameUnless (context.Exceeds ⟨loop, levels, cursor, ids, state, log⟩)
      (context.walkSeq levels cursor ids state log)
      ((context.raiseLimit more).walkSeq (levels + more) cursor ids state log)

section Limit

variable {more levels : Nat} {loop : Option StmtId} {cursor : BlockId} {ids : List StmtId}
  {state : WalkState} {log : Log} {rule : Rule}

/-- A walk inside a branch or loop comes to no other statements than the walk around it. -/
theorem WalksOn.inside (below : context.WalksOn more levels)
    (leads : context.Leads way leg ⟨loop, levels, cursor, ids, state, log⟩)
    (notOnward : way ≠ .onward) (first : leg.ids.head? = some id) (enters : context.Enters id) :
    SameUnless (context.Exceeds leg) (context.walkSeq levels cursor ids state log)
      ((context.raiseLimit more).walkSeq (levels + more) cursor ids state log) :=
  (below loop cursor ids state log).mono fun _ => .inside notOnward first enters leads

theorem sameUnless_branch (treats : context.Treats id stmt .branch)
    (below : context.WalksOn more levels) :
    SameUnless (context.Exceeds ⟨loop, levels + 1, cursor, id :: ids, state, log⟩)
      (context.walkStmt (levels + 1) cursor id state log)
      ((context.raiseLimit more).walkStmt (levels + more + 1) cursor id state log) := by
  have kept : (context.raiseLimit more).pool.get? id = some stmt := treats.kept
  have treated : (context.raiseLimit more).dialect.ruleOf? stmt = some .branch := treats.treated
  rw [walkStmt_succ treats.kept, walkStmt_succ kept, visit, visit, treats.treated, treated]
  refine .bindWalk (.inr rfl) ?_
  rintro _ _ _ ⟨⟩
  simp only [walkBranch_eq]
  split
  · exact .inr rfl
  · rename_i plain
    have enters : context.Enters id := .branch treats (Bool.eq_false_iff.mpr plain)
    refine .bindWalk (.inr rfl) ?_
    rintro ⟨left, right⟩ forked _ forking
    have toBody : context.Leads .body ⟨loop, levels + 1, cursor, id :: ids, state, log⟩ _ :=
      .body treats forking
    refine .bindWalk (below.inside toBody (by decide) rfl enters) fun _ _ _ walked => ?_
    have toOrelse : context.Leads .orelse ⟨loop, levels + 1, cursor, id :: ids, state, log⟩ _ :=
      .orelse treats forking walked
    exact .bindWalk (below.inside toOrelse (by decide) rfl enters) fun _ _ _ _ => .inr rfl

theorem sameUnless_loop (treats : context.Treats id stmt .loop)
    (below : context.WalksOn more levels) :
    SameUnless (context.Exceeds ⟨loop, levels + 1, cursor, id :: ids, state, log⟩)
      (context.walkStmt (levels + 1) cursor id state log)
      ((context.raiseLimit more).walkStmt (levels + more + 1) cursor id state log) := by
  have kept : (context.raiseLimit more).pool.get? id = some stmt := treats.kept
  have treated : (context.raiseLimit more).dialect.ruleOf? stmt = some .loop := treats.treated
  rw [walkStmt_succ treats.kept, walkStmt_succ kept, visit, visit, treats.treated, treated]
  refine .bindWalk (.inr rfl) ?_
  rintro _ _ _ ⟨⟩
  simp only [walkLoop_eq]
  split
  · exact .inr rfl
  rename_i elseless
  split
  · exact .inr rfl
  · rename_i plain
    have enters : context.Enters id :=
      .loop treats (by simpa using elseless) (Bool.eq_false_iff.mpr plain)
    refine .bindWalk (.inr rfl) ?_
    rintro ⟨entry, exit⟩ ⟨graph, loops⟩ _ forking
    refine .bindWalk (.inr rfl) ?_
    rintro _ _ _ ⟨⟩
    have toBody : context.Leads .turn ⟨loop, levels + 1, cursor, id :: ids, state, log⟩ _ :=
      .turn treats forking
    exact .bindWalk (below.inside toBody (by decide) rfl enters) fun _ _ _ _ => .inr rfl

/-- A statement with any other rule is not gone into, so no level is asked for. -/
theorem walkStmt_raiseLimit (kept : context.pool.get? id = some stmt)
    (notBranch : context.dialect.ruleOf? stmt ≠ some .branch)
    (notLoop : context.dialect.ruleOf? stmt ≠ some .loop) :
    (context.raiseLimit more).walkStmt (levels + more + 1) cursor id =
      context.walkStmt (levels + 1) cursor id := by
  have kept' : (context.raiseLimit more).pool.get? id = some stmt := kept
  have same : (context.raiseLimit more).dialect.ruleOf? stmt = context.dialect.ruleOf? stmt := rfl
  rw [walkStmt_succ kept, walkStmt_succ kept', visit, visit, same]
  cases treated : context.dialect.ruleOf? stmt with
  | none => rfl
  | some rule =>
      cases rule with
      | branch => exact absurd treated notBranch
      | loop => exact absurd treated notLoop
      | sequential | deferred | returns | breaks | continues | unsupported => rfl

theorem sameUnless_walkStmt (below : ∀ fewer, levels = fewer + 1 → context.WalksOn more fewer) :
    SameUnless (context.Exceeds ⟨loop, levels, cursor, id :: ids, state, log⟩)
      (context.walkStmt levels cursor id state log)
      ((context.raiseLimit more).walkStmt (levels + more) cursor id state log) := by
  cases kept : context.pool.get? id with
  | none =>
      have kept' : (context.raiseLimit more).pool.get? id = none := kept
      rw [walkStmt_of_missing kept, walkStmt_of_missing kept']
      exact .inr rfl
  | some stmt =>
      cases levels with
      | zero =>
          rw [walkStmt_zero kept]
          exact .inl ⟨_, _, rfl, [], _, id, stmt, .here, rfl, rfl, kept, rfl⟩
      | succ levels =>
          rw [Nat.add_right_comm]
          by_cases branch : context.dialect.ruleOf? stmt = some .branch
          · exact sameUnless_branch ⟨kept, branch⟩ (below levels rfl)
          by_cases loop : context.dialect.ruleOf? stmt = some .loop
          · exact sameUnless_loop ⟨kept, loop⟩ (below levels rfl)
          rw [walkStmt_raiseLimit kept branch loop]
          exact .inr rfl

end Limit

theorem walksOn (context : Context) (more levels : Nat) : context.WalksOn more levels := by
  -- the legs inside a statement have fewer levels, the one behind it fewer statements
  induction levels using Nat.strongRecOn with
  | _ levels ih =>
      intro loop cursor ids
      have below : ∀ fewer, levels = fewer + 1 → context.WalksOn more fewer :=
        fun fewer eq => ih fewer (by omega)
      induction ids generalizing cursor with
      | nil => exact fun _ _ => .inr rfl
      | cons id ids ihIds =>
          intro state log
          simp only [walkSeq, List.foldlM_cons]
          refine .bindWalk (sameUnless_walkStmt below) fun next after mid walked => ?_
          exact (ihIds next after mid).mono fun _ => .onward (.onward walked)

section Build

variable {start : Numbering} {body : List StmtId} {log log' : Log} {stmt : StmtId}
  {line limit : Nat}

theorem sameUnless_build (context : Context) (more : Nat) (start : Numbering)
    (body : List StmtId) (log : Log) :
    SameUnless (context.Exceeds (context.firstLeg start body log)) (context.build start body log)
      ((context.raiseLimit more).build start body log) := by
  unfold build buildToEnd buildInto
  refine .bind (.bind (.inr rfl) fun graph mid made => ?_) fun _ _ _ => .inr rfl
  obtain ⟨first, rfl⟩ := BuildM.ofGraph_eq_ok.mp made
  obtain rfl := Graph.new_eq_blank first
  refine .bind (.inr rfl) ?_
  rintro _ _ ⟨⟩
  refine .bind ?_ fun _ _ _ => .inr rfl
  have walks := context.walksOn more (context.maxDepth + 1) none start.next body
    ⟨.blank start.next, []⟩ (log.push (.entered start.next context.dialect.name))
  rwa [Nat.add_right_comm] at walks

theorem limit_eq_of_fault? {visit : Visit}
    (found : context.fault? visit = some (.nestingTooDeep stmt line limit)) :
    limit = context.maxDepth := by
  cases kept : context.pool.get? visit.id with
  | none => simp [fault?, kept] at found
  | some stmt =>
      simp only [fault?, kept] at found
      repeat' split at found
      all_goals cases found
      rfl

theorem limit_eq_of_build
    (failed : context.build start body log =
      .error (.flow (.nestingTooDeep stmt line limit)) log') :
    limit = context.maxDepth := by
  have ending := ends_build context start body log
  rw [failed] at ending
  obtain ⟨_, _, found⟩ := List.exists_of_findSome?_eq_some ending
  exact limit_eq_of_fault? found

/-- A build that was stopped by the limit came to a statement with no levels left. -/
theorem exceeds_of_tooDeep
    (failed : context.build start body log =
      .error (.flow (.nestingTooDeep stmt line limit)) log') :
    context.Exceeds (context.firstLeg start body log)
      (.flow (.nestingTooDeep stmt line limit)) := by
  rcases sameUnless_build context 1 start body log with ⟨_, _, failed', exceeds⟩ | same
  · cases failed.symm.trans failed'
    exact exceeds
  · -- with a higher limit the error would give that one
    have limit_eq := limit_eq_of_build failed
    have limit_eq' := limit_eq_of_build (same.trans failed)
    simp only [raiseLimit] at limit_eq'
    omega

theorem build_of_fails {failure : Failure} (room : start.next.index + 1 < BlockId.limit)
    (failed : context.Fails (context.firstLeg start body log) failure log') :
    context.build start body log = .error failure log' := by
  unfold build buildToEnd
  refine BuildM.bind_of_error ?_
  cases made : Graph.new start with
  | error fault =>
      have full := (Graph.new_eq_error made).1
      omega
  | ok graph =>
      obtain rfl := Graph.new_eq_blank made
      refine (BuildM.bind_of_ok rfl).trans ?_
      exact (BuildM.bind_of_ok rfl).trans (BuildM.bind_of_error failed)

theorem tooDeep_of_comes {around : List StmtId} {leg : Leg} {kept : Stmt}
    (room : start.next.index + 1 < BlockId.limit)
    (comes : context.Comes (context.firstLeg start body log) around leg)
    (none : leg.levels = 0) (first : leg.ids.head? = some stmt)
    (found : context.pool.get? stmt = some kept) :
    context.build start body log =
      .error (.flow (.nestingTooDeep stmt kept.line context.maxDepth)) leg.log := by
  refine build_of_fails room (comes.fails ?_)
  obtain ⟨_, _, _, ids, _, _⟩ := leg
  cases ids with
  | nil => cases first
  | cons _ ids =>
      cases first
      subst none
      refine BuildM.bind_of_error ?_
      rw [walkStmt_zero found]
      rfl

/-- A build that the limit does not stop ends in the same way with every higher limit. One that
    it stops reports its own limit and the line of the statement at which it stopped; it came to
    this one inside one more branch or loop than the limit says, and to all others inside no
    more than that. And it is stopped wherever it comes so deep to a statement. -/
theorem nesting_limit_exact (context : Context) (start : Numbering) (body : List StmtId)
    (log : Log) {deeper : Nat} (higher : context.maxDepth ≤ deeper) :
    (¬ TooDeep (context.build start body log) →
      { context with maxDepth := deeper }.build start body log =
        context.build start body log) ∧
    (∀ stmt line limit log',
      context.build start body log = .error (.flow (.nestingTooDeep stmt line limit)) log' →
      limit = context.maxDepth ∧
      (∃ kept, context.pool.get? stmt = some kept ∧ kept.line = line) ∧
      ∃ around leg, context.Comes (context.firstLeg start body log) around leg ∧
        leg.ids.head? = some stmt ∧ around.length = context.maxDepth + 1 ∧
        (∀ outer ∈ around, context.rule? outer = some .branch ∨
          context.rule? outer = some .loop) ∧
        ∀ around' leg', context.Comes (context.firstLeg start body log) around' leg' →
          leg'.ids ≠ [] → leg' ≠ leg → around'.length ≤ context.maxDepth) ∧
    ∀ around leg stmt kept, start.next.index + 1 < BlockId.limit →
      context.Comes (context.firstLeg start body log) around leg →
      leg.ids.head? = some stmt → context.pool.get? stmt = some kept →
      around.length = context.maxDepth + 1 →
      context.build start body log =
        .error (.flow (.nestingTooDeep stmt kept.line context.maxDepth)) leg.log := by
  refine ⟨?_, ?_, ?_⟩
  · intro accepted
    obtain ⟨more, rfl⟩ := Nat.exists_eq_add_of_le higher
    rcases sameUnless_build context more start body log with ⟨_, log', failed, exceeds⟩ | same
    · obtain ⟨_, _, stmt, kept, _, _, _, _, rfl⟩ := exceeds
      exact absurd ⟨stmt, kept.line, context.maxDepth, log', failed⟩ accepted
    · exact same
  · intro stmt line limit log' failed
    obtain ⟨around, leg, _, kept, comes, none, first, found, same⟩ := exceeds_of_tooDeep failed
    cases same
    have levels := comes.levels
    rw [none, Nat.zero_add] at levels
    refine ⟨rfl, ⟨kept, found, rfl⟩, around, leg, comes, first, levels, comes.nested, ?_⟩
    intro around' leg' comes' waiting different
    have levels' := comes'.levels
    simp only [firstLeg] at levels'
    refine Nat.le_of_not_lt fun deep => ?_
    have spent : Spent leg := ⟨none, List.ne_nil_of_mem (List.mem_of_head? first)⟩
    have spent' : Spent leg' := ⟨by omega, waiting⟩
    exact different (comes'.unique spent' comes spent).2
  · intro around leg stmt kept room comes first found depth
    have levels := comes.levels
    simp only [firstLeg] at levels
    have none : leg.levels = 0 := by omega
    exact tooDeep_of_comes room comes none first found

/-- A branch in a loop, with a jump out of the loop in one of its arms. -/
def branchInLoop : Context where
  pool := { slots := #[⟨0, none⟩, ⟨1, some (.whileLoop 1 [⟨2, 1⟩])⟩,
    ⟨1, some (.ifElse 2 [⟨3, 1⟩] [⟨4, 1⟩])⟩, ⟨1, some (.simple .pass 3)⟩,
    ⟨1, some (.breakAt 4)⟩] }
  dialect := .python3
  maxDepth := 2

theorem nesting_limit_exact_branchInLoop :
    (∃ graph log, branchInLoop.build {} [⟨1, 1⟩] #[] = .ok graph log ∧
      { branchInLoop with maxDepth := 256 }.build {} [⟨1, 1⟩] #[] = .ok graph log) ∧
    ∃ around leg, { branchInLoop with maxDepth := 1 }.Comes
        ({ branchInLoop with maxDepth := 1 }.firstLeg {} [⟨1, 1⟩] #[]) around leg ∧
      leg.ids.head? = some ⟨3, 1⟩ ∧ around.length = 2 := by
  have accepted : Decided (branchInLoop.build {} [⟨1, 1⟩] #[]) none :=
    build_succeeds (by decide) (by decide) #[]
  have refused : Decided ({ branchInLoop with maxDepth := 1 }.build {} [⟨1, 1⟩] #[])
      (some (.nestingTooDeep ⟨3, 1⟩ 3 1)) := refusalOf?_eq_some.mp (by decide)
  constructor
  · obtain ⟨same, _⟩ := nesting_limit_exact branchInLoop {} [⟨1, 1⟩] #[]
      (show branchInLoop.maxDepth ≤ 256 by decide)
    obtain ⟨graph, log, success⟩ := accepted
    refine ⟨graph, log, success, (same ?_).trans success⟩
    rintro ⟨_, _, _, _, failed⟩
    cases success.symm.trans failed
  · obtain ⟨log, failed⟩ := refused
    obtain ⟨_, bites, _⟩ := nesting_limit_exact { branchInLoop with maxDepth := 1 } {} [⟨1, 1⟩] #[]
      (Nat.le_refl 1)
    obtain ⟨_, _, around, leg, comes, first, depth, _⟩ := bites _ _ _ _ failed
    exact ⟨around, leg, comes, first, depth⟩

end Build

end Context

end FlowGraph
