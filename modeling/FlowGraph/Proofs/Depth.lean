import Mathlib.Algebra.Group.Nat.Defs
import FlowGraph.Proofs.Acyclic
import FlowGraph.Proofs.Cursor

/-! # The depth of a walk

Before a walk goes into a branch or a loop it has opened two blocks for it. So where it is at
some depth, its graph has more than twice as many blocks, and the block ids end before the depth
comes near the largest number of a machine word. A counter in such a word never overflows, and a
limit that is not below this bound never stops a build: what is nested deeper ends a build for
another reason, or uses up the ids.
-/

namespace FlowGraph

variable {context : Context} {cursor : BlockId} {id : StmtId} {state after : WalkState}
  {log log' : Log}

/-- `after` has at least two blocks more than `before`, and the ids for them were there. -/
structure Graph.Widens (before after : Graph) : Prop where
  grown : before.Extends after
  size_le : before.size + 2 ≤ after.size
  room : before.numbering.next.index + 2 < BlockId.limit

theorem Graph.Widens.trans {first second third : Graph} (wider : first.Widens second)
    (grown : second.Extends third) : first.Widens third :=
  ⟨wider.grown.trans grown, Nat.le_trans wider.size_le grown.size_le, wider.room⟩

namespace WalkM

theorem size_of_create {made : BlockId} (success : create state log = .ok (made, after) log') :
    after.graph.size = state.graph.size + 1 ∧
      state.graph.numbering.next.index + 1 < BlockId.limit := by
  obtain ⟨⟨_, graph⟩, _, created, returned⟩ := BuildM.bind_eq_ok.mp success
  cases returned
  obtain ⟨room, _, rfl⟩ := Graph.create_eq_ok (BuildM.ofGraph_eq_ok.mp created).1
  exact ⟨Array.size_push _, room⟩

theorem widens_of_fork {event : BlockId → BlockId → Event} {entries : BlockId × BlockId}
    (success : fork cursor id event state log = .ok (entries, after) log') :
    state.graph.Widens after.graph := by
  obtain ⟨_, s₁, l₁, appended, success⟩ := bind_eq_ok.mp success
  obtain ⟨left, s₂, l₂, first, success⟩ := bind_eq_ok.mp success
  obtain ⟨right, s₃, l₃, second, success⟩ := bind_eq_ok.mp success
  have linked : s₃.graph.Extends after.graph := by
    refine grows_bind (grows_record _) (fun _ => ?_) success
    exact grows_bind (grows_link ..) fun _ => grows_bind (grows_link ..) fun _ => grows_pure _
  have first' := (grows_append cursor id appended).trans (grows_create first)
  have before := (grows_append cursor id appended).size_le
  have behind := linked.size_le
  have taken := first'.taken_eq
  obtain ⟨size₂, _⟩ := size_of_create first
  obtain ⟨size₃, room⟩ := size_of_create second
  exact ⟨(first'.trans (grows_create second)).trans linked, by omega, by omega⟩

end WalkM

namespace Context

open WalkM

/-- Some statement stands inside so many branches and loops of a sequence. -/
inductive StandsAt (context : Context) : Nat → List StmtId → Prop where
  | here {id ids} : id ∈ ids → StandsAt context 0 ids
  | inside {depth outer clause ids} : outer ∈ ids → context.Opens outer clause →
      StandsAt context depth clause → StandsAt context (depth + 1) ids

variable {levels depth largest : Nat} {stmt : Stmt} {ids : List StmtId}
  {leg inner final : Leg} {way : Way} {around : List StmtId}
  {overflow : BlockId → List StmtId → WalkM BlockId}

section Legs

theorem Leads.widens (leads : context.Leads way leg inner) (inside : way ≠ .onward) :
    leg.state.graph.Widens inner.state.graph := by
  cases leads with
  | onward => exact absurd rfl inside
  | body _ forking => exact widens_of_fork forking
  | turn _ forking =>
      have forked := widens_of_fork forking
      exact ⟨forked.grown, forked.size_le, forked.room⟩
  | orelse _ forking walked =>
      exact (widens_of_fork forking).trans (context.grows_walkSeq _ _ _ walked)

/-- Each branch and loop around a leg has used up two block ids. -/
theorem Comes.depth_lt (comes : context.Comes leg around final)
    (taken : leg.state.graph.size ≤ leg.state.graph.numbering.next.index)
    (wide : 1 + 2 * depth ≤ leg.state.graph.size) (low : depth < 2 ^ 31) :
    1 + 2 * (depth + around.length) ≤ final.state.graph.size ∧
      depth + around.length < 2 ^ 31 := by
  induction comes generalizing depth with
  | here => exact ⟨wide, low⟩
  | onward leads _ ih =>
      cases leads with
      | onward walked =>
          have grown := context.grows_walkStmt _ _ _ walked
          exact ih (grown.size_le_next taken) (Nat.le_trans wide grown.size_le) low
  | inside notOnward _ _ leads _ ih =>
      obtain ⟨grown, more, room⟩ := leads.widens notOnward
      unfold BlockId.limit at room
      rw [List.length_cons, Nat.add_comm _ 1, ← Nat.add_assoc]
      exact ih (grown.size_le_next taken) (by omega) (by omega)

end Legs

/-- The walk of a statement that counts how deep it is in numbers up to a largest one. What it
    does where it would have to count beyond that is left open. -/
def walkCounted (context : Context) (largest : Nat)
    (overflow : BlockId → List StmtId → WalkM BlockId) (depth : Nat) (cursor : BlockId)
    (id : StmtId) : WalkM BlockId :=
  match context.pool.get? id with
  | none => .refuse (.missingStatement id)
  | some stmt =>
      if context.maxDepth < depth then
        .refuse (.nestingTooDeep id stmt.line context.maxDepth)
      else
        let below (entry : BlockId) (ids : List StmtId) : WalkM BlockId :=
          if _room : depth < largest then
            ids.foldlM (context.walkCounted largest overflow (depth + 1)) entry
          else overflow entry ids
        context.visit below cursor id stmt
termination_by largest - depth

/-- The build whose walk counts how deep it is in numbers up to a largest one. -/
def buildCounted (context : Context) (largest : Nat)
    (overflow : BlockId → List StmtId → WalkM BlockId) (start : Numbering) (body : List StmtId) :
    BuildM Graph := do
  let graph ← BuildM.ofGraph (Graph.new start)
  BuildM.record (.entered graph.entry context.dialect.name)
  let (_, state) ← body.foldlM (context.walkCounted largest overflow 0) graph.entry { graph }
  BuildM.ofGraph state.check
  return state.graph

theorem visit_congr {walk walk' : BlockId → List StmtId → WalkM BlockId}
    (grows : ∀ entry ids, (walk entry ids).Grows)
    (same : ∀ entry ids after mid, state.graph.Widens after.graph →
      walk entry ids after mid = walk' entry ids after mid) :
    context.visit walk cursor id stmt state log = context.visit walk' cursor id stmt state log := by
  unfold visit
  cases context.dialect.ruleOf? stmt with
  | none => rfl
  | some rule =>
      refine WalkM.bind_congr rfl ?_
      rintro _ _ _ ⟨⟩
      cases rule with
      | sequential | deferred | returns | breaks | continues | unsupported => rfl
      | branch =>
          simp only [walkBranch_eq]
          split
          · rfl
          refine WalkM.bind_congr rfl fun entries forked mid forking => ?_
          have wide := widens_of_fork forking
          refine WalkM.bind_congr (same _ _ _ _ wide) fun left after mid walked => ?_
          -- the first arm has taken no block away from the second one
          have wide' := wide.trans (grows _ _ walked)
          exact WalkM.bind_congr (same _ _ _ _ wide') fun _ _ _ _ => rfl
      | loop =>
          simp only [walkLoop_eq]
          split
          · rfl
          split
          · rfl
          refine WalkM.bind_congr rfl fun entries forked mid forking => ?_
          have wide := widens_of_fork forking
          refine WalkM.bind_congr rfl ?_
          rintro _ _ _ ⟨⟩
          refine WalkM.bind_congr (same _ _ _ _ ?_) fun _ _ _ _ => rfl
          exact ⟨wide.grown, wide.size_le, wide.room⟩

section Counted

theorem foldlM_walkCounted_eq
    (alike : ∀ cursor id state log, state.graph.size ≤ state.graph.numbering.next.index →
      1 + 2 * depth ≤ state.graph.size →
      context.walkCounted largest overflow depth cursor id state log =
        context.walkStmt levels cursor id state log)
    (taken : state.graph.size ≤ state.graph.numbering.next.index)
    (known : 1 + 2 * depth ≤ state.graph.size) :
    ids.foldlM (context.walkCounted largest overflow depth) cursor state log =
      context.walkSeq levels cursor ids state log := by
  induction ids generalizing cursor state log with
  | nil => rfl
  | cons id ids ih =>
      rw [walkSeq, List.foldlM_cons, List.foldlM_cons]
      refine WalkM.bind_congr (alike _ _ _ _ taken known) fun next after mid walked => ?_
      rw [alike _ _ _ _ taken known] at walked
      have grown := context.grows_walkStmt _ _ _ walked
      exact ih (grown.size_le_next taken) (Nat.le_trans known grown.size_le)

/-- In a graph with blocks enough for its depth a walk never counts beyond the largest number. -/
theorem walkCounted_eq (wide : 2 ^ 31 ≤ largest + 1) (left : depth + levels = context.maxDepth + 1)
    (taken : state.graph.size ≤ state.graph.numbering.next.index)
    (known : 1 + 2 * depth ≤ state.graph.size) :
    context.walkCounted largest overflow depth cursor id state log =
      context.walkStmt levels cursor id state log := by
  induction levels generalizing depth cursor id state log with
  | zero =>
      rw [walkCounted]
      cases kept : context.pool.get? id with
      | none => rw [walkStmt_of_missing kept]
      | some stmt =>
          have deep : context.maxDepth < depth := by omega
          simp only [walkStmt_zero kept, if_pos deep]
  | succ levels ih =>
      rw [walkCounted]
      cases kept : context.pool.get? id with
      | none => rw [walkStmt_of_missing kept]
      | some stmt =>
          have shallow : ¬ context.maxDepth < depth := by omega
          simp only [walkStmt_succ kept, if_neg shallow]
          refine (visit_congr (fun entry ids => context.grows_walkSeq levels entry ids) ?_).symm
          intro entry ids after mid wider
          obtain ⟨grown, more, room⟩ := wider
          unfold BlockId.limit at room
          -- two block ids were left, so the depth is below half of them
          have counts : depth < largest := by omega
          rw [dif_pos counts]
          refine (foldlM_walkCounted_eq (fun _ _ _ _ taken' known' => ?_)
            (grown.size_le_next taken) (by omega)).symm
          exact ih (by omega) taken' known'

theorem buildCounted_eq (context : Context) (wide : 2 ^ 31 ≤ largest + 1)
    (overflow : BlockId → List StmtId → WalkM BlockId) (start : Numbering) (body : List StmtId)
    (log : Log) :
    context.buildCounted largest overflow start body log = context.build start body log := by
  simp only [buildCounted, build, buildToEnd, buildInto, bind_assoc, pure_bind]
  refine BuildM.bind_congr rfl fun graph mid made => ?_
  obtain ⟨_, _, next_eq, size_eq⟩ := Graph.new_eq_ok (BuildM.ofGraph_eq_ok.mp made).1
  refine BuildM.bind_congr rfl fun _ _ _ => ?_
  refine BuildM.bind_congr (foldlM_walkCounted_eq (fun _ _ _ _ taken known => ?_) ?_
    (Nat.le_of_eq size_eq.symm)) fun _ _ _ => rfl
  · exact walkCounted_eq wide (Nat.zero_add _) taken known
  · rw [size_eq, next_eq]
    exact Nat.le_add_left 1 _

end Counted

section Nested

variable {clause : List StmtId} {outer : StmtId} {last : BlockId}

/-- A walk of a sequence that goes through comes to each of its statements, and goes through from
    there on. -/
theorem exists_leg_of_mem (ends : context.Ends leg last) (member : id ∈ leg.ids) :
    ∃ behind, behind.ids.head? = some id ∧ context.Ends behind last ∧
      ∀ around final, context.Comes behind around final → context.Comes leg around final := by
  generalize ids_eq : leg.ids = ids at member
  induction ids generalizing leg with
  | nil => cases member
  | cons first rest ih =>
      have head : leg.ids.head? = some first := by rw [ids_eq]; rfl
      rcases List.mem_cons.mp member with rfl | behind
      · exact ⟨leg, head, ends, fun _ _ comes => comes⟩
      · obtain ⟨next, leads, ends'⟩ := exists_onward ends head
        have ids_eq' : next.ids = rest := by
          cases leads
          exact (List.cons.inj ids_eq).2
        obtain ⟨found, here, ends'', comes⟩ := ih ends' ids_eq' behind
        exact ⟨found, here, ends'', fun around final later =>
          .onward leads (comes around final later)⟩

theorem enters_of_walkStmt {cursor : BlockId}
    (treats : context.Treats id stmt .branch ∨ context.Treats id stmt .loop)
    (ok : context.walkStmt (levels + 1) cursor id state log = .ok (last, after) log') :
    context.Enters id := by
  rcases treats with treats | treats
  · rw [walkStmt_succ treats.kept, visit, treats.treated] at ok
    obtain ⟨_, _, _, ⟨⟩, ok⟩ := bind_eq_ok.mp ok
    simp only [walkBranch] at ok
    split at ok
    · cases ok
    · rename_i plain
      exact .branch treats (Bool.eq_false_iff.mpr plain)
  · rw [walkStmt_succ treats.kept, visit, treats.treated] at ok
    obtain ⟨_, _, _, ⟨⟩, ok⟩ := bind_eq_ok.mp ok
    simp only [walkLoop] at ok
    split at ok
    · cases ok
    rename_i elseless
    split at ok
    · cases ok
    · rename_i plain
      exact .loop treats (by simpa using elseless) (Bool.eq_false_iff.mpr plain)

theorem exists_inner_of_opens (ends : context.Ends leg last) (first : leg.ids.head? = some outer)
    (opens : context.Opens outer clause) :
    ∃ way inner last', way ≠ .onward ∧ context.Enters outer ∧ context.Leads way leg inner ∧
      inner.ids = clause ∧ context.Ends inner last' := by
  obtain ⟨loop, levels, cursor, ids, state, log⟩ := leg
  obtain ⟨_, _, walked⟩ := ends
  cases ids with
  | nil => cases first
  | cons _ rest =>
      cases first
      obtain ⟨mid, s₁, l₁, step, _⟩ := walkSeq_cons_eq_ok.mp walked
      obtain ⟨levels, _, _, rfl, _⟩ := exists_treats_of_walkStmt step
      obtain ⟨stmt, ⟨treats, rfl | rfl⟩ | ⟨treats, rfl⟩⟩ := opens
      · obtain ⟨_, _, _, left, _, _, _, _, _, forking, walkBody, _⟩ :=
          parts_of_walkStmt_branch treats step
        exact ⟨_, _, left, by decide, enters_of_walkStmt (.inl treats) step,
          .body treats forking, rfl, _, _, walkBody⟩
      · obtain ⟨_, _, _, _, _, _, right, _, _, forking, walkBody, walkOrelse, _⟩ :=
          parts_of_walkStmt_branch treats step
        exact ⟨_, _, right, by decide, enters_of_walkStmt (.inl treats) step,
          .orelse treats forking walkBody, rfl, _, _, walkOrelse⟩
      · obtain ⟨_, _, _, bodyEnd, _, _, forking, walkBody, _⟩ := parts_of_walkStmt_loop treats step
        exact ⟨_, _, bodyEnd, by decide, enters_of_walkStmt (.inr treats) step,
          .turn treats forking, rfl, _, _, walkBody⟩

theorem StandsAt.exists_comes {depth : Nat} (stands : context.StandsAt depth ids)
    (ends : context.Ends leg last) (ids_eq : leg.ids = ids) :
    ∃ around final, context.Comes leg around final ∧ around.length = depth := by
  induction stands generalizing leg last with
  | here => exact ⟨[], leg, .here, rfl⟩
  | inside member opens _ ih =>
      obtain ⟨behind, first, ends', comes⟩ := exists_leg_of_mem ends (ids_eq ▸ member)
      obtain ⟨way, inner, _, notOnward, enters, leads, ids_eq', ends''⟩ :=
        exists_inner_of_opens ends' first opens
      obtain ⟨around, final, further, length_eq⟩ := ih ends'' ids_eq'
      exact ⟨_, final, comes _ _ (.inside notOnward first enters leads further),
        congrArg (· + 1) length_eq⟩

end Nested

section Build

variable {start : Numbering} {body : List StmtId}

theorem Comes.depth_lt_of_first
    (comes : context.Comes (context.firstLeg start body log) around leg) :
    1 + 2 * around.length ≤ leg.state.graph.size ∧ around.length < 2 ^ 31 := by
  have bounds : _ ≤ _ ∧ 0 + around.length < 2 ^ 31 :=
    comes.depth_lt (Nat.le_add_left 1 _) (Nat.le_refl 1) (by decide)
  rwa [Nat.zero_add] at bounds

theorem not_tooDeep_of_limit (high : 2 ^ 31 ≤ context.maxDepth) :
    ¬ TooDeep (context.build start body log) := by
  rintro ⟨stmt, line, limit, log', failed⟩
  obtain ⟨around, final, _, _, comes, none, _⟩ := exceeds_of_tooDeep failed
  have levels_eq : final.levels + around.length = context.maxDepth + 1 := comes.levels
  have low := comes.depth_lt_of_first.2
  omega

theorem StandsAt.not_ok {graph : Graph} (stands : context.StandsAt depth body)
    (deep : 2 ^ 31 ≤ depth) : context.build start body log ≠ .ok graph log' := by
  intro success
  obtain ⟨last, walked, _⟩ := walkSeq_of_build success
  have ends : context.Ends (context.firstLeg start body log) last := ⟨_, _, walked⟩
  obtain ⟨around, final, comes, length_eq⟩ := stands.exists_comes ends rfl
  have low := comes.depth_lt_of_first.2
  omega

/-- Where a walk comes to at some depth, its graph has more than twice as many blocks, so the
    depth is below half of the block ids. A counter in a word of 32 bits or more counts it without
    overflow. Under a limit beyond that no build is stopped for its depth, and a body in which
    something is nested deeper runs out of block ids or is refused for something else. -/
theorem depth_fits_word (context : Context) (start : Numbering) (body : List StmtId) (log : Log) :
    (∀ around leg, context.Comes (context.firstLeg start body log) around leg →
      context.walkStmt leg.levels = context.walkAt around.length ∧
        1 + 2 * around.length ≤ leg.state.graph.size ∧ around.length < 2 ^ 31) ∧
    (∀ bits overflow, 32 ≤ bits →
      context.buildCounted (2 ^ bits - 1) overflow start body log =
        context.build start body log) ∧
    (2 ^ 31 ≤ context.maxDepth → ¬ TooDeep (context.build start body log) ∧
      ∀ depth, 2 ^ 31 ≤ depth → context.StandsAt depth body →
        RanOut (context.build start body log) ∨
          ∃ error log', context.build start body log = .error (.flow error) log') := by
  refine ⟨?_, ?_, ?_⟩
  · intro around leg comes
    have levels_eq : leg.levels + around.length = context.maxDepth + 1 := comes.levels
    refine ⟨?_, comes.depth_lt_of_first⟩
    rw [walkAt_eq]
    congr 1
    omega
  · intro bits overflow word
    have large : 2 ^ 32 ≤ 2 ^ bits := Nat.pow_le_pow_right (by decide) word
    exact buildCounted_eq context (by omega) overflow start body log
  · intro high
    refine ⟨not_tooDeep_of_limit high, ?_⟩
    intro depth deep stands
    rcases settled_build context start body log with ⟨graph, log', success⟩ | refused | ran
    · exact absurd success (stands.not_ok deep)
    · exact .inr refused
    · exact .inl ran

/-- A loop whose body is the loop itself, under the highest limit of a word of 64 bits. -/
def loopOfItself : Context where
  pool := { slots := #[⟨0, none⟩, ⟨1, some (.whileLoop 1 [⟨1, 1⟩])⟩] }
  dialect := .python3
  maxDepth := 2 ^ 64 - 1

theorem depth_fits_word_loopOfItself :
    (∃ leg, loopOfItself.Comes (loopOfItself.firstLeg {} [⟨1, 1⟩] #[]) [⟨1, 1⟩] leg ∧
      3 ≤ leg.state.graph.size) ∧
    loopOfItself.buildCounted (2 ^ 64 - 1) (fun _ _ => .refuse (.missingStatement ⟨1, 1⟩)) {}
      [⟨1, 1⟩] #[] = loopOfItself.build {} [⟨1, 1⟩] #[] ∧
    ¬ TooDeep (loopOfItself.build {} [⟨1, 1⟩] #[]) ∧
      (RanOut (loopOfItself.build {} [⟨1, 1⟩] #[]) ∨
        ∃ error log, loopOfItself.build {} [⟨1, 1⟩] #[] = .error (.flow error) log) := by
  have treats : loopOfItself.Treats ⟨1, 1⟩ (.whileLoop 1 [⟨1, 1⟩]) .loop := ⟨rfl, rfl⟩
  have stands : ∀ depth, loopOfItself.StandsAt depth [⟨1, 1⟩] := by
    intro depth
    induction depth with
    | zero => exact .here List.mem_cons_self
    | succ depth ih => exact .inside List.mem_cons_self ⟨_, .inr ⟨treats, rfl⟩⟩ ih
  have turns : loopOfItself.Leads .turn (loopOfItself.firstLeg {} [⟨1, 1⟩] #[]) _ :=
    .turn treats rfl
  have comes := Comes.inside (by decide) rfl (.loop treats rfl rfl) turns .here
  obtain ⟨within, counted, high⟩ := depth_fits_word loopOfItself {} [⟨1, 1⟩] #[]
  obtain ⟨notTooDeep, ends⟩ := high (by decide)
  exact ⟨⟨_, comes, (within _ _ comes).2.1⟩, counted 64 _ (by decide), notTooDeep,
    ends (2 ^ 31) (Nat.le_refl _) (stands _)⟩

end Build

end Context

end FlowGraph
