import FlowGraph.Build.Basic

/-! # Walks only add blocks

A walk that succeeds keeps the entry and every block of its graph and takes as many ids as it adds
blocks, so a build that succeeds ends with a higher next id than it began with. `next_lt_of_build`
says so; it is what ends the enumeration of the scopes of a module.
-/

namespace FlowGraph

/-- `after` has the entry of `before` and at least as many blocks, and an id was taken for each
    block that it has more. -/
structure Graph.Extends (before after : Graph) : Prop where
  entry_eq : after.entry = before.entry
  size_le : before.size ≤ after.size
  taken_eq : after.numbering.next.index + before.size = before.numbering.next.index + after.size

namespace Graph

/-- A new graph takes the next id for its entry, which must not be the last one. -/
theorem new_eq_ok {start : Numbering} {graph : Graph} (h : new start = .ok graph) :
    start.next.index + 1 < BlockId.limit ∧ graph.entry = start.next ∧
      graph.numbering.next.index = start.next.index + 1 ∧ graph.size = 1 := by
  obtain ⟨room, rfl⟩ := new_eq_grown h
  exact ⟨room, rfl, rfl, rfl⟩

section Extends

variable {first second third before after : Graph}

theorem Extends.refl (graph : Graph) : graph.Extends graph :=
  ⟨rfl, Nat.le_refl _, rfl⟩

theorem Extends.trans (h₁ : first.Extends second) (h₂ : second.Extends third) :
    first.Extends third := by
  refine ⟨h₂.entry_eq.trans h₁.entry_eq, Nat.le_trans h₁.size_le h₂.size_le, ?_⟩
  have taken₁ := h₁.taken_eq
  have taken₂ := h₂.taken_eq
  omega

theorem Extends.next_le (grown : before.Extends after) :
    before.numbering.next.index ≤ after.numbering.next.index := by
  have taken := grown.taken_eq
  have more := grown.size_le
  omega

/-- A graph never has more blocks than ids were taken. -/
theorem Extends.size_le_next (grown : before.Extends after)
    (taken : before.size ≤ before.numbering.next.index) :
    after.size ≤ after.numbering.next.index := by
  have taken_eq := grown.taken_eq
  omega

end Extends

theorem update_extends (graph : Graph) (id : BlockId) (change : Block → Block) :
    graph.Extends (graph.update id change) := by
  have size_eq : (graph.update id change).size = graph.size := by simp [update, size]
  exact ⟨rfl, Nat.le_of_eq size_eq.symm, congrArg _ size_eq.symm⟩

theorem place_extends (graph : Graph) (stmt : StmtId) (id : BlockId) :
    graph.Extends (graph.place stmt id) :=
  ⟨rfl, Nat.le_refl _, rfl⟩

theorem extends_of_create {graph after : Graph} {id : BlockId}
    (h : graph.create = .ok (id, after)) : graph.Extends after := by
  obtain ⟨_, _, rfl⟩ := create_eq_ok h
  have size_eq : graph.grown.size = graph.size + 1 := Array.size_push _
  refine ⟨rfl, Nat.le.intro size_eq.symm, ?_⟩
  rw [size_eq, ← Nat.add_assoc]
  exact Nat.add_right_comm _ _ _

theorem extends_of_link {graph after : Graph} {source target : BlockId}
    (h : graph.link source target = .ok after) : graph.Extends after := by
  unfold link at h
  split at h
  · split at h
    · cases h
    · split at h <;> cases h
      exact (update_extends ..).trans (update_extends ..)
  · cases h

theorem extends_of_append {graph after : Graph} {id : BlockId} {stmt : StmtId}
    (h : graph.append id stmt = .ok after) : graph.Extends after := by
  unfold append at h
  split at h
  · cases h
  · split at h <;> cases h
    exact (place_extends ..).trans (update_extends ..)

theorem extends_of_markTerminal {graph after : Graph} {id : BlockId}
    (h : graph.markTerminal id = .ok after) : graph.Extends after := by
  unfold markTerminal at h
  split at h <;> cases h
  exact update_extends ..

end Graph

/-- A walk that keeps the entry and the blocks of its graph whenever it succeeds. -/
def WalkM.Grows {α : Type} (walk : WalkM α) : Prop :=
  ∀ ⦃state log value after log'⦄, walk state log = .ok (value, after) log' →
    state.graph.Extends after.graph

namespace WalkM

variable {α β : Type}

theorem grows_pure (value : α) : Grows (pure value) := by
  intro state log value' after log' h
  cases h
  exact .refl _

theorem grows_bind {walk : WalkM α} {next : α → WalkM β} (hw : walk.Grows)
    (hn : ∀ value, (next value).Grows) : (walk >>= next).Grows := by
  intro state log value after log' h
  obtain ⟨mid, state₁, log₁, hm, h⟩ := bind_eq_ok.mp h
  exact (hw hm).trans (hn mid h)

theorem grows_refuse (error : FlowError) : Grows (refuse error : WalkM α) := by
  intro state log value after log' h
  cases h

theorem grows_record (event : Event) : (record event).Grows := by
  intro state log value after log' h
  cases h
  exact .refl _

theorem grows_change {operation : Graph → Except GraphFault Graph}
    (ho : ∀ graph after, operation graph = .ok after → graph.Extends after) :
    (change operation).Grows := by
  intro state log value after log' h
  obtain ⟨result, mid, hr, h⟩ := BuildM.bind_eq_ok.mp h
  cases h
  exact ho _ _ (BuildM.ofGraph_eq_ok.mp hr).1

theorem grows_create : create.Grows := by
  intro state log value after log' h
  obtain ⟨⟨id, graph⟩, mid, hr, h⟩ := BuildM.bind_eq_ok.mp h
  cases h
  exact Graph.extends_of_create (BuildM.ofGraph_eq_ok.mp hr).1

theorem grows_link (source target : BlockId) : (link source target).Grows :=
  grows_change fun _ _ h => Graph.extends_of_link h

theorem grows_append (id : BlockId) (stmt : StmtId) : (append id stmt).Grows :=
  grows_change fun _ _ h => Graph.extends_of_append h

theorem grows_markTerminal (id : BlockId) : (markTerminal id).Grows :=
  grows_change fun _ _ h => Graph.extends_of_markTerminal h

theorem grows_defer (stmt : StmtId) : (defer stmt).Grows :=
  grows_change fun graph after h => by
    cases h
    exact ⟨rfl, Nat.le_refl _, rfl⟩

theorem grows_block (id : BlockId) : (block id).Grows := by
  intro state log value after log' h
  obtain ⟨result, mid, _, h⟩ := BuildM.bind_eq_ok.mp h
  cases h
  exact .refl _

theorem grows_innermost : innermost.Grows := by
  intro state log value after log' h
  cases h
  exact .refl _

theorem grows_enterLoop (frame : LoopFrame) : (enterLoop frame).Grows := by
  intro state log value after log' h
  cases h
  exact .refl _

theorem grows_leaveLoop : leaveLoop.Grows := by
  intro state log value after log' h
  cases h
  exact .refl _

theorem grows_foldlM {step : β → α → WalkM β} (hs : ∀ state item, (step state item).Grows)
    (items : List α) (state : β) : (items.foldlM step state).Grows := by
  induction items generalizing state with
  | nil => exact grows_pure state
  | cons item items ih =>
      rw [List.foldlM_cons]
      exact grows_bind (hs state item) ih

end WalkM

namespace Context

open WalkM

theorem grows_afterJump (jump : Jump) (cursor : BlockId) : (afterJump jump cursor).Grows :=
  grows_bind grows_create fun _ => grows_bind (grows_record _) fun _ => grows_pure _

theorem grows_walkPlain (cursor : BlockId) (id : StmtId) : (walkPlain cursor id).Grows :=
  grows_bind (grows_append ..) fun _ => grows_pure _

theorem grows_walkDefinition (cursor : BlockId) (id : StmtId) (stmt : Stmt) :
    (walkDefinition cursor id stmt).Grows :=
  grows_bind (grows_append ..) fun _ => grows_bind (grows_defer _) fun _ =>
    grows_bind (grows_record _) fun _ => grows_pure _

theorem grows_walkReturn (cursor : BlockId) (id : StmtId) : (walkReturn cursor id).Grows :=
  grows_bind (grows_append ..) fun _ => grows_bind (grows_markTerminal _) fun _ =>
    grows_afterJump ..

theorem grows_walkBreak (cursor : BlockId) (id : StmtId) (stmt : Stmt) :
    (walkBreak cursor id stmt).Grows := by
  refine grows_bind grows_innermost fun frame => ?_
  cases frame with
  | none => exact grows_refuse _
  | some frame =>
      exact grows_bind (grows_append ..) fun _ => grows_bind (grows_link ..) fun _ =>
        grows_afterJump ..

theorem grows_walkContinue (cursor : BlockId) (id : StmtId) (stmt : Stmt) :
    (walkContinue cursor id stmt).Grows := by
  refine grows_bind grows_innermost fun frame => ?_
  cases frame with
  | none => exact grows_refuse _
  | some frame =>
      exact grows_bind (grows_append ..) fun _ => grows_bind (grows_link ..) fun _ =>
        grows_afterJump ..

theorem grows_walkBranch (context : Context) {walk : BlockId → List StmtId → WalkM BlockId}
    (hw : ∀ entry ids, (walk entry ids).Grows) (guard : BlockId) (id : StmtId) (stmt : Stmt) :
    (context.walkBranch walk guard id stmt).Grows := by
  unfold walkBranch
  split
  · exact grows_refuse _
  · exact grows_bind (grows_append ..) fun _ => grows_bind grows_create fun _ =>
      grows_bind grows_create fun _ => grows_bind (grows_record _) fun _ =>
      grows_bind (grows_link ..) fun _ => grows_bind (grows_link ..) fun _ =>
      grows_bind (hw ..) fun _ => grows_bind (hw ..) fun _ =>
      grows_bind grows_create fun _ => grows_bind (grows_record _) fun _ =>
      grows_bind (grows_link ..) fun _ => grows_bind (grows_link ..) fun _ => grows_pure _

theorem grows_walkLoop (context : Context) {walk : BlockId → List StmtId → WalkM BlockId}
    (hw : ∀ entry ids, (walk entry ids).Grows) (header : BlockId) (id : StmtId) (stmt : Stmt) :
    (context.walkLoop walk header id stmt).Grows := by
  unfold walkLoop
  split
  · exact grows_refuse _
  · split
    · exact grows_refuse _
    · refine grows_bind (grows_append ..) fun _ => grows_bind grows_create fun _ =>
        grows_bind grows_create fun _ => grows_bind (grows_record _) fun _ =>
        grows_bind (grows_link ..) fun _ => grows_bind (grows_link ..) fun _ =>
        grows_bind (grows_enterLoop _) fun _ => grows_bind (hw ..) fun _ =>
        grows_bind grows_leaveLoop fun _ => grows_bind (grows_block _) fun last => ?_
      split
      · exact grows_bind (grows_link ..) fun _ => grows_bind (grows_link ..) fun _ => grows_pure _
      · exact grows_pure _

theorem grows_visit (context : Context) {walk : BlockId → List StmtId → WalkM BlockId}
    (hw : ∀ entry ids, (walk entry ids).Grows) (cursor : BlockId) (id : StmtId) (stmt : Stmt) :
    (context.visit walk cursor id stmt).Grows := by
  unfold visit
  split
  · exact grows_refuse _
  · refine grows_bind (grows_record _) fun _ => ?_
    split
    · exact grows_walkPlain ..
    · exact grows_walkDefinition ..
    · exact grows_walkBranch _ hw ..
    · exact grows_walkLoop _ hw ..
    · exact grows_walkReturn ..
    · exact grows_walkBreak ..
    · exact grows_walkContinue ..
    · exact grows_refuse _

theorem grows_walkStmt (context : Context) (levels : Nat) (cursor : BlockId) (id : StmtId) :
    (context.walkStmt levels cursor id).Grows := by
  induction levels generalizing cursor id with
  | zero =>
      cases h : context.pool.get? id with
      | none => exact walkStmt_of_missing h .. ▸ grows_refuse _
      | some stmt => exact walkStmt_zero h .. ▸ grows_refuse _
  | succ levels ih =>
      cases h : context.pool.get? id with
      | none => exact walkStmt_of_missing h .. ▸ grows_refuse _
      | some stmt =>
          rw [walkStmt_succ h]
          exact grows_visit _ (fun entry ids => grows_foldlM ih ids entry) ..

theorem grows_walkSeq (context : Context) (levels : Nat) (cursor : BlockId) (ids : List StmtId) :
    (context.walkSeq levels cursor ids).Grows :=
  grows_foldlM (context.grows_walkStmt levels) ids cursor

/-- A build that succeeds had an id to begin with and uses up at least that one. -/
theorem next_lt_of_build {context : Context} {start : Numbering} {body : List StmtId}
    {graph : Graph} {log log' : Log} (h : context.build start body log = .ok graph log') :
    start.next.index + 1 < BlockId.limit ∧ start.next.index < graph.numbering.next.index := by
  obtain ⟨⟨last, result⟩, logEnd, hb, h⟩ := BuildM.bind_eq_ok.mp h
  cases h
  obtain ⟨first, logNew, hn, hb⟩ := BuildM.bind_eq_ok.mp hb
  obtain ⟨_, logEntered, _, hb⟩ := BuildM.bind_eq_ok.mp hb
  obtain ⟨⟨_, state⟩, logWalked, hw, hb⟩ := BuildM.bind_eq_ok.mp hb
  obtain ⟨_, logChecked, _, hb⟩ := BuildM.bind_eq_ok.mp hb
  cases hb
  obtain ⟨room, _, next_eq, _⟩ := Graph.new_eq_ok (BuildM.ofGraph_eq_ok.mp hn).1
  have grown : first.numbering.next.index ≤ state.graph.numbering.next.index :=
    (context.grows_walkSeq _ _ _ hw).next_le
  refine ⟨room, ?_⟩
  change start.next.index < state.graph.numbering.next.index
  omega

end Context

end FlowGraph
