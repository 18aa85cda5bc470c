import FlowGraph.Proofs.Visible

/-! # What a build sees of the dialect

A table says of a kind what the last edit of the kind left, and otherwise what the dialect
says from which the table was taken. A build asks a dialect for the rules of kinds and puts
its name into errors and the log. So two dialects with the same rules give the same graphs,
and errors that differ in the name of the dialect only.
-/

namespace FlowGraph

namespace RuleTable

variable {table : RuleTable} {kind : StmtKind}

/-- A table begins with the rules from which it is taken. -/
theorem rule_derivedFrom (rules : StmtKind → Option Rule) (name : String) (kind : StmtKind) :
    (derivedFrom rules name).rule kind = rules kind := by
  have keyed : ∀ kind entry, (rules kind).map (kind, ·) = some entry → entry.1 = kind := by
    intro kind entry same
    obtain ⟨rule, _, rfl⟩ := Option.map_eq_some_iff.mp same
    rfl
  cases given : rules kind with
  | some rule =>
      have listed : (kind, rule) ∈
          StmtKind.all.filterMap fun kind => (rules kind).map (kind, ·) := by
        apply List.mem_filterMap.mpr
        exact ⟨kind, kind.mem_all, by rw [given]; rfl⟩
      apply Std.ExtHashMap.getElem?_ofList_of_mem BEq.rfl ?_ listed
      have distinct : StmtKind.all.Nodup := by decide
      rw [List.pairwise_filterMap]
      apply distinct.imp
      intro left right different entry ofLeft entry' ofRight
      rw [keyed left entry ofLeft, keyed right entry' ofRight]
      exact beq_false_of_ne different
  | none =>
      apply Std.ExtHashMap.getElem?_ofList_of_contains_eq_false
      rw [Bool.eq_false_iff, ne_eq, List.contains_iff_mem, List.mem_map]
      intro found
      obtain ⟨entry, listed, same⟩ := found
      obtain ⟨other, _, ofOther⟩ := List.mem_filterMap.mp listed
      obtain rfl : kind = other := same.symm.trans (keyed other entry ofOther)
      rw [given] at ofOther
      cases ofOther

@[simp] theorem name_editAll (table : RuleTable) (edits : List Edit) :
    (table.editAll edits).name = table.name := by
  induction edits generalizing table with
  | nil => rfl
  | cons edit edits ih => exact (ih (table.edit edit)).trans (name_edit table edit)

theorem editAll_append (table : RuleTable) (before behind : List Edit) :
    table.editAll (before ++ behind) = (table.editAll before).editAll behind :=
  List.foldl_append

/-- Edits of other kinds leave what a table says of a kind. -/
theorem rule_editAll_of_ne {edits : List Edit} (others : ∀ edit ∈ edits, edit.kind ≠ kind) :
    (table.editAll edits).rule kind = table.rule kind := by
  induction edits generalizing table with
  | nil => rfl
  | cons edit edits ih =>
      calc ((table.edit edit).editAll edits).rule kind
        _ = (table.edit edit).rule kind :=
          ih fun later member => others later (List.mem_cons_of_mem edit member)
        _ = table.rule kind := by
          rw [rule_edit, if_neg (others edit List.mem_cons_self)]

/-- Of a kind, a table says what the last edit of the kind says. -/
theorem rule_editAll_of_last (before : List Edit) {edit : Edit} {behind : List Edit}
    (named : edit.kind = kind) (others : ∀ later ∈ behind, later.kind ≠ kind) :
    (table.editAll (before ++ edit :: behind)).rule kind = edit.rule? := by
  rw [editAll_append]
  calc (((table.editAll before).edit edit).editAll behind).rule kind
    _ = ((table.editAll before).edit edit).rule kind := rule_editAll_of_ne others
    _ = edit.rule? := by rw [rule_edit, if_pos named]

theorem eq_iff {left right : RuleTable} :
    left = right ↔ left.name = right.name ∧ ∀ kind, left.rule kind = right.rule kind := by
  constructor
  · intro same
    rw [same]
    exact ⟨rfl, fun _ => rfl⟩
  · intro alike
    exact ext_rule alike.1 alike.2

end RuleTable

/-- The error, said by a dialect of the given name. -/
def FlowError.inDialect (dialect : String) : FlowError → FlowError
  | unsupportedConstruct construct _ stmt line => unsupportedConstruct construct dialect stmt line
  | error => error

/-- The second error is the first one, said by a dialect of the given name. -/
def FlowError.SaidBy (dialect : String) (error error' : FlowError) : Prop :=
  error' = error.inDialect dialect

namespace Dialect

/-- Two dialects with the same rules treat every statement alike. -/
theorem ruleOf?_congr {dialect other : Dialect}
    (same : ∀ kind, other.rule? kind = dialect.rule? kind) (stmt : Stmt) :
    other.ruleOf? stmt = dialect.ruleOf? stmt := by
  rw [ruleOf?, ruleOf?, same]

end Dialect

namespace Context

open WalkM

section Walk

variable {context : Context} {dialect : Dialect}
  {walk walk' : BlockId → List StmtId → WalkM BlockId}
  (walks : ∀ entry ids, (walk entry ids).Alike (FlowError.SaidBy dialect.name) (walk' entry ids))
  (cursor : BlockId) (id : StmtId) (stmt : Stmt)

theorem saidBy_unsupported (construct : String) :
    (context.unsupported construct id stmt : WalkM BlockId).Alike (FlowError.SaidBy dialect.name)
      ({ context with dialect }.unsupported construct id stmt) :=
  alike_refuse rfl

include walks

theorem saidBy_walkBranch :
    (context.walkBranch walk cursor id stmt).Alike (FlowError.SaidBy dialect.name)
      ({ context with dialect }.walkBranch walk' cursor id stmt) := by
  rw [walkBranch_eq, walkBranch_eq]
  split
  · exact saidBy_unsupported id stmt stmt.kind.name
  · apply alike_bind (alike_fork cursor id _)
    intro entries
    apply alike_bind (walks entries.1 stmt.body)
    intro left
    apply alike_bind (walks entries.2 stmt.orelse)
    intro right
    exact alike_join left right

theorem saidBy_walkLoop :
    (context.walkLoop walk cursor id stmt).Alike (FlowError.SaidBy dialect.name)
      ({ context with dialect }.walkLoop walk' cursor id stmt) := by
  rw [walkLoop_eq, walkLoop_eq]
  split
  · exact saidBy_unsupported id stmt _
  split
  · exact saidBy_unsupported id stmt _
  · apply alike_bind (alike_fork cursor id _)
    intro entries
    apply alike_bind (alike_enterLoop _)
    intro _
    apply alike_bind (walks entries.1 stmt.body)
    intro last
    exact alike_finishLoop cursor entries.2 last

theorem saidBy_visit (same : ∀ kind, dialect.rule? kind = context.dialect.rule? kind) :
    (context.visit walk cursor id stmt).Alike (FlowError.SaidBy dialect.name)
      ({ context with dialect }.visit walk' cursor id stmt) := by
  rw [visit, visit, Dialect.ruleOf?_congr same]
  cases context.dialect.ruleOf? stmt with
  | none => exact saidBy_unsupported id stmt stmt.kind.name
  | some rule =>
      apply alike_bind (alike_record _ _)
      intro _
      cases rule with
      | sequential => exact alike_walkPlain cursor id
      | deferred => exact alike_walkDefinition cursor id stmt stmt
      | branch => exact saidBy_walkBranch walks cursor id stmt
      | loop => exact saidBy_walkLoop walks cursor id stmt
      | returns => exact alike_walkReturn cursor id
      | breaks => exact alike_walkBreak cursor id stmt stmt rfl
      | continues => exact alike_walkContinue cursor id stmt stmt rfl
      | unsupported => exact saidBy_unsupported id stmt stmt.kind.name

end Walk

section Build

variable {context : Context} {dialect : Dialect}
  (same : ∀ kind, dialect.rule? kind = context.dialect.rule? kind)

include same

theorem saidBy_walkStmt (levels : Nat) (cursor : BlockId) (id : StmtId) :
    (context.walkStmt levels cursor id).Alike (FlowError.SaidBy dialect.name)
      ({ context with dialect }.walkStmt levels cursor id) := by
  induction levels generalizing cursor id with
  | zero =>
      unfold walkStmt
      dsimp only
      cases context.pool.get? id with
      | none => exact alike_refuse rfl
      | some stmt => exact alike_refuse rfl
  | succ levels ih =>
      unfold walkStmt
      dsimp only
      cases context.pool.get? id with
      | none => exact alike_refuse rfl
      | some stmt => exact saidBy_visit (fun _ _ => alike_foldlM ih _ _) cursor id stmt same

theorem saidBy_build (start : Numbering) (body : List StmtId) (log log' : Log) :
    EndsAlike (FlowError.SaidBy dialect.name) (context.build start body log)
      ({ context with dialect }.build start body log') := by
  unfold build buildToEnd buildInto
  apply EndsAlike.bind
  · apply EndsAlike.bind (endsAlike_ofGraph _)
    intro graph mid mid' _
    apply EndsAlike.bind (endsAlike_record _ _)
    intro _ mid mid' _
    apply EndsAlike.bind (alike_foldlM (saidBy_walkStmt same _) _ _ _ _ _)
    intro ⟨last, state⟩ mid mid' _
    apply EndsAlike.bind (endsAlike_ofGraph _)
    intro _ _ _ _
    exact .ok
  · intro _ _ _ _
    exact .ok

theorem saidBy_buildWaiting (start : Numbering) (scopes : Array Scope) (queue : List Waiting)
    (log log' : Log) :
    EndsAlike (FlowError.SaidBy dialect.name) (context.buildWaiting start scopes queue log)
      ({ context with dialect }.buildWaiting start scopes queue log') := by
  induction start, scopes, queue using buildWaiting.induct context generalizing log log' with
  | case1 start scopes =>
      rw [buildWaiting, buildWaiting]
      exact .ok
  | case2 start scopes waiting queue missing =>
      rw [buildWaiting, buildWaiting, missing]
      exact .flow rfl
  | case3 start scopes waiting queue stmt kept ih =>
      have kept' : { context with dialect }.pool.get? waiting.root = some stmt := kept
      have alike := saidBy_build same start stmt.body
        (log.push (.definitionBegun stmt.kind stmt.line))
        (log'.push (.definitionBegun stmt.kind stmt.line))
      generalize built : context.build start stmt.body _ = result at alike
      generalize built' : { context with dialect }.build start stmt.body _ = result' at alike
      cases alike with
      | ok =>
          rw [buildWaiting_of_ok kept built, buildWaiting_of_ok kept' built']
          exact ih _ _ _ built _ _
      | flow said =>
          rw [buildWaiting_of_error kept built, buildWaiting_of_error kept' built']
          exact .flow said
      | fault =>
          rw [buildWaiting_of_error kept built, buildWaiting_of_error kept' built']
          exact .fault

theorem saidBy_buildModule (body : List StmtId) (log log' : Log) :
    EndsAlike (FlowError.SaidBy dialect.name) (context.buildModule body log)
      ({ context with dialect }.buildModule body log') := by
  unfold buildModule
  apply EndsAlike.bind (endsAlike_record _ _)
  intro _ mid mid' _
  apply EndsAlike.bind (saidBy_build same {} body mid mid')
  intro graph mid mid' _
  apply EndsAlike.bind (saidBy_buildWaiting same _ _ _ mid mid')
  intro _ _ _ _
  exact .ok

end Build

/-- Of a kind, a table says what the last edit of the kind says, and what the dialect says from
    which it is taken when there is none. Tables with one name and the same rules are one. Under
    two dialects with the same rules, builds give the same graphs, run out of block ids in the
    same place, or are refused with errors that differ in the name of the dialect only. -/
theorem rules_decide_tables_and_builds :
    (∀ (base : Dialect) (name : String) (edits : List RuleTable.Edit) (kind : StmtKind),
      (∀ before edit behind, edits = before ++ edit :: behind → edit.kind = kind →
        (∀ later ∈ behind, later.kind ≠ kind) →
        ((RuleTable.derivedFrom base.rule? name).editAll edits).rule kind = edit.rule?) ∧
      ((∀ edit ∈ edits, edit.kind ≠ kind) →
        ((RuleTable.derivedFrom base.rule? name).editAll edits).rule kind = base.rule? kind)) ∧
    (∀ left right : RuleTable,
      left = right ↔ left.name = right.name ∧ ∀ kind, left.rule kind = right.rule kind) ∧
    ∀ (context : Context) (dialect : Dialect),
      (∀ kind, dialect.rule? kind = context.dialect.rule? kind) →
      ∀ (start : Numbering) (body : List StmtId) (log log' : Log),
        EndsAlike (FlowError.SaidBy dialect.name) (context.build start body log)
          ({ context with dialect }.build start body log') ∧
        EndsAlike (FlowError.SaidBy dialect.name) (context.buildModule body log)
          ({ context with dialect }.buildModule body log') := by
  refine ⟨?tables, fun left right => RuleTable.eq_iff, ?builds⟩
  case tables =>
    intro base name edits kind
    constructor
    · intro before edit behind split named others
      rw [split]
      exact RuleTable.rule_editAll_of_last before named others
    · intro others
      rw [RuleTable.rule_editAll_of_ne others]
      exact RuleTable.rule_derivedFrom base.rule? name kind
  case builds =>
    intro context dialect same start body log log'
    constructor
    · exact saidBy_build same start body log log'
    · exact saidBy_buildModule same body log log'

/-- A statement that is plain and one that is refused. -/
def plainAndRefused : Context where
  pool := { slots := #[⟨0, none⟩, ⟨1, some (.simple .pass 1)⟩,
    ⟨1, some (.withBlock 2 [⟨1, 1⟩])⟩] }
  dialect := .python3

/-- The rules of the built-in dialect under another name. -/
def copiedTable : RuleTable := .derivedFrom Dialect.python3.rule? "py3-copy"

theorem rules_decide_tables_and_builds_copiedTable :
    copiedTable.editAll [.assign .pass .loop, .assign .pass .sequential] = copiedTable ∧
    (∃ graph log log', plainAndRefused.build {} [⟨1, 1⟩] #[] = .ok graph log ∧
      { plainAndRefused with dialect := .table copiedTable }.build {} [⟨1, 1⟩] #[] =
        .ok graph log') ∧
    ∃ log, { plainAndRefused with dialect := .table copiedTable }.build {} [⟨1, 1⟩, ⟨2, 1⟩] #[] =
      .error (.flow (.unsupportedConstruct "With" "py3-copy" ⟨2, 1⟩ 2)) log := by
  obtain ⟨tables, equal, builds⟩ := rules_decide_tables_and_builds
  have copied : ∀ kind, copiedTable.rule kind = Dialect.python3.rule? kind := by
    intro kind
    apply (tables .python3 "py3-copy" [] kind).2
    intro edit none
    cases none
  have outcome := fun body => (builds plainAndRefused (.table copiedTable) copied {} body #[] #[]).1
  have accepted : Decided (plainAndRefused.build {} [⟨1, 1⟩] #[]) none :=
    build_succeeds (by decide) (by decide) #[]
  have refused : Decided (plainAndRefused.build {} [⟨1, 1⟩, ⟨2, 1⟩] #[])
      (some (.unsupportedConstruct "With" "python3" ⟨2, 1⟩ 2)) :=
    refusalOf?_eq_some.mp (by decide)
  refine ⟨?_, ?_, ?_⟩
  · apply (equal _ _).mpr
    constructor
    · exact RuleTable.name_editAll _ _
    · intro kind
      rw [copied]
      by_cases named : kind = .pass
      · rw [named]
        apply (tables .python3 "py3-copy" _ .pass).1 [.assign .pass .loop]
          (.assign .pass .sequential) [] rfl rfl
        intro later none
        cases none
      · apply (tables .python3 "py3-copy" _ kind).2
        intro edit member
        grind [RuleTable.Edit.kind]
  · obtain ⟨graph, log, went⟩ := accepted
    have alike := outcome [⟨1, 1⟩]
    rw [went] at alike
    generalize Context.build _ _ _ _ = result at alike
    cases alike
    exact ⟨graph, log, _, went, rfl⟩
  · obtain ⟨log, failed⟩ := refused
    have alike := outcome [⟨1, 1⟩, ⟨2, 1⟩]
    rw [failed] at alike
    generalize Context.build _ _ _ _ = result at alike
    cases alike with
    | flow said =>
      cases said
      exact ⟨_, rfl⟩

end Context

end FlowGraph
