import FlowGraph.Dialect.Table
import FlowGraph.Error
import FlowGraph.Stmt.Basic
import FlowGraph.Text.Blank

/-! # Dialects

A dialect says which statement kinds exist and what rule each of them has. Two
dialects are built in; any other is a rule table.
-/

namespace FlowGraph

/-- A set of rules for statement kinds. -/
inductive Dialect where
  /-- The language with print and exec statements and two forms of `try`. -/
  | python27
  /-- The language with annotations, asynchronous statements and one form of `try`. -/
  | python3
  | table (rules : RuleTable)
  deriving DecidableEq

namespace Dialect

instance : Inhabited Dialect := ⟨python3⟩

/-- The rule of a kind that both built-in dialects have. -/
def sharedRule? : StmtKind → Option Rule
  | .expr | .assign | .augAssign | .pass | .delete | .importName | .importFrom | .globalNames
  | .assertion | .raise => some .sequential
  | .functionDef | .classDef => some .deferred
  | .ifStmt => some .branch
  | .forStmt | .whileStmt => some .loop
  | .returnStmt => some .returns
  | .breakStmt => some .breaks
  | .continueStmt => some .continues
  | .withStmt => some .unsupported
  | _ => none

/-- The rule of a kind, `none` when the dialect does not have the kind. -/
def rule? : Dialect → StmtKind → Option Rule
  | python27, .print | python27, .exec => some .sequential
  | python27, .tryExcept | python27, .tryFinally => some .unsupported
  | python27, kind => sharedRule? kind
  | python3, .annAssign | python3, .nonlocalNames => some .sequential
  | python3, .asyncFunctionDef => some .deferred
  | python3, .asyncFor => some .loop
  | python3, .asyncWith | python3, .tryStmt => some .unsupported
  | python3, kind => sharedRule? kind
  | table rules, kind => rules.rule kind

def name : Dialect → String
  | python27 => "python2.7"
  | python3 => "python3"
  | table rules => rules.name

/-- The rule by which a statement is treated. A kind that is not in the dialect is
    plain when it holds no statements, and otherwise has no treatment. -/
def ruleOf? (dialect : Dialect) (stmt : Stmt) : Option Rule :=
  match dialect.rule? stmt.kind with
  | some rule => some rule
  | none => if stmt.hasNestedBlocks then none else some .sequential

/-- The dialect for a declared language version such as `2.7` or `3.8`, blanks
    around it left aside. -/
def forVersion (version : String) : Except FlowError Dialect :=
  let trimmed := Text.trimBlank version
  if ['2', '.'].isPrefixOf trimmed.toList then .ok python27
  else if ['3', '.'].isPrefixOf trimmed.toList then .ok python3
  else .error (.unsupportedVersion trimmed)

/-- Every kind has a rule in one of the built-in dialects. -/
theorem exists_builtin_rule (kind : StmtKind) :
    (python27.rule? kind).isSome ∨ (python3.rule? kind).isSome := by
  cases kind <;> decide

end Dialect

end FlowGraph
