/-! # Statement kinds

Every statement kind that any dialect knows. A dialect gives a control-flow rule
to some of them. The order of the constructors is the order of the kinds.
-/

namespace FlowGraph

/-- The kind of a statement. A `tryStmt` has handlers and a final part, a `tryExcept` handlers
    only, a `tryFinally` a final part only. -/
inductive StmtKind where
  | expr
  | assign
  | augAssign
  | annAssign
  | pass
  | delete
  | importName
  | importFrom
  | globalNames
  | nonlocalNames
  | assertion
  | raise
  | print
  | exec
  | functionDef
  | asyncFunctionDef
  | classDef
  | ifStmt
  | forStmt
  | asyncFor
  | whileStmt
  | returnStmt
  | breakStmt
  | continueStmt
  | withStmt
  | asyncWith
  | tryStmt
  | tryExcept
  | tryFinally
  deriving Repr, DecidableEq, Hashable

namespace StmtKind

/-- All kinds in their order. -/
def all : List StmtKind :=
  [expr, assign, augAssign, annAssign, pass, delete, importName, importFrom, globalNames,
    nonlocalNames, assertion, raise, print, exec, functionDef, asyncFunctionDef, classDef,
    ifStmt, forStmt, asyncFor, whileStmt, returnStmt, breakStmt, continueStmt, withStmt,
    asyncWith, tryStmt, tryExcept, tryFinally]

def name : StmtKind → String
  | expr => "Expr"
  | assign => "Assign"
  | augAssign => "AugAssign"
  | annAssign => "AnnAssign"
  | pass => "Pass"
  | delete => "Delete"
  | importName => "Import"
  | importFrom => "ImportFrom"
  | globalNames => "Global"
  | nonlocalNames => "Nonlocal"
  | assertion => "Assert"
  | raise => "Raise"
  | print => "Print"
  | exec => "Exec"
  | functionDef => "FunctionDef"
  | asyncFunctionDef => "AsyncFunctionDef"
  | classDef => "ClassDef"
  | ifStmt => "If"
  | forStmt => "For"
  | asyncFor => "AsyncFor"
  | whileStmt => "While"
  | returnStmt => "Return"
  | breakStmt => "Break"
  | continueStmt => "Continue"
  | withStmt => "With"
  | asyncWith => "AsyncWith"
  | tryStmt => "Try"
  | tryExcept => "TryExcept"
  | tryFinally => "TryFinally"

/-- No kind has the given name. -/
inductive ParseError where
  | unknownName
  deriving Repr, DecidableEq

def ParseError.message : ParseError → String
  | unknownName => "Matching variant not found"

/-- The kind with exactly the given name. -/
def parse (text : String) : Except ParseError StmtKind :=
  match all.find? (fun kind => kind.name = text) with
  | some kind => .ok kind
  | none => .error .unknownName

/-- Whether the kind is a definition, whose body is a scope of its own. -/
def isDef : StmtKind → Bool
  | functionDef | asyncFunctionDef | classDef => true
  | _ => false

def isLoop : StmtKind → Bool
  | forStmt | asyncFor | whileStmt => true
  | _ => false

/-- The word by which a loop of this kind is named together with its `else` clause. -/
def loopKeyword : StmtKind → String
  | forStmt => "for"
  | asyncFor => "async for"
  | whileStmt => "while"
  | kind => kind.name

/-- The list of kinds in their order, equal kinds side by side. -/
def sort (kinds : List StmtKind) : List StmtKind :=
  kinds.mergeSort fun left right => left.ctorIdx ≤ right.ctorIdx

theorem mem_all (kind : StmtKind) : kind ∈ all := by
  cases kind <;> decide

theorem parse_name (kind : StmtKind) : parse kind.name = .ok kind := by
  cases kind <;> rfl

/-- Reading succeeds only on the name of the kind it gives. -/
theorem name_of_parse {text : String} {kind : StmtKind} (h : parse text = .ok kind) :
    kind.name = text := by
  unfold parse at h
  split at h
  · rename_i found hf
    cases h
    simpa using List.find?_some hf
  · cases h

end StmtKind

end FlowGraph
