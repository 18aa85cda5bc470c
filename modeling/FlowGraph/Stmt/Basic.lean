import FlowGraph.Stmt.Id
import FlowGraph.Stmt.Kind
import FlowGraph.Symbol

/-! # Statements

A statement is a kind, a line and its child sequences. Expressions have no place
here: control flow depends on the statement structure alone.
-/

namespace FlowGraph

/-- One statement. Which child sequences mean something depends on the kind. -/
structure Stmt where
  kind : StmtKind
  line : Nat
  name : Option Symbol := none
  body : List StmtId := []
  orelse : List StmtId := []
  handlers : List (List StmtId) := []
  finalbody : List StmtId := []
  deriving Repr, DecidableEq

namespace Stmt

/-- Every child sequence: body, else part, each handler, final part. -/
def nestedBlocks (stmt : Stmt) : List (List StmtId) :=
  [stmt.body, stmt.orelse] ++ stmt.handlers ++ [stmt.finalbody]

/-- Whether some child sequence holds a statement. -/
def hasNestedBlocks (stmt : Stmt) : Bool :=
  stmt.nestedBlocks.any fun block => !block.isEmpty

/-- Whether the statement has handlers, even empty ones, or a final part. -/
def hasClauses (stmt : Stmt) : Bool :=
  !stmt.handlers.isEmpty || !stmt.finalbody.isEmpty

def simple (kind : StmtKind) (line : Nat) : Stmt :=
  { kind, line }

def compound (kind : StmtKind) (line : Nat) (body orelse : List StmtId) : Stmt :=
  { kind, line, body, orelse }

def ifElse (line : Nat) (body orelse : List StmtId) : Stmt :=
  compound .ifStmt line body orelse

def forEach (line : Nat) (body : List StmtId) : Stmt :=
  compound .forStmt line body []

def forElse (line : Nat) (body orelse : List StmtId) : Stmt :=
  compound .forStmt line body orelse

def asyncForEach (line : Nat) (body : List StmtId) : Stmt :=
  compound .asyncFor line body []

def whileLoop (line : Nat) (body : List StmtId) : Stmt :=
  compound .whileStmt line body []

def withBlock (line : Nat) (body : List StmtId) : Stmt :=
  compound .withStmt line body []

def define (kind : StmtKind) (name : Symbol) (line : Nat) (body : List StmtId) : Stmt :=
  { kind, line, body, name := some name }

def returnAt (line : Nat) : Stmt := simple .returnStmt line

def breakAt (line : Nat) : Stmt := simple .breakStmt line

def continueAt (line : Nat) : Stmt := simple .continueStmt line

/-- A statement of the `try` family with all its clauses. -/
def tryBlock (kind : StmtKind) (line : Nat) (body : List StmtId) (handlers : List (List StmtId))
    (orelse finalbody : List StmtId) : Stmt :=
  { kind, line, body, orelse, handlers, finalbody }

/-- The statement with one more child at the end of its body. -/
def addChild (stmt : Stmt) (child : StmtId) : Stmt :=
  { stmt with body := stmt.body ++ [child] }

end Stmt

end FlowGraph
