import FlowGraph.Stmt.Pool

/-! # Trees

A module: its statements, the names they use and the sequence at the top. Child
sequences refer to statements by id, so a tree may share, miss or even repeat
statements along its branches.
-/

namespace FlowGraph

/-- The statements, names and top sequence of a module. -/
structure Tree where
  pool : StmtPool := {}
  symbols : SymbolTable := {}
  body : List StmtId := []
  deriving Repr, DecidableEq

namespace Tree

def get? (tree : Tree) (id : StmtId) : Option Stmt := tree.pool.get? id

def insert (tree : Tree) (stmt : Stmt) : StmtId × Tree :=
  let (id, pool) := tree.pool.insert stmt
  (id, { tree with pool })

/-- The symbol of a name, which becomes known to the tree. -/
def intern (tree : Tree) (name : String) : Symbol × Tree :=
  let (symbol, symbols) := tree.symbols.intern name
  (symbol, { tree with symbols })

def resolve? (tree : Tree) (symbol : Symbol) : Option String := tree.symbols.resolve? symbol

/-- Adds a definition with the given name. -/
def define (tree : Tree) (kind : StmtKind) (name : String) (line : Nat) (body : List StmtId) :
    StmtId × Tree :=
  let (symbol, tree) := tree.intern name
  tree.insert (.define kind symbol line body)

/-- Appends an id to the top sequence, whether or not it addresses a statement. -/
def push (tree : Tree) (id : StmtId) : Tree := { tree with body := tree.body ++ [id] }

/-- Takes a statement out; ids that refer to it stay where they are. -/
def remove? (tree : Tree) (id : StmtId) : Option (Stmt × Tree) :=
  (tree.pool.remove? id).map fun (stmt, pool) => (stmt, { tree with pool })

/-- Puts another statement in the place of the one kept under an id. -/
def replace? (tree : Tree) (id : StmtId) (stmt : Stmt) : Option Tree :=
  (tree.pool.replace? id stmt).map fun pool => { tree with pool }

/-- Appends a child to the body of the statement kept under an id. -/
def addChild? (tree : Tree) (id child : StmtId) : Option Tree :=
  (tree.get? id).bind fun stmt => tree.replace? id (stmt.addChild child)

def size (tree : Tree) : Nat := tree.pool.size

/-- A defined name is that of the definition it was made for. -/
theorem resolve?_intern (tree : Tree) (name : String) :
    (tree.intern name).2.resolve? (tree.intern name).1 = some name :=
  tree.symbols.resolve?_intern name

end Tree

end FlowGraph
