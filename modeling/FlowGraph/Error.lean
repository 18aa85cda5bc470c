import FlowGraph.Stmt.Id

/-! # Flow errors

What can be wrong with the statements or the dialect that a graph is asked for,
and how each of these is worded.
-/

namespace FlowGraph

/-- Input that has no control-flow graph. -/
inductive FlowError where
  | breakOutsideLoop (stmt : StmtId) (line : Nat)
  | continueOutsideLoop (stmt : StmtId) (line : Nat)
  | unsupportedConstruct (construct dialect : String) (stmt : StmtId) (line : Nat)
  /-- A statement below more than `limit` branches and loops. -/
  | nestingTooDeep (stmt : StmtId) (line limit : Nat)
  | missingStatement (stmt : StmtId)
  | unsupportedVersion (version : String)
  deriving Repr, DecidableEq

namespace FlowError

def message : FlowError → String
  | breakOutsideLoop _ line => "line " ++ toString line ++ ": 'break' outside loop"
  | continueOutsideLoop _ line => "line " ++ toString line ++ ": 'continue' not properly in loop"
  | unsupportedConstruct construct dialect _ line =>
      "line " ++ toString line ++ ": unsupported construct '" ++ construct ++ "' in dialect "
        ++ dialect
  | nestingTooDeep _ line limit =>
      "line " ++ toString line ++ ": statements nested deeper than " ++ toString limit ++ " levels"
  | missingStatement stmt => "statement StmtId(" ++ stmt.label ++ ") is not in the statement pool"
  | unsupportedVersion version => "unsupported language version: " ++ version

/-- The statement at fault, when there is one. -/
def stmt? : FlowError → Option StmtId
  | breakOutsideLoop stmt _ => some stmt
  | continueOutsideLoop stmt _ => some stmt
  | unsupportedConstruct _ _ stmt _ => some stmt
  | nestingTooDeep stmt _ _ => some stmt
  | missingStatement stmt => some stmt
  | unsupportedVersion _ => none

end FlowError

end FlowGraph
