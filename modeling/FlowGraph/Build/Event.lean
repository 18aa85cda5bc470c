import FlowGraph.Block.Id
import FlowGraph.Dialect.Rule
import FlowGraph.Stmt.Kind

/-! # Build events

What a build reports while it runs: a level and a line of text for each event.
-/

namespace FlowGraph

/-- How much detail an event is. -/
inductive Level where
  | debug
  | trace
  deriving Repr, DecidableEq

def Level.name : Level → String
  | debug => "DEBUG"
  | trace => "TRACE"

/-- A statement after which control does not go on to the next one. -/
inductive Jump where
  | returns
  | breaks
  | continues
  deriving Repr, DecidableEq

def Jump.word : Jump → String
  | returns => "return"
  | breaks => "break"
  | continues => "continue"

/-- One step of a build. -/
inductive Event where
  | entered (entry : BlockId) (dialect : String)
  | visited (line : Nat) (kind : StmtKind) (rule : Rule) (cursor : BlockId)
  | deferred (kind : StmtKind) (line : Nat) (cursor : BlockId)
  | branched (guard body orelse : BlockId)
  | joined (after : BlockId)
  | looped (header body exit : BlockId)
  | jumped (jump : Jump) (cursor next : BlockId)
  | moduleBegun
  | definitionBegun (kind : StmtKind) (line : Nat)
  deriving Repr, DecidableEq

/-- The events of a build, first to last. -/
abbrev Log := Array Event

namespace Event

/-- The level of an event. -/
def level : Event → Level
  | visited .. => .trace
  | _ => .debug

/-- The text of an event. -/
def message : Event → String
  | entered entry dialect => "entry block: " ++ entry.label ++ " (" ++ dialect ++ ")"
  | visited line kind rule cursor =>
      "line " ++ toString line ++ ": " ++ kind.name ++ " -> " ++ rule.name ++ " in " ++ cursor.label
  | deferred kind line cursor =>
      "deferring " ++ kind.name ++ " at line " ++ toString line ++ " in " ++ cursor.label
  | branched guard body orelse =>
      "if guard block: " ++ guard.label ++ ", body block: " ++ body.label ++ ", else block: "
        ++ orelse.label
  | joined after => "if after block: " ++ after.label
  | looped header body exit =>
      "loop header block: " ++ header.label ++ ", body block: " ++ body.label ++ ", end block: "
        ++ exit.label
  | jumped jump cursor next =>
      "unreachable block after " ++ jump.word ++ " in " ++ cursor.label ++ ": " ++ next.label
  | moduleBegun => "building CFG for module"
  | definitionBegun kind line => "building CFG for " ++ kind.name ++ " at line " ++ toString line

/-- The line that a log shows for an event. -/
def render (event : Event) : String := event.level.name ++ " " ++ event.message

end Event

end FlowGraph
