/-! # Control-flow rules

How a statement takes part in the control flow of its sequence.
-/

namespace FlowGraph

/-- The treatment of a statement. -/
inductive Rule where
  /-- Appended to the current block. -/
  | sequential
  /-- Appended as a leaf; its body is a scope with a graph of its own. -/
  | deferred
  /-- Guard, two arms and one block where they join. -/
  | branch
  /-- Header, body and end, with a back edge. -/
  | loop
  /-- Leaves the whole sequence. -/
  | returns
  /-- Goes to the end of the innermost loop. -/
  | breaks
  /-- Goes to the header of the innermost loop. -/
  | continues
  /-- Refused by name. -/
  | unsupported
  deriving Repr, DecidableEq

namespace Rule

def all : List Rule :=
  [sequential, deferred, branch, loop, returns, breaks, continues, unsupported]

def name : Rule → String
  | sequential => "Sequential"
  | deferred => "Opaque"
  | branch => "Branch"
  | loop => "Loop"
  | returns => "Return"
  | breaks => "Break"
  | continues => "Continue"
  | unsupported => "Unsupported"

/-- The rule with exactly the given name. -/
def ofName? (text : String) : Option Rule := all.find? fun rule => rule.name = text

theorem ofName?_name (rule : Rule) : ofName? rule.name = some rule := by
  cases rule <;> rfl

end Rule

end FlowGraph
