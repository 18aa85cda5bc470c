import FlowGraph.Module.Scope

/-! # Qualified names

A scope is named by the names of the definitions around it, outermost first, and its
own name, with dots between them.
-/

namespace FlowGraph

/-- What a scope adds to a path: the name of its definition, or a stand-in where the
    definition has none. The module itself adds nothing. -/
def Scope.ownName (scope : Scope) (symbols : SymbolTable) : List String :=
  match scope.root with
  | none => []
  | some _ => [(scope.name.bind symbols.resolve?).getD "<anonymous>"]

namespace ModuleGraphs

/-- The names along the parents of a scope, outermost first. Parents come before
    their children; a parent that does not ends the path. -/
def path (graphs : ModuleGraphs) (symbols : SymbolTable) (number : Nat) : List String :=
  match graphs.scopes[number]? with
  | none => []
  | some scope =>
      match scope.parent with
      | none => scope.ownName symbols
      | some parent =>
          if parent < number then graphs.path symbols parent ++ scope.ownName symbols
          else scope.ownName symbols
termination_by number

/-- The dotted name of a scope; the module itself, like a number without a scope, is
    `<module>`. -/
def qualName (graphs : ModuleGraphs) (symbols : SymbolTable) (number : Nat) : String :=
  match graphs.path symbols number with
  | [] => "<module>"
  | names => ".".intercalate names

/-- The first scope with the given dotted name, by number. -/
def find? (graphs : ModuleGraphs) (symbols : SymbolTable) (qualName : String) : Option Nat :=
  (List.range graphs.size).find? fun number => graphs.qualName symbols number = qualName

end ModuleGraphs

end FlowGraph
