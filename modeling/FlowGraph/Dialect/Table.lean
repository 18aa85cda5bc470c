import Std.Data.ExtHashMap
import FlowGraph.Dialect.Rule
import FlowGraph.Stmt.Kind

/-! # Rule tables

A table gives a rule to some statement kinds. It is usually taken from another
dialect and then edited. The rules are kept in a map, so two tables are equal when
they have one name and give every kind the same rule, whatever edits led to them.
-/

namespace FlowGraph

/-- A named assignment of rules to kinds; a kind without a rule is not in the dialect. -/
structure RuleTable where
  name : String
  rules : Std.ExtHashMap StmtKind Rule
  deriving DecidableEq

namespace RuleTable

def empty (name : String) : RuleTable := ⟨name, ∅⟩

/-- The table of given rules under a name of its own: of every kind that has a rule. -/
def derivedFrom (rules : StmtKind → Option Rule) (name : String) : RuleTable :=
  ⟨name, .ofList (StmtKind.all.filterMap fun kind => (rules kind).map (kind, ·))⟩

def rule (table : RuleTable) (kind : StmtKind) : Option Rule := table.rules[kind]?

/-- One change of a table. -/
inductive Edit where
  | assign (kind : StmtKind) (rule : Rule)
  | without (kind : StmtKind)
  deriving Repr, DecidableEq

namespace Edit

def kind : Edit → StmtKind
  | assign kind _ => kind
  | without kind => kind

/-- What the table says of that kind afterwards. -/
def rule? : Edit → Option Rule
  | assign _ rule => some rule
  | without _ => none

end Edit

def edit (table : RuleTable) : Edit → RuleTable
  | .assign kind rule => { table with rules := table.rules.insert kind rule }
  | .without kind => { table with rules := table.rules.erase kind }

/-- The table after a list of edits, first to last. -/
def editAll (table : RuleTable) (changes : List Edit) : RuleTable := changes.foldl edit table

variable {left right : RuleTable} {kind : StmtKind}

/-- Tables agree when their names and their rules for every kind do. -/
theorem ext_rule (name : left.name = right.name)
    (rule : ∀ kind, left.rule kind = right.rule kind) : left = right := by
  cases left
  cases right
  congr 1
  exact Std.ExtHashMap.ext_getElem? rule

@[simp] theorem rule_empty (name : String) : (empty name).rule kind = none :=
  Std.ExtHashMap.getElem?_empty

@[simp] theorem name_edit (table : RuleTable) (change : Edit) :
    (table.edit change).name = table.name := by
  cases change <;> rfl

/-- An edit changes what the table says of its own kind and of no other. -/
theorem rule_edit (table : RuleTable) (change : Edit) :
    (table.edit change).rule kind =
      if change.kind = kind then change.rule? else table.rule kind := by
  cases change with
  | assign changed rule =>
      by_cases same : changed = kind <;>
        simp [edit, RuleTable.rule, Edit.kind, Edit.rule?, Std.ExtHashMap.getElem?_insert, same]
  | without changed =>
      by_cases same : changed = kind <;>
        simp [edit, RuleTable.rule, Edit.kind, Edit.rule?, Std.ExtHashMap.getElem?_erase, same]

end RuleTable

end FlowGraph
