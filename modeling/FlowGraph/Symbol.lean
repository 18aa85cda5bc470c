/-! # Symbols

Names are kept once and addressed by number, in the order of their first use.
-/

namespace FlowGraph

/-- The number of a name. -/
abbrev Symbol := Nat

/-- The names met so far; the symbol of a name is its position. -/
structure SymbolTable where
  names : Array String := #[]
  deriving Repr, DecidableEq

namespace SymbolTable

/-- The symbol of a name, which is added to the table when it is new. -/
def intern (table : SymbolTable) (name : String) : Symbol × SymbolTable :=
  match table.names.findIdx? (fun known => known = name) with
  | some symbol => (symbol, table)
  | none => (table.names.size, { table with names := table.names.push name })

/-- The name of a symbol, if it was handed out. -/
def resolve? (table : SymbolTable) (symbol : Symbol) : Option String :=
  table.names[symbol]?

/-- A name can be read back from the symbol it was given. -/
theorem resolve?_intern (table : SymbolTable) (name : String) :
    (table.intern name).2.resolve? (table.intern name).1 = some name := by
  unfold intern resolve?
  split
  · rename_i symbol h
    obtain ⟨hlt, heq, _⟩ := Array.findIdx?_eq_some_iff_getElem.mp h
    simpa [Array.getElem?_eq_getElem hlt] using heq
  · simp

/-- Interning keeps every symbol handed out before. -/
theorem resolve?_intern_of_some {table : SymbolTable} {name known : String} {symbol : Symbol}
    (h : table.resolve? symbol = some known) :
    (table.intern name).2.resolve? symbol = some known := by
  unfold intern
  split
  · exact h
  · obtain ⟨hlt, _⟩ := Array.getElem?_eq_some_iff.mp h
    simpa [resolve?, Array.getElem?_push, Nat.ne_of_lt hlt] using h

end SymbolTable

end FlowGraph
