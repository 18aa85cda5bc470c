import FlowGraph.Module.QualName
import FlowGraph.Proofs.Homes

/-! # Dotted names of scopes

The way up from a scope over the parents ends, since each parent comes before its child, and the
names met on it make up the dotted name of the scope. A look-up by name gives the first scope
that has it. Scopes with different names on their ways up can have one dotted name only where a
name has a dot of its own, or is the stand-in for the module.
-/

namespace FlowGraph

/-- Lists of names without dots are told apart by their dotted forms. -/
theorem eq_of_dotted_eq {left right : List String} (given : left ≠ []) (given' : right ≠ [])
    (plain : ∀ name ∈ left, '.' ∉ name.toList) (plain' : ∀ name ∈ right, '.' ∉ name.toList)
    (same : ".".intercalate left = ".".intercalate right) : left = right := by
  -- cut at its dots, a dotted form gives the names back
  have split : ∀ names : List String, names ≠ [] → (∀ name ∈ names, '.' ∉ name.toList) →
      (".".intercalate names).toList.splitOn '.' = names.map String.toList := by
    intro names given plain
    rw [String.toList_intercalate]
    apply List.splitOn_intercalate
    · exact List.forall_mem_map.mpr plain
    · exact fun empty => given (List.map_eq_nil_iff.mp empty)
  rw [← List.map_inj_right fun _ _ => String.toList_injective, ← split left given plain, same,
    split right given' plain']

/-- The dotted form of names has a dot if there are two of them. -/
theorem dotted_ne_of_plain {names : List String} {plain : String} (noDot : '.' ∉ plain.toList)
    (given : names ≠ []) (others : plain ∉ names) : ".".intercalate names ≠ plain := by
  intro same
  cases names with
  | nil => exact given rfl
  | cons name rest =>
      cases rest with
      | nil =>
          rw [String.intercalate_singleton] at same
          exact others (same ▸ List.mem_cons_self)
      | cons next rest =>
          apply noDot
          rw [← same, String.intercalate_cons_cons]
          simp

/-- The name of a definition, or its stand-in. -/
def Scope.label (scope : Scope) (symbols : SymbolTable) : String :=
  (scope.name.bind symbols.resolve?).getD "<anonymous>"

theorem Scope.ownName_of_root {scope : Scope} {root : StmtId} (isRoot : scope.root = some root)
    (symbols : SymbolTable) : scope.ownName symbols = [scope.label symbols] := by
  simp only [ownName, isRoot, label]

theorem Scope.reverse_ownName (scope : Scope) (symbols : SymbolTable) :
    (scope.ownName symbols).reverse = scope.ownName symbols := by
  cases isRoot : scope.root with
  | none => simp only [ownName, isRoot, List.reverse_nil]
  | some root => rw [ownName_of_root isRoot, List.reverse_singleton]

namespace ModuleGraphs

variable {graphs : ModuleGraphs} {symbols : SymbolTable} {number parent : Nat} {scope : Scope}

/-- The names met on the way up from a scope over the parents, which is over where there is no
    further scope. -/
inductive Climbs (graphs : ModuleGraphs) (symbols : SymbolTable) :
    Option Nat → List String → Prop where
  | ended {current} : current.bind (graphs.scopes[·]?) = none → Climbs graphs symbols current []
  | up {number scope names} : graphs.scopes[number]? = some scope →
      Climbs graphs symbols scope.parent names →
      Climbs graphs symbols (some number) (scope.ownName symbols ++ names)

theorem Climbs.unique {current : Option Nat} {names names' : List String}
    (climbs : graphs.Climbs symbols current names)
    (climbs' : graphs.Climbs symbols current names') : names = names' := by
  induction climbs generalizing names' with
  | ended stops =>
      cases climbs' with
      | ended => rfl
      | up here => cases stops.symm.trans here
  | up here _ ih =>
      cases climbs' with
      | ended stops => cases stops.symm.trans here
      | up here' rest =>
          cases here.symm.trans here'
          rw [ih rest]

theorem path_of_parent (here : graphs.scopes[number]? = some scope)
    (isParent : scope.parent = some parent) (older : parent < number) :
    graphs.path symbols number = graphs.path symbols parent ++ scope.ownName symbols := by
  rw [path, here]
  simp only [isParent, if_pos older]

theorem path_of_no_parent (here : graphs.scopes[number]? = some scope)
    (noParent : scope.parent = none) : graphs.path symbols number = scope.ownName symbols := by
  rw [path, here]
  simp only [noParent]

/-- No name of a definition has a dot or is that of the module. -/
def Plain (graphs : ModuleGraphs) (symbols : SymbolTable) : Prop :=
  ∀ (number : Nat) (scope : Scope), 0 < number → graphs.scopes[number]? = some scope →
    '.' ∉ (scope.label symbols).toList ∧ scope.label symbols ≠ "<module>"

/-- The first scope is that of the module, and every other one that of a definition, with a
    parent before it. -/
structure Rooted (graphs : ModuleGraphs) : Prop where
  top : ∃ scope, graphs.scopes[0]? = some scope ∧ scope.root = none ∧ scope.parent = none
  inner : ∀ (number : Nat) (scope : Scope), 0 < number → graphs.scopes[number]? = some scope →
    ∃ root parent, scope.root = some root ∧ scope.parent = some parent ∧ parent < number

theorem Rooted.older (rooted : graphs.Rooted) (here : graphs.scopes[number]? = some scope)
    (isParent : scope.parent = some parent) : parent < number := by
  obtain ⟨top, first, _, noParent⟩ := rooted.top
  rcases Nat.eq_zero_or_pos number with rfl | behind
  · cases here.symm.trans first
    cases isParent.symm.trans noParent
  · obtain ⟨_, _, _, isParent', earlier⟩ := rooted.inner number scope behind here
    cases isParent.symm.trans isParent'
    exact earlier

/-- The way up from a scope ends, and gives the path to it backwards. -/
theorem Rooted.climbs_path (rooted : graphs.Rooted) (number : Nat) :
    graphs.Climbs symbols (some number) (graphs.path symbols number).reverse := by
  induction number using path.induct graphs with
  | case1 number missing =>
      rw [path, missing]
      exact .ended missing
  | case2 number scope here noParent =>
      have stops : graphs.Climbs symbols scope.parent [] := .ended (by rw [noParent]; rfl)
      rw [path_of_no_parent here noParent, scope.reverse_ownName,
        ← List.append_nil (scope.ownName symbols)]
      exact .up here stops
  | case3 number scope here parent isParent earlier ih =>
      rw [path_of_parent here isParent earlier, List.reverse_append, scope.reverse_ownName]
      exact .up here (isParent ▸ ih)
  | case4 number scope here parent isParent later =>
      exact absurd (rooted.older here isParent) later

theorem qualName_of_path_nil (atTop : graphs.path symbols number = []) :
    graphs.qualName symbols number = "<module>" := by
  rw [qualName, atTop]

theorem qualName_of_path_ne_nil (inside : graphs.path symbols number ≠ []) :
    graphs.qualName symbols number = ".".intercalate (graphs.path symbols number) := by
  unfold qualName
  split
  · rename_i atTop
    exact absurd atTop inside
  · rfl

theorem find?_eq_some_iff {name : String} :
    graphs.find? symbols name = some number ↔
      number < graphs.size ∧ graphs.qualName symbols number = name ∧
        ∀ earlier < number, graphs.qualName symbols earlier ≠ name := by
  simp only [find?, List.find?_range_eq_some, decide_eq_true_eq, List.mem_range,
    Bool.not_eq_true', decide_eq_false_iff_not]
  constructor
  · rintro ⟨named, inRange, first⟩
    exact ⟨inRange, named, first⟩
  · rintro ⟨inRange, named, first⟩
    exact ⟨named, inRange, first⟩

theorem find?_eq_none_iff {name : String} :
    graphs.find? symbols name = none ↔
      ∀ number < graphs.size, graphs.qualName symbols number ≠ name := by
  simp only [find?, List.find?_range_eq_none, Bool.not_eq_true', decide_eq_false_iff_not]

theorem find?_qualName (inRange : number < graphs.size) :
    ∃ first ≤ number, graphs.find? symbols (graphs.qualName symbols number) = some first ∧
      graphs.qualName symbols first = graphs.qualName symbols number := by
  cases found : graphs.find? symbols (graphs.qualName symbols number) with
  | none => exact absurd rfl (find?_eq_none_iff.mp found number inRange)
  | some first =>
      obtain ⟨_, named, earliest⟩ := find?_eq_some_iff.mp found
      refine ⟨first, ?_, rfl, named⟩
      exact Nat.le_of_not_lt fun earlier => earliest number earlier rfl

namespace Rooted

variable (rooted : graphs.Rooted)

include rooted

theorem path_zero : graphs.path symbols 0 = [] := by
  obtain ⟨top, first, noRoot, noParent⟩ := rooted.top
  rw [path_of_no_parent first noParent]
  simp only [Scope.ownName, noRoot]

theorem size_pos : 0 < graphs.size := by
  obtain ⟨_, first, _⟩ := rooted.top
  exact (Array.getElem?_eq_some_iff.mp first).1

theorem path_eq_append (symbols : SymbolTable) (behind : 0 < number)
    (here : graphs.scopes[number]? = some scope) :
    ∃ parent, scope.parent = some parent ∧ parent < number ∧
      graphs.path symbols number = graphs.path symbols parent ++ [scope.label symbols] := by
  obtain ⟨root, parent, isRoot, isParent, earlier⟩ := rooted.inner number scope behind here
  refine ⟨parent, isParent, earlier, ?_⟩
  rw [path_of_parent here isParent earlier, Scope.ownName_of_root isRoot]

theorem path_ne_nil (symbols : SymbolTable) (behind : 0 < number) (inRange : number < graphs.size) :
    graphs.path symbols number ≠ [] := by
  obtain ⟨_, _, _, path_eq⟩ := rooted.path_eq_append symbols behind
    (Array.getElem?_eq_getElem inRange)
  rw [path_eq]
  exact List.concat_ne_nil _ _

theorem exists_label {name : String} (listed : name ∈ graphs.path symbols number) :
    ∃ (inside : Nat) (scope : Scope), 0 < inside ∧ graphs.scopes[inside]? = some scope ∧
      name = scope.label symbols := by
  induction number using Nat.strongRecOn with
  | ind number ih =>
      rcases Nat.eq_zero_or_pos number with rfl | behind
      · rw [rooted.path_zero] at listed
        cases listed
      cases here : graphs.scopes[number]? with
      | none =>
          rw [path, here] at listed
          cases listed
      | some scope =>
          obtain ⟨parent, _, earlier, path_eq⟩ := rooted.path_eq_append symbols behind here
          rw [path_eq, List.mem_append, List.mem_singleton] at listed
          rcases listed with above | own
          · exact ih parent earlier above
          · exact ⟨number, scope, behind, here, own⟩

theorem qualName_zero : graphs.qualName symbols 0 = "<module>" :=
  qualName_of_path_nil rooted.path_zero

theorem find?_module : graphs.find? symbols "<module>" = some 0 := by
  refine find?_eq_some_iff.mpr ⟨rooted.size_pos, rooted.qualName_zero, ?_⟩
  intro earlier none
  cases none

theorem qualName_eq (behind : 0 < number) (here : graphs.scopes[number]? = some scope) :
    ∃ parent, scope.parent = some parent ∧ parent < number ∧ graphs.qualName symbols number =
      if parent = 0 then scope.label symbols
      else graphs.qualName symbols parent ++ "." ++ scope.label symbols := by
  obtain ⟨parent, isParent, earlier, path_eq⟩ := rooted.path_eq_append symbols behind here
  have inRange := (Array.getElem?_eq_some_iff.mp here).1
  refine ⟨parent, isParent, earlier, ?_⟩
  rw [qualName_of_path_ne_nil (rooted.path_ne_nil symbols behind inRange), path_eq]
  split
  · rename_i atTop
    rw [atTop, rooted.path_zero, List.nil_append, String.intercalate_singleton]
  · rename_i nested
    have above := rooted.path_ne_nil symbols (Nat.pos_of_ne_zero nested)
      (Nat.lt_trans earlier inRange)
    rw [qualName_of_path_ne_nil above, String.intercalate_append_of_ne_nil above (by simp),
      String.intercalate_singleton]

/-- Where no name of a definition has a dot or is that of the module, the dotted name of a scope
    gives the names on its way up. -/
theorem qualName_eq_iff (plain : graphs.Plain symbols) (left right : Nat) :
    graphs.qualName symbols left = graphs.qualName symbols right ↔
      graphs.path symbols left = graphs.path symbols right := by
  have noDot : ∀ number, ∀ name ∈ graphs.path symbols number, '.' ∉ name.toList := by
    intro number name listed
    obtain ⟨inside, scope, behind, here, rfl⟩ := rooted.exists_label listed
    exact (plain inside scope behind here).1
  have notModule : ∀ number, "<module>" ∉ graphs.path symbols number := by
    intro number listed
    obtain ⟨inside, scope, behind, here, name_eq⟩ := rooted.exists_label listed
    exact (plain inside scope behind here).2 name_eq.symm
  have apart : ∀ number, graphs.path symbols number ≠ [] →
      ".".intercalate (graphs.path symbols number) ≠ "<module>" :=
    fun number inside => dotted_ne_of_plain (by decide) inside (notModule number)
  constructor
  · intro same
    -- only the module has the stand-in, and no names of definitions spell it
    by_cases atTop : graphs.path symbols left = [] <;>
      by_cases atTop' : graphs.path symbols right = []
    · rw [atTop, atTop']
    · rw [qualName_of_path_nil atTop, qualName_of_path_ne_nil atTop'] at same
      exact absurd same.symm (apart right atTop')
    · rw [qualName_of_path_ne_nil atTop, qualName_of_path_nil atTop'] at same
      exact absurd same (apart left atTop)
    · rw [qualName_of_path_ne_nil atTop, qualName_of_path_ne_nil atTop'] at same
      exact eq_of_dotted_eq atTop atTop' (noDot left) (noDot right) same
  · intro same
    rw [qualName, qualName, same]

end Rooted

end ModuleGraphs

namespace Context

variable {context : Context} {body : List StmtId} {scopes : Array Scope} {graphs : ModuleGraphs}
  {log log' : Log}

theorem Assembled.rooted (assembled : context.Assembled body graphs.scopes) : graphs.Rooted := by
  obtain ⟨top, others, scopes_eq, met⟩ := assembled.top
  refine ⟨⟨⟨none, none, none, top⟩, ?_, rfl, rfl⟩, ?_⟩
  · rw [← Array.getElem?_toList, scopes_eq]
    rfl
  · intro number scope behind here
    obtain ⟨before, rfl⟩ := Nat.exists_eq_add_one_of_ne_zero (Nat.ne_of_gt behind)
    have member : scope ∈ others := by
      rw [← Array.getElem?_toList, scopes_eq, List.getElem?_cons_succ] at here
      exact List.mem_of_getElem? here
    have listed : scope.origin ∈ Scope.met graphs.scopes.toList :=
      met ▸ List.mem_map_of_mem member
    obtain ⟨parent, _, root, _, _, origin_eq⟩ := Scope.mem_met.mp listed
    obtain ⟨isRoot, isParent⟩ := Prod.mk.inj origin_eq
    exact ⟨root, parent, isRoot, isParent, assembled.older _ _ _ here isParent⟩

/-- The way up from a scope of a module ends and gives its dotted name, a look-up gives the first
    scope with a name, and dotted names are as good as the names on the ways up where no name has
    a dot or is that of the module. -/
theorem scopes_found_by_name (symbols : SymbolTable)
    (success : context.buildModule body log = .ok graphs log') :
    (∀ number names, graphs.Climbs symbols (some number) names ↔
      names = (graphs.path symbols number).reverse) ∧
    graphs.qualName symbols 0 = "<module>" ∧
    (∀ (number : Nat) (scope : Scope), 0 < number → graphs.scopes[number]? = some scope →
      ∃ parent, scope.parent = some parent ∧ parent < number ∧ graphs.qualName symbols number =
        if parent = 0 then scope.label symbols
        else graphs.qualName symbols parent ++ "." ++ scope.label symbols) ∧
    (∀ name number, graphs.find? symbols name = some number ↔
      number < graphs.size ∧ graphs.qualName symbols number = name ∧
        ∀ earlier < number, graphs.qualName symbols earlier ≠ name) ∧
    (∀ name, graphs.find? symbols name = none ↔
      ∀ number < graphs.size, graphs.qualName symbols number ≠ name) ∧
    (∀ number < graphs.size, ∃ first ≤ number,
      graphs.find? symbols (graphs.qualName symbols number) = some first ∧
        graphs.qualName symbols first = graphs.qualName symbols number) ∧
    graphs.find? symbols "<module>" = some 0 ∧
    (graphs.Plain symbols → ∀ left right,
      graphs.qualName symbols left = graphs.qualName symbols right ↔
        graphs.path symbols left = graphs.path symbols right) := by
  have rooted := (assembled_of_buildModule success).rooted
  refine ⟨?_, rooted.qualName_zero, ?_, ?_, ?_, ?_, rooted.find?_module, rooted.qualName_eq_iff⟩
  · intro number names
    constructor
    · intro climbs
      exact climbs.unique (rooted.climbs_path number)
    · rintro rfl
      exact rooted.climbs_path number
  · intro number scope behind here
    exact rooted.qualName_eq behind here
  · intro name number
    exact ModuleGraphs.find?_eq_some_iff
  · intro name
    exact ModuleGraphs.find?_eq_none_iff
  · intro number inRange
    exact ModuleGraphs.find?_qualName inRange

/-- Two definitions with an empty name in a third one, beside one whose symbol stands for no
    name. -/
def namedAlike : Context where
  pool := { slots := #[⟨0, none⟩, ⟨1, some (.define .classDef 0 1 [⟨2, 1⟩, ⟨3, 1⟩])⟩,
    ⟨1, some (.define .functionDef 1 2 [])⟩, ⟨1, some (.define .functionDef 1 3 [])⟩,
    ⟨1, some (.define .functionDef 7 4 [])⟩] }
  dialect := .python3
  maxDepth := 0

def namesAlike : SymbolTable where
  names := #["outer", ""]

theorem scopes_found_by_name_namedAlike :
    ∃ graphs log, namedAlike.buildModule [⟨1, 1⟩, ⟨4, 1⟩] #[] = .ok graphs log ∧
      graphs.Plain namesAlike ∧ graphs.qualName namesAlike 4 = "outer." ∧
      (∃ first ≤ 4, graphs.find? namesAlike "outer." = some first) ∧
      (graphs.qualName namesAlike 3 = graphs.qualName namesAlike 4 ↔
        graphs.path namesAlike 3 = graphs.path namesAlike 4) := by
  have evaluated : (namedAlike.buildModule [⟨1, 1⟩, ⟨4, 1⟩]).outcome.1.toOption.map
      (fun graphs => (graphs.scopes.toList.map (Scope.label · namesAlike),
        graphs.qualName namesAlike 4)) =
      some (["<anonymous>", "outer", "<anonymous>", "", ""], "outer.") := by decide +kernel
  obtain ⟨graphs, log, success, read⟩ := BuildM.exists_of_outcome evaluated
  obtain ⟨labels, named⟩ := Prod.mk.inj read
  obtain ⟨_, _, _, _, _, found, _, equal⟩ := scopes_found_by_name namesAlike success
  have plain : graphs.Plain namesAlike := by
    intro number scope _ here
    have member := Array.mem_toList_iff.mpr (Array.mem_of_getElem? here)
    have listed := List.mem_map_of_mem (f := (Scope.label · namesAlike)) member
    rw [labels] at listed
    revert listed
    generalize scope.label namesAlike = label
    revert label
    decide
  have size_eq : graphs.size = 5 := by
    rw [ModuleGraphs.size, ← Array.length_toList, ← List.length_map, labels]
    rfl
  obtain ⟨first, earlier, finds, _⟩ := found 4 (by omega)
  exact ⟨graphs, log, success, plain, named, ⟨first, earlier, named ▸ finds⟩, equal plain 3 4⟩

end Context

end FlowGraph
