import Equational.Term.Display

/-! Name tables. A name gets the next number when it is first seen and keeps it; the four kinds
of names do not share numbers. A function symbol is whatever its first declaration says. -/

namespace Equational

structure NameTable where
  names : List String := []

namespace NameTable

def index? (table : NameTable) (name : String) : Option Nat :=
  table.names.idxOf? name

def contains (table : NameTable) (name : String) : Bool :=
  table.names.contains name

def size (table : NameTable) : Nat :=
  table.names.length

/-- The number of the name, entered at the end if it is new. -/
def intern (table : NameTable) (name : String) : Nat × NameTable :=
  match table.index? name with
  | some i => (i, table)
  | none => (table.size, ⟨table.names ++ [name]⟩)

/-- Numbers never issued are all called `?`. -/
def resolve (table : NameTable) (i : Nat) : String :=
  table.names[i]?.getD "?"

end NameTable

structure Interner where
  variableTable : NameTable
  constantTable : NameTable
  functionTable : NameTable
  sortTable : NameTable
  /-- Symbols under their numbers, the last one declared first. -/
  declared : List (FunctionId × FunctionSymbol)

namespace Interner

/-- The default sort is called `term` and has the number that `SortId.default` expects. -/
def empty : Interner where
  variableTable := {}
  constantTable := {}
  functionTable := {}
  sortTable := ⟨["term"]⟩
  declared := []

def internSort (interner : Interner) (name : String) : SortId × Interner :=
  let (i, sortTable) := interner.sortTable.intern name
  (⟨i⟩, { interner with sortTable })

def internVariable (interner : Interner) (name : String) : VariableId × Interner :=
  let (i, variableTable) := interner.variableTable.intern name
  (⟨i⟩, { interner with variableTable })

def internConstant (interner : Interner) (name : String) : ConstantId × Interner :=
  let (i, constantTable) := interner.constantTable.intern name
  (⟨i⟩, { interner with constantTable })

def internFunction (interner : Interner) (name : String) : FunctionId × Interner :=
  let (i, functionTable) := interner.functionTable.intern name
  (⟨i⟩, { interner with functionTable })

def addVariable (interner : Interner) (name : String) (sort : SortId := .default) : Variable × Interner :=
  let (id, interner) := interner.internVariable name
  (⟨id, sort⟩, interner)

def addConstant (interner : Interner) (name : String) (sort : SortId := .default) : Constant × Interner :=
  let (id, interner) := interner.internConstant name
  (⟨id, sort⟩, interner)

def symbol? (interner : Interner) (id : FunctionId) : Option FunctionSymbol :=
  (interner.declared.find? fun (number, _) => number == id).map fun (_, symbol) => symbol

/-- Declares a function symbol. A name declared before keeps its symbol. -/
def declare (interner : Interner) (name : String) (arity : Nat) (theory : SymbolTheory)
    (domain range : SortId := .default) : FunctionSymbol × Interner :=
  let (id, interner) := interner.internFunction name
  match interner.symbol? id with
  | some symbol => (symbol, interner)
  | none =>
    let symbol : FunctionSymbol := { id, arity, theory, domain, range }
    (symbol, { interner with declared := (id, symbol) :: interner.declared })

def variableName (interner : Interner) (id : VariableId) : String :=
  interner.variableTable.resolve id.index

def constantName (interner : Interner) (id : ConstantId) : String :=
  interner.constantTable.resolve id.index

def functionName (interner : Interner) (id : FunctionId) : String :=
  interner.functionTable.resolve id.index

def sortName (interner : Interner) (id : SortId) : String :=
  interner.sortTable.resolve id.index

def variableCount (interner : Interner) : Nat :=
  interner.variableTable.size

def naming (interner : Interner) : Naming :=
  ⟨interner.variableName, interner.constantName, interner.functionName⟩

end Interner

end Equational
