/-! Symbols are compared by number. Variables, constants, function symbols and sorts are
numbered separately, so the same number of two kinds has nothing to do with each other.
A function symbol carries its arity, its sorts and the laws its applications obey. -/

namespace Equational

structure VariableId where
  index : Nat
  deriving DecidableEq

structure ConstantId where
  index : Nat
  deriving DecidableEq

structure FunctionId where
  index : Nat
  deriving DecidableEq

structure SortId where
  index : Nat
  deriving DecidableEq

/-- The sort of every symbol declared without one. -/
def SortId.default : SortId := ⟨0⟩

/-- The laws of a symbol's applications. A free symbol obeys none. -/
inductive SymbolTheory where
  | free
  | associative
  | commutative
  | associativeCommutative
  | idempotent
  deriving DecidableEq

namespace SymbolTheory

def isAssociative : SymbolTheory → Bool
  | associative | associativeCommutative => true
  | _ => false

def isCommutative : SymbolTheory → Bool
  | commutative | associativeCommutative => true
  | _ => false

end SymbolTheory

/-- A variable of one name may occur in several sorts; these are different variables. -/
structure Variable where
  id : VariableId
  sort : SortId
  deriving DecidableEq

structure Constant where
  id : ConstantId
  sort : SortId
  deriving DecidableEq

/-- All arguments have sort `domain`, every application has sort `range`. -/
structure FunctionSymbol where
  id : FunctionId
  arity : Nat
  theory : SymbolTheory
  domain : SortId
  range : SortId
  deriving DecidableEq

def VariableId.label (id : VariableId) : String := "V" ++ toString id.index

def ConstantId.label (id : ConstantId) : String := "C" ++ toString id.index

def FunctionId.label (id : FunctionId) : String := "F" ++ toString id.index

def SortId.label (id : SortId) : String := "S" ++ toString id.index

end Equational
