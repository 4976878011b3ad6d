import Equational.Term.Basic

/-! The written form of terms. A `Naming` says what a number is called, so the same printer
serves names and bare numbers. -/

namespace Equational

structure Naming where
  ofVariable : VariableId → String
  ofConstant : ConstantId → String
  ofFunction : FunctionId → String

/-- Symbols are called by kind and number, such as `V0` and `F2`. -/
def Naming.numbers : Naming :=
  ⟨VariableId.label, ConstantId.label, FunctionId.label⟩

namespace Term

mutual

def display (naming : Naming) : Term → String
  | var v => naming.ofVariable v.id
  | const c => naming.ofConstant c.id
  | node f args => naming.ofFunction f.id ++ "(" ++ ", ".intercalate (displayList naming args) ++ ")"

def displayList (naming : Naming) : List Term → List String
  | [] => []
  | arg :: args => arg.display naming :: displayList naming args

end

end Term

/-- The layout of a collection: one entry stays on its line, several get a line each. -/
def displayBlock : List String → String
  | [] => "\x7b\x7d"
  | [entry] => "\x7b " ++ entry ++ " \x7d"
  | entries => "\x7b\n" ++ ",\n".intercalate (entries.map ("  " ++ ·)) ++ "\n\x7d"

end Equational
