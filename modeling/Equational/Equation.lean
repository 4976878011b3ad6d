import Equational.Term.Application
import Equational.Term.Hash

/-! Equations between terms, compared side by side modulo the laws of the symbols. -/

namespace Equational

structure Equation where
  lhs : Term
  rhs : Term
  deriving BEq

namespace Equation

def isTrivial (equation : Equation) : Bool :=
  equation.lhs == equation.rhs

def swapped (equation : Equation) : Equation :=
  ⟨equation.rhs, equation.lhs⟩

def vars (equation : Equation) : List Variable :=
  equation.lhs.vars ++ equation.rhs.vars

def contains (equation : Equation) (v : Variable) : Bool :=
  equation.lhs.contains v || equation.rhs.contains v

def size (equation : Equation) : Nat :=
  equation.lhs.size + equation.rhs.size

/-- What an equation writes to a hasher. -/
def written (digest : List Nat → UInt64) (equation : Equation) : List Nat :=
  equation.lhs.written digest ++ equation.rhs.written digest

instance : Hashable Equation := ⟨fun equation => Term.mix (equation.written Term.mix)⟩

def display (naming : Naming) (equation : Equation) : String :=
  equation.lhs.display naming ++ " =? " ++ equation.rhs.display naming

end Equation

end Equational
