import Equational.Equation

/-! Unification problems: sets of equations modulo the laws of the symbols, kept in the order in
which they were first stated. -/

namespace Equational

structure Problem where
  equations : List Equation := []

namespace Problem

def contains (problem : Problem) (equation : Equation) : Bool :=
  problem.equations.contains equation

/-- Adds the equation at the end unless an equal one is stated already. -/
def insert (problem : Problem) (equation : Equation) : Problem :=
  if problem.contains equation then problem else ⟨problem.equations ++ [equation]⟩

/-- Drops the equation equal to the given one; the others keep their order. -/
def erase (problem : Problem) (equation : Equation) : Problem :=
  ⟨problem.equations.erase equation⟩

def add (problem : Problem) (equation : Equation) : Bool × Problem :=
  (!problem.contains equation, problem.insert equation)

def push (problem : Problem) (lhs rhs : Term) : Bool × Problem :=
  problem.add ⟨lhs, rhs⟩

def remove (problem : Problem) (equation : Equation) : Bool × Problem :=
  (problem.contains equation, problem.erase equation)

def insertAll (problem : Problem) (equations : List Equation) : Problem :=
  equations.foldl insert problem

def ofList (equations : List Equation) : Problem :=
  insertAll {} equations

def size (problem : Problem) : Nat :=
  problem.equations.length

def isEmpty (problem : Problem) : Bool :=
  problem.equations.isEmpty

def vars (problem : Problem) : List Variable :=
  (problem.equations.flatMap Equation.vars).eraseDups

/-- Two problems are the same set of equations, in whatever order. -/
def sameSet (problem other : Problem) : Bool :=
  problem.size == other.size && problem.equations.all other.contains

instance : BEq Problem := ⟨sameSet⟩

def display (naming : Naming) (problem : Problem) : String :=
  if problem.isEmpty then "\x7b\x7d"
  else "\x7b " ++ ", ".intercalate (problem.equations.map (Equation.display naming)) ++ " \x7d"

end Problem

end Equational
