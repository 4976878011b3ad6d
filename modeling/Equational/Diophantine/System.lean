import Equational.Failure

/-! Homogeneous linear systems over the naturals. A row is a list of integer coefficients, and a
solution is a non-zero vector that brings every row to zero. -/

namespace Equational

structure HomogeneousSystem where
  columns : Nat
  rows : List (List Int) := []

namespace HomogeneousSystem

/-- What is left of a coefficient, and of a component of a vector, after an operation. -/
structure Arithmetic where
  coefficient : Int → Int
  component : Nat → Nat

namespace Arithmetic

/-- Numbers of any size. -/
def unbounded : Arithmetic where
  coefficient n := n
  component n := n

/-- Coefficients are words of 64 bits with a sign, components words of 32 bits without one. Both
wrap around. -/
def words : Arithmetic where
  coefficient n := (Int64.ofInt n).toInt
  component n := (UInt32.ofNat n).toNat

end Arithmetic

/-- Adds a row, filled up with zeros. A row that says nothing is left out. -/
def addRow (system : HomogeneousSystem) (row : List Int) : Except Failure HomogeneousSystem :=
  if row.length > system.columns then .error (.arityMismatch system.columns row.length)
  else if row.all (· == 0) then .ok system
  else .ok { system with rows := system.rows ++ [row ++ List.replicate (system.columns - row.length) 0] }

/-- Only the components that both lists have count. -/
def rowValue (arithmetic : Arithmetic) : List Int → List Nat → Int
  | a :: row, x :: v => arithmetic.coefficient (arithmetic.coefficient (a * Int.ofNat x) + rowValue arithmetic row v)
  | _, _ => 0

/-- How far the vector is from a solution, row by row. -/
def defect (system : HomogeneousSystem) (arithmetic : Arithmetic) (v : List Nat) : List Int :=
  system.rows.map (rowValue arithmetic · v)

def isSolution (system : HomogeneousSystem) (arithmetic : Arithmetic) (v : List Nat) : Bool :=
  v.any (0 < ·) && (system.defect arithmetic v).all (· == 0)

end HomogeneousSystem

end Equational
