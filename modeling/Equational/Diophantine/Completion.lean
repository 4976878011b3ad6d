import Equational.Diophantine.System
import Equational.Diophantine.VectorSet

/-! The minimal solutions of a homogeneous system, found by completion. Candidates start at the
unit vectors and grow by one unit at a time, but only in directions that lead the defect back
towards zero, and never beyond a known solution. -/

namespace Equational

namespace HomogeneousSystem

def unit (columns j : Nat) : List Nat :=
  (List.replicate columns 0).set j 1

/-- The defects of the unit vectors, with their numbers. -/
def unitDefects (system : HomogeneousSystem) : List (Nat × List Int) :=
  (List.range system.columns).map fun j => (j, system.rows.map (·.getD j 0))

def dot (arithmetic : Arithmetic) : List Int → List Int → Int
  | a :: as, b :: bs => arithmetic.coefficient (arithmetic.coefficient (a * b) + dot arithmetic as bs)
  | _, _ => 0

def dominates : List Nat → List Nat → Bool
  | a :: v, b :: w => b ≤ a && dominates v w
  | _, _ => true

/-- The candidates one unit larger whose new unit points back towards the origin. -/
def successors (system : HomogeneousSystem) (arithmetic : Arithmetic) (units : List (Nat × List Int)) (v : List Nat) :
    List (List Nat) :=
  let defect := system.defect arithmetic v
  units.filterMap fun (j, unitDefect) =>
    if dot arithmetic defect unitDefect < 0 then some (v.modify j fun x => arithmetic.component (x + 1)) else none

/-- Drops repetitions of earlier vectors. -/
def distinct (seen : VectorSet) : List (List Nat) → List (List Nat)
  | [] => []
  | v :: vs => if seen.contains v then distinct seen vs else v :: distinct (seen.insert v) vs

/-- The solutions found and the candidates that may still grow into one. -/
structure Completion where
  basis : List (List Nat)
  frontier : List (List Nat)

def start (system : HomogeneousSystem) : Completion where
  basis := []
  frontier := (List.range system.columns).map (unit system.columns)

/-- One round: candidates that solve the system join the basis, the others grow. -/
def round (system : HomogeneousSystem) (arithmetic : Arithmetic) (state : Completion) : Completion :=
  let (solutions, unsolved) := state.frontier.partition (system.isSolution arithmetic)
  let basis := state.basis ++ solutions
  let grown := unsolved.flatMap (system.successors arithmetic system.unitDefects)
  { basis, frontier := distinct .empty (grown.filter fun v => !basis.any (dominates v)) }

instance : Nonempty (Except Failure (List (List Nat))) := ⟨.ok []⟩

/-- Runs rounds until no candidate is left. A round may leave at most `maxFrontier` of them, but any
number of rounds may be run: where none is the last, nothing is known of the outcome. -/
def complete (system : HomogeneousSystem) (arithmetic : Arithmetic) (maxFrontier : Nat) (state : Completion) :
    Except Failure (List (List Nat)) :=
  if state.frontier.isEmpty then .ok state.basis
  else
    let next := system.round arithmetic state
    if next.frontier.length > maxFrontier then .error (.limitReached (.frontier maxFrontier))
    else system |>.complete arithmetic maxFrontier next
partial_fixpoint

/-- All minimal non-zero solutions, in the order they are found. -/
def minimalSolutions (system : HomogeneousSystem) (arithmetic : Arithmetic) (maxFrontier : Nat) :
    Except Failure (List (List Nat)) :=
  system.complete arithmetic maxFrontier system.start

end HomogeneousSystem

end Equational
