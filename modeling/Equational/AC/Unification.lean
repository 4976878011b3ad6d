import Equational.AC.Basis
import Equational.Limits
import Equational.Unification.Syntactic

/-! Unification modulo one associative-commutative symbol. Equations without it are solved
syntactically first; the others become one linear system whose minimal solutions are combined
in every way that covers the atoms. -/

namespace Equational

namespace AC

/-- Subsets are numbered in one machine word. -/
def maxVectors : Nat := 63

def holdsUnder (θ : Substitution) (e : Equation) : Bool :=
  θ.apply e.lhs == θ.apply e.rhs

/-- The usable solution vectors of the equations, one column for each atom. -/
def solutionVectors (limits : Limits) (f : FunctionSymbol) (equations : List Equation) (atoms : List Term) :
    Except Failure (List (List Nat)) := do
  let system ← equations.foldlM
    (fun (system : HomogeneousSystem) e => system.addRow (atoms.map (balance f e))) { columns := atoms.length }
  let vectors := (← system.minimalSolutions .unbounded limits.acMaxFrontier).filter (isUsable atoms)
  let limit := min limits.acMaxBasis maxVectors
  if vectors.length > limit then throw (.limitReached (.basis vectors.length limit))
  return vectors

/-- The solutions of equations that all have `f` at the root of a side, each composed with `base`. -/
def combine (limits : Limits) (f : FunctionSymbol) (base : Substitution) (equations : List Equation) :
    Search (List Substitution) := do
  Search.ofExcept do
    equations.forM (checkSides f)
    (equations.flatMap (membersOf f)).forM (checkAtom f)
  let atoms := activeAtoms f equations
  let vectors ← Search.ofExcept (solutionVectors limits f equations atoms)
  let shares ← vectors.mapM (share f atoms)
  let unifiers := (choices (isPromising atoms) shares.reverse []).filterMap fun chosen => do
    if chosen.isEmpty then none
    let θ ← assemble f chosen 0 atoms .empty
    if equations.all (holdsUnder θ) then some (base.compose θ) else none
  if unifiers.isEmpty then throw (.unsatisfiable .noCombination)
  return unifiers

/-- Solves the equations: those without the symbol first, and the others under their unifier. -/
def solve (limits : Limits) (equations : List Equation) : Search (List Substitution) := do
  let equations := equations.filter (!·.isTrivial)
  match ← Search.ofExcept (combiner? equations) with
  | none => return [← Search.ofExcept (unifyAll equations)]
  | some f =>
    let (rooted, others) := equations.partition (isRooted f)
    if others.any (occursIn f) then throw (.unsupported .combinerBelowOther)
    let base ← Search.ofExcept (unifyAll others)
    let rooted := (rooted.map base.applyEquation).filter (!·.isTrivial)
    if rooted.isEmpty then return [base]
    combine limits f base rooted

end AC

namespace Problem

def unifyAC (limits : Limits) (problem : Problem) (interner : Interner) :
    Except Failure (List Substitution) × Interner :=
  (AC.solve limits problem.equations).run limits.freshStem interner

end Problem

end Equational
