import Equational.AC.Unification
import Equational.ExpAC.Branching
import Equational.ExpAC.Saturation

/-! Unification modulo exponentiation. A saturated state without alternatives is solved: what it
says about the combiner is a problem modulo associativity and commutativity, and the rest are
definitions, which are closed syntactically. -/

namespace Equational

namespace ExpAC

/-- The distinct unifiers found on several paths, and the first failure met. -/
structure Harvest where
  unifiers : List Substitution := []
  failure? : Option Failure := none

namespace Harvest

def insert (harvest : Harvest) (σ : Substitution) : Harvest :=
  if harvest.unifiers.contains σ then harvest else { harvest with unifiers := harvest.unifiers ++ [σ] }

/-- Takes in the outcome of one path. A reached limit ends the whole search. -/
def add (harvest : Harvest) : Except Failure (List Substitution) → Except Failure Harvest
  | .ok found => .ok (found.foldl insert harvest)
  | .error (.limitReached limit) => .error (.limitReached limit)
  | .error failure => .ok { harvest with failure? := harvest.failure?.or (some failure) }

/-- All paths together fail only if none has a unifier. -/
def result (harvest : Harvest) : Except Failure (List Substitution) :=
  if harvest.unifiers.isEmpty then .error (harvest.failure?.getD (.unsatisfiable .noBranch))
  else .ok harvest.unifiers

end Harvest

variable (setting : Setting)

/-- An application of the combiner whose variable the other such definitions do not mention, and
which does not mention it itself, is solved as it stands. -/
def isSeparate (combined : List Equation) (e : Equation) : Bool :=
  e.lhs.asVariable.any fun x => !e.rhs.contains x && combined.all fun other => other == e || !other.contains x

def closeWith (closing : List Equation) (θ : Substitution) : Except Failure Substitution := do
  let σ ← unifyAll (closing.map θ.applyEquation)
  return (θ.compose σ).restrict setting.scope

def close (state : State) : Search (List Substitution) := do
  let (combined, definitions) :=
    state.definitions.equations.partition (·.rhs.isRootedAt setting.signature.f.id)
  let (separate, residual) := combined.partition (isSeparate combined)
  let thetas ← if residual.isEmpty then pure [.empty] else AC.solve setting.limits residual
  let closing := definitions ++ separate ++ state.solved.toProblem.equations
  Search.ofExcept do
    let harvest ← thetas.foldlM
      (fun (harvest : Harvest) θ => harvest.add ((closeWith setting closing θ).map ([·]))) {}
    harvest.result

/-- Settles the state, tries every alternative in turn, and closes the states without any. -/
def branch : Nat → State → Search (List Substitution)
  | 0, _ => throw (stepsExhausted setting)
  | fuel + 1, state => do
    let state ← settle setting (rounds setting) state
    match ← state.alternatives setting.signature with
    | none => close setting (← exhaust setting [.eliminate] state)
    | some alternatives =>
      let harvest ← alternatives.foldlM
        (fun (harvest : Harvest) alternative => do
          tick setting
          let outcome ← Search.attempt (do branch fuel (← Search.ofExcept alternative))
          Search.ofExcept (harvest.add outcome))
        {}
      Search.ofExcept harvest.result

/-- All unifiers of the problem, restricted to its variables. -/
def solve (problem : Problem) : Search (List Substitution) := do
  let state ← prepare setting (← purify problem)
  branch setting (rounds setting) state

end ExpAC

namespace Problem

def unifyExpAC (limits : Limits) (signature : ExpAC.Signature) (problem : Problem) (interner : Interner) :
    Except Failure (List Substitution) × Interner :=
  (ExpAC.solve { limits, signature, scope := problem.vars } problem).run limits.freshStem interner

end Problem

end Equational
