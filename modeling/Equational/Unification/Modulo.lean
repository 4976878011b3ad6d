import Equational.ExpAC.Unification
import Equational.Unification.Constrained

/-! One entry for all theories that a problem can be solved in. -/

namespace Equational

inductive Theory where
  | syntactic
  | constrained (constraints : Constraints)
  | associativeCommutative
  | expAC (signature : ExpAC.Signature)

def Theory.name : Theory → String
  | syntactic => "syntactic"
  | constrained _ => "constrained"
  | associativeCommutative => "ac"
  | expAC _ => "exp-ac"

/-- The unifiers of the problem modulo the theory, never an empty list. Only the last two
theories draw fresh names, and only they may need more than one unifier. -/
def Problem.unifyModulo (limits : Limits) (theory : Theory) (problem : Problem) (interner : Interner) :
    Except Failure (List Substitution) × Interner :=
  match theory with
  | .syntactic => ((unifyAll problem.equations).map ([·]), interner)
  | .constrained constraints => ((unifyAllWithin constraints problem.equations).map ([·]), interner)
  | .associativeCommutative => problem.unifyAC limits interner
  | .expAC signature => problem.unifyExpAC limits signature interner

end Equational
