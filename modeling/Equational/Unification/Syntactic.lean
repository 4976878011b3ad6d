import Equational.Unification.Worklist

/-! Syntactic unification. Equations are taken from a worklist and compared under the bindings
found so far; two applications give way to the equations between their arguments, and a
variable that meets another term is bound to it. -/

namespace Equational

namespace Unifier

def solve (scope : List Variable) (σ : Substitution) (work : List Equation) (inv : Invariant scope σ work) :
    Except Failure Substitution :=
  match work with
  | [] => .ok σ
  | e :: rest =>
    match found : Demand.between (σ.apply e.lhs) (σ.apply e.rhs) with
    | .error failure => .error failure
    | .ok .nothing => solve scope σ rest inv.tail
    | .ok (.binding v t) =>
      have facts := inv.binding found
      solve scope (σ.assign v t facts.unbound) rest (inv.assign facts.unbound facts.fresh facts.free facts.inScope)
    | .ok (.equations pending) =>
      have shape := Demand.between_eq_equations found
      solve scope σ (pending ++ rest) (by
        obtain ⟨f, g, xs, ys, left, right, rfl⟩ := shape
        exact inv.decompose left right)
termination_by (unbound scope σ, weight σ work)
decreasing_by
  · exact .right _ weight_tail_lt
  · exact .left _ _ (unbound_assign_lt facts.unbound facts.variableInScope)
  · obtain ⟨f, g, xs, ys, left, right, rfl⟩ := shape
    exact .right _ (weight_decompose_lt inv left right)

end Unifier

/-- A most general unifier of all the equations over free symbols. The laws of other symbols may
admit unifiers that it does not cover. -/
def unifyAll (equations : List Equation) : Except Failure Substitution :=
  Unifier.solve (equations.flatMap Equation.vars) .empty equations (.initial equations)

def unify (s t : Term) : Except Failure Substitution :=
  unifyAll [⟨s, t⟩]

end Equational
