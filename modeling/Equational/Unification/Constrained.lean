import Equational.Unification.Syntactic

/-! Unification in which some variables may stand for listed terms only. A constrained variable
may still be bound to another variable, which can be instantiated later. -/

namespace Equational

structure Constraints where
  entries : List (Variable × List Term) := []

namespace Constraints

def set (constraints : Constraints) (v : Variable) (allowed : List Term) : Constraints :=
  ⟨(v, allowed) :: constraints.entries.filter (·.1 != v)⟩

def allows (constraints : Constraints) (v : Variable) (t : Term) : Bool :=
  t.isVariable || (constraints.entries.lookup v).all (·.contains t)

/-- The first binding that is not allowed fails the substitution. -/
def check (constraints : Constraints) (σ : Substitution) : Except Failure Unit :=
  match σ.bindings.find? fun p => !constraints.allows p.1 p.2 with
  | some (v, t) => .error (.unsatisfiable (.notAllowed v t))
  | none => .ok ()

end Constraints

def unifyAllWithin (constraints : Constraints) (equations : List Equation) : Except Failure Substitution := do
  let σ ← unifyAll equations
  constraints.check σ
  return σ

/-- The most general unifier, provided that its bindings are allowed. -/
def unifyWithin (constraints : Constraints) (s t : Term) : Except Failure Substitution :=
  unifyAllWithin constraints [⟨s, t⟩]

end Equational
