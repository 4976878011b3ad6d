import Equational.Substitution.Apply

/-! The steps of syntactic unification. Two terms are compared by their roots, and what is
still asked of them is nothing, one binding, or equations between their arguments. -/

namespace Equational

/-- What two terms with different roots or arguments still ask for. -/
inductive Demand where
  | nothing
  | binding (v : Variable) (t : Term)
  | equations (pending : List Equation)

namespace Demand

/-- A variable can stand for another term of its sort in which it does not occur. -/
def bind (v : Variable) (t : Term) : Except Failure Demand :=
  if v.sort != t.sort then .error (.sortMismatch v.sort t.sort)
  else if t.contains v then .error (.occursCheck v t)
  else .ok (.binding v t)

/-- What it takes to make two terms equal, judged by their roots. Arguments are paired in
order whatever the laws of the symbol. -/
def between (s t : Term) : Except Failure Demand :=
  if s == t then .ok .nothing
  else
    match s, t with
    | .var v, t => bind v t
    | s, .var v => bind v s
    | .const c, .const d => .error (.constantClash c.id d.id)
    | .node f _, .const c => .error (.functionConstantClash f.id c.id)
    | .const c, .node f _ => .error (.functionConstantClash f.id c.id)
    | .node f xs, .node g ys =>
      if f.id != g.id then .error (.functionClash f.id g.id)
      else if xs.length != ys.length then .error (.arityMismatch xs.length ys.length)
      else .ok (.equations (List.zipWith Equation.mk xs ys))

theorem between_eq_binding {s t u : Term} {v : Variable} (found : between s t = .ok (.binding v u)) :
    (s = .var v ∧ u = t ∨ t = .var v ∧ u = s) ∧ v ∉ u.vars := by
  unfold between bind at found
  split at found
  · simp at found
  · split at found <;> (repeat' split at found) <;> simp_all [Term.contains]

theorem between_eq_equations {s t : Term} {pending : List Equation}
    (found : between s t = .ok (.equations pending)) :
    ∃ f g xs ys, s = .node f xs ∧ t = .node g ys ∧ pending = List.zipWith Equation.mk xs ys := by
  unfold between bind at found
  split at found
  · simp at found
  · split at found <;> (repeat' split at found) <;> simp at found
    exact ⟨_, _, _, _, rfl, rfl, found.symm⟩

end Demand

end Equational
