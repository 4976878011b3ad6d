import Equational.ExpAC.Signature
import Equational.Session
import Equational.Substitution.Apply

/-! Equations in flat form. Each equation defines a variable by a variable, a constant, or an
application to variables and constants. Nested applications are named by fresh variables. -/

namespace Equational

namespace ExpAC

/-- The definitions still to be satisfied and the variables eliminated so far. -/
structure State where
  definitions : Problem := {}
  solved : Substitution := .empty

namespace State

def same (state other : State) : Bool :=
  state.definitions == other.definitions && state.solved == other.solved

/-- Takes definitions out and puts others in; trivial ones are left out. -/
def revise (state : State) (remove add : List Equation) : State :=
  { state with
    definitions := (remove.foldl Problem.erase state.definitions).insertAll (add.filter (!·.isTrivial)) }

def pairs (state : State) : List (Equation × Equation) :=
  pairsOf state.definitions.equations
where
  /-- Each equation with each later one that has an equal left side. -/
  pairsOf : List Equation → List (Equation × Equation)
    | [] => []
    | e :: rest => (rest.filter (e.lhs == ·.lhs)).map (e, ·) ++ pairsOf rest

def definitionsOf (state : State) (v : Variable) : List Equation :=
  state.definitions.equations.filter (·.lhs.asVariable == some v)

end State

/-- The equation between two flat arguments, with a variable on the left, if they differ. -/
def orient (a b : Term) : Except Failure (List Equation) :=
  if a == b then .ok []
  else
    match a, b with
    | .var v, t => .ok [⟨.var v, t⟩]
    | t, .var v => .ok [⟨.var v, t⟩]
    | .const c, .const d => .error (.constantClash c.id d.id)
    | _, _ => .error (.unsupported .nestedApplication)

/-- The definition of a flat argument; no constant equals an application. -/
def define (lhs rhs : Term) : Except Failure Equation :=
  match lhs, rhs with
  | .var v, _ => .ok ⟨.var v, rhs⟩
  | .const c, .node h _ => .error (.functionConstantClash h.id c.id)
  | _, _ => .error (.unsupported .nestedApplication)

mutual

/-- The term with its nested applications named, and the definitions of the names. -/
def flatten : Term → Problem → Search (Term × Problem)
  | .var v, out => return (.var v, out)
  | .const c, out => return (.const c, out)
  | .node f args, out => do
    let (args, out) ← flattenArguments args out
    return (.app f args, out)

def flattenArguments : List Term → Problem → Search (List Term × Problem)
  | [], out => return ([], out)
  | .node f inner :: args, out => do
    let (rhs, out) ← flatten (.node f inner) out
    let v ← Search.freshVariable f.range
    let (args, out) ← flattenArguments args (out.insert ⟨.var v, rhs⟩)
    return (.var v :: args, out)
  | arg :: args, out => do
    let (args, out) ← flattenArguments args out
    return (arg :: args, out)

end

/-- Adds an equation in flat form. Two sides that are no variables get a common name. -/
def flattenEquation (e : Equation) (out : Problem) : Search Problem := do
  if e.lhs.sort != e.rhs.sort then throw (.sortMismatch e.lhs.sort e.rhs.sort)
  match e.lhs, e.rhs with
  | .var x, t => define x t
  | t, .var x => define x t
  | s, t => do
    let v ← Search.freshVariable s.sort
    let (left, out) ← flatten s out
    let (right, out) ← flatten t out
    return (out.insert ⟨.var v, left⟩).insert ⟨.var v, right⟩
where
  define (x : Variable) (t : Term) : Search Problem := do
    let (rhs, out) ← flatten t out
    return out.insert ⟨.var x, rhs⟩

/-- The flat form of a problem. Trivial equations are left out before and after. -/
def purify (problem : Problem) : Search State := do
  let flat ← (problem.equations.filter (!·.isTrivial)).foldlM (fun out e => flattenEquation e out) {}
  return { definitions := ⟨flat.equations.filter (!·.isTrivial)⟩ }

end ExpAC

end Equational
