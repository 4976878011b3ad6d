import Equational.ExpAC.State
import Equational.Limits

/-! States that can have no solution: two definitions of a variable that never agree, or a
variable defined through itself. -/

namespace Equational

namespace ExpAC

/-- Right sides of one variable that can never be equal. Only a power may equal an application
of a different symbol, namely of `g`. -/
def checkCompatible (signature : Signature) : Term → Term → Except Failure Unit
  | .const c, .const d => if c != d then .error (.constantClash c.id d.id) else .ok ()
  | .node h _, .const c => .error (.functionConstantClash h.id c.id)
  | .const c, .node h _ => .error (.functionConstantClash h.id c.id)
  | .node h₁ _, .node h₂ _ =>
    let distributes := h₁.id == signature.exp.id && h₂.id == signature.g.id ||
      h₁.id == signature.g.id && h₂.id == signature.exp.id
    if h₁.id == h₂.id || distributes then .ok () else .error (.functionClash h₁.id h₂.id)
  | _, _ => .ok ()

structure Dependency where
  defined : Variable
  uses : List Variable

def usesOf (v : Variable) (dependencies : List Dependency) : List Variable :=
  (dependencies.filter (·.defined == v)).flatMap Dependency.uses

def without (v : Variable) (dependencies : List Dependency) : List Dependency :=
  dependencies.filter (·.defined != v)

def totalUses : List Dependency → Nat
  | [] => 0
  | d :: dependencies => d.uses.length + totalUses dependencies

theorem totalUses_without_add (v : Variable) (dependencies : List Dependency) :
    totalUses (without v dependencies) + (usesOf v dependencies).length = totalUses dependencies := by
  induction dependencies with
  | nil => rfl
  | cons d dependencies ih =>
    by_cases same : d.defined = v <;> simp [totalUses, without, usesOf, same] at ih ⊢ <;> omega

/-- Whether the target is among the pending variables or in what they depend on. The definitions
of a variable are used up when it is visited. -/
def reaches (target : Variable) (unused : List Dependency) (pending : List Variable) : Bool :=
  match pending with
  | [] => false
  | v :: pending => v == target || reaches target (without v unused) (usesOf v unused ++ pending)
termination_by totalUses unused + pending.length
decreasing_by
  have := totalUses_without_add v unused
  simp only [List.length_append, List.length_cons]
  omega

namespace State

/-- What each definition depends on. A variable defined as a variable is a mere alias. -/
def dependencies (state : State) : List (Dependency × Term) :=
  state.definitions.equations.filterMap fun e =>
    match e.lhs with
    | .var x => if e.rhs.isVariable then none else some (⟨x, e.rhs.vars⟩, e.rhs)
    | _ => none

/-- The first definition through which its variable depends on itself fails. -/
def checkAcyclic (state : State) : Except Failure Unit :=
  let dependencies := state.dependencies
  let all := dependencies.map Prod.fst
  match dependencies.find? fun p => reaches p.1.defined all p.1.uses with
  | some (d, rhs) => .error (.occursCheck d.defined rhs)
  | none => .ok ()

/-- The number of definitions, their agreement and their order, checked in this sequence. -/
def validate (limits : Limits) (signature : Signature) (state : State) : Except Failure Unit := do
  if state.definitions.size > limits.expMaxEquations then
    throw (.limitReached (.equations limits.expMaxEquations))
  state.pairs.forM fun p => checkCompatible signature p.1.rhs p.2.rhs
  state.checkAcyclic

end State

end ExpAC

end Equational
