import Equational.ExpAC.State

/-! The rules that simplify flat definitions. Each looks at one definition or at two definitions
of one variable, and puts definitions of their parts in the place of one of them. -/

namespace Equational

namespace ExpAC

inductive Rule where
  /-- A variable defined as a variable is replaced by it everywhere. -/
  | eliminate
  /-- Powers of one base have equal exponents. -/
  | sameBase
  /-- Powers with one exponent have equal bases. -/
  | sameExponent
  /-- Two applications of `g` have equal arguments. -/
  | mergePairs
  /-- Two applications of one free symbol have equal arguments. -/
  | decompose
  /-- A power that is an application of `g` is taken argument by argument. -/
  | distribute
  /-- A power of a power has a combined exponent. -/
  | compose
  deriving DecidableEq

namespace Rule

def merging : List Rule := [sameBase, sameExponent, mergePairs, decompose]

def mergingAndDistributing : List Rule := merging ++ [distribute]

end Rule

namespace State

/-- Two definitions of one variable by powers, with base and exponent of each. -/
structure Powers where
  first : Equation
  second : Equation
  base₁ : Term
  exponent₁ : Term
  base₂ : Term
  exponent₂ : Term

inductive Part where
  | base
  | exponent

def Part.other : Part → Part
  | base => exponent
  | exponent => base

namespace Powers

variable (p : Powers)

def part₁ : Part → Term
  | .base => p.base₁
  | .exponent => p.exponent₁

def part₂ : Part → Term
  | .base => p.base₂
  | .exponent => p.exponent₂

def swapped : Powers :=
  ⟨p.second, p.first, p.base₂, p.exponent₂, p.base₁, p.exponent₁⟩

end Powers

variable (signature : Signature) (state : State)

def powerPairs : List Powers :=
  state.pairs.filterMap fun (e₁, e₂) => do
    let (base₁, exponent₁) ← signature.expParts e₁.rhs
    let (base₂, exponent₂) ← signature.expParts e₂.rhs
    return ⟨e₁, e₂, base₁, exponent₁, base₂, exponent₂⟩

def eliminate : Except Failure (Option State) :=
  match state.definitions.equations.findSome? fun e =>
      match e.lhs, e.rhs with
      | .var x, .var y => some (x, y, e)
      | _, _ => none with
  | none => .ok none
  | some (x, y, e) => do
    let binding ← Substitution.singleton x (.var y)
    let others := state.definitions.equations.filter (· != e)
    return some {
      definitions := .ofList ((others.map binding.applyEquation).filter (!·.isTrivial))
      solved := state.solved.compose binding }

/-- Powers that share one part have equal other parts. -/
def mergePowers (shared : Part) : Except Failure (Option State) :=
  match (state.powerPairs signature).find? fun p => p.part₁ shared == p.part₂ shared with
  | none => .ok none
  | some p => return some (state.revise [p.second] (← orient (p.part₁ shared.other) (p.part₂ shared.other)))

def mergePairs : Except Failure (Option State) :=
  match state.pairs.findSome? fun (e₁, e₂) => do
      let (u₁, v₁) ← signature.gParts e₁.rhs
      let (u₂, v₂) ← signature.gParts e₂.rhs
      return (e₂, u₁, v₁, u₂, v₂) with
  | none => .ok none
  | some (e₂, u₁, v₁, u₂, v₂) => do
    let firsts ← orient u₁ u₂
    let seconds ← orient v₁ v₂
    return some (state.revise [e₂] (firsts ++ seconds))

def decompose : Except Failure (Option State) :=
  match state.pairs.findSome? fun (e₁, e₂) =>
      match e₁.rhs, e₂.rhs with
      | .node h₁ xs, .node h₂ ys =>
        if h₁.id == h₂.id && !signature.isReserved h₁.id then some (e₂, xs, ys) else none
      | _, _ => none with
  | none => .ok none
  | some (e₂, xs, ys) => do
    if xs.length != ys.length then throw (.arityMismatch xs.length ys.length)
    let added ← (xs.zip ys).mapM fun (x, y) => orient x y
    return some (state.revise [e₂] added.flatten)

/-- From `x = exp(s, t)` and `x = g(u, v)` follow `s = g(v₁, v₂)`, `u = exp(v₁, t)` and `v = exp(v₂, t)`. -/
def distribute : Search (Option State) := do
  let found := state.pairs.findSome? fun (e₁, e₂) =>
    match signature.expParts e₁.rhs, signature.gParts e₂.rhs with
    | some power, some pair => some (e₂, power, pair)
    | _, _ =>
      match signature.gParts e₁.rhs, signature.expParts e₂.rhs with
      | some pair, some power => some (e₁, power, pair)
      | _, _ => none
  match found with
  | none => return none
  | some (removed, (s, t), (u, v)) =>
    let v₁ := Term.var (← Search.freshVariable signature.g.domain)
    let v₂ := Term.var (← Search.freshVariable signature.g.domain)
    Search.ofExcept do
      let base ← define s (.app signature.g [v₁, v₂])
      let first ← define u (signature.power v₁ t)
      let second ← define v (signature.power v₂ t)
      return some (state.revise [removed] [base, first, second])

/-- From `x = exp(y, t₁)` and `y = exp(s, t₂)` follow `x = exp(s, z)` and `z = f(t₂, t₁)`. -/
def composeExponents : Search (Option State) := do
  let found := state.definitions.equations.findSome? fun outer =>
    match signature.expParts outer.rhs with
    | some (.var y, t₁) =>
      (state.definitionsOf y).findSome? fun inner =>
        (signature.expParts inner.rhs).map fun (s, t₂) => (outer, s, t₁, t₂)
    | _ => none
  match found with
  | none => return none
  | some (outer, s, t₁, t₂) =>
    let z := Term.var (← Search.freshVariable signature.f.range)
    return some (state.revise [outer] [⟨outer.lhs, signature.power s z⟩, ⟨z, signature.combine t₂ t₁⟩])

def apply : Rule → Search (Option State)
  | .eliminate => Search.ofExcept state.eliminate
  | .sameBase => Search.ofExcept (state.mergePowers signature .base)
  | .sameExponent => Search.ofExcept (state.mergePowers signature .exponent)
  | .mergePairs => Search.ofExcept (state.mergePairs signature)
  | .decompose => Search.ofExcept (state.decompose signature)
  | .distribute => state.distribute signature
  | .compose => state.composeExponents signature

end State

end ExpAC

end Equational
