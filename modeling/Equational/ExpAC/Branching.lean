import Equational.ExpAC.Rule

/-! Branching. Powers `x = exp(s₁, t₁)` and `x = exp(s₂, t₂)` that differ in base and exponent can be
equal in four ways: one base is a power of the other, in either direction, or the powers agree
part by part, or both are powers of a third base. -/

namespace Equational

namespace ExpAC

namespace State

variable (signature : Signature) (state : State) (p : Powers)

/-- Adds `s₁ = exp(s₂, z)` and `t₂ = f(z, t₁)`. -/
def baseIsPower (z : Term) : Except Failure State := do
  let base ← define p.base₁ (signature.power p.base₂ z)
  let exponent ← define p.exponent₂ (signature.combine z p.exponent₁)
  return state.revise [p.first] [base, exponent]

/-- Adds `s₁ = s₂` and `t₁ = t₂`. -/
def partsAgree : Except Failure State := do
  let bases ← orient p.base₁ p.base₂
  let exponents ← orient p.exponent₁ p.exponent₂
  return state.revise [p.second] (bases ++ exponents)

/-- Adds `x = exp(b, l)`, `s₁ = exp(b, y)`, `s₂ = exp(b, w)`, `l = f(t₁, y)` and `l = f(t₂, w)`. -/
def commonBase (b l y w : Term) : Except Failure State := do
  let first ← define p.base₁ (signature.power b y)
  let second ← define p.base₂ (signature.power b w)
  return state.revise [p.first, p.second] [
    ⟨p.first.lhs, signature.power b l⟩, first, second,
    ⟨l, signature.combine p.exponent₁ y⟩, ⟨l, signature.combine p.exponent₂ w⟩]

/-- The ways in which the first two powers with different bases and exponents can be equal. A way
that has no flat form is a failure. -/
def alternatives : Search (Option (List (Except Failure State))) := do
  match (state.powerPairs signature).find? fun p => p.base₁ != p.base₂ && p.exponent₁ != p.exponent₂ with
  | none => return none
  | some p =>
    let z := Term.var (← Search.freshVariable signature.f.range)
    let z' := Term.var (← Search.freshVariable signature.f.range)
    let b := Term.var (← Search.freshVariable signature.exp.domain)
    let l := Term.var (← Search.freshVariable signature.f.range)
    let y := Term.var (← Search.freshVariable signature.f.range)
    let w := Term.var (← Search.freshVariable signature.f.range)
    return some [state.baseIsPower signature p z, state.baseIsPower signature p.swapped z',
      state.partsAgree p, state.commonBase signature p b l y w]

end State

end ExpAC

end Equational
