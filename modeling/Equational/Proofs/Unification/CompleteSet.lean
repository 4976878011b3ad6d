import Equational.Proofs.Composition
import Equational.Proofs.Term.Stable

/-! Complete sets of unifiers. Each member stands for a solution, and every solution is an instance of a
member. So any two complete sets for the same equations are instances of each other, whatever
searches have found them. -/

namespace Equational

namespace Substitution

variable {σ σ' : Substitution} {m : Variable → Term} {scope : Variable → Prop}

/-- On the scope, the assignment is an instance of the substitution by terms of the right sorts. -/
def Generalizes (scope : Variable → Prop) (m : Variable → Term) (σ : Substitution) : Prop :=
  ∃ μ : Variable → Term, (∀ v, (μ v).sort = v.sort) ∧ ∀ v, scope v → (m v).shape = ((σ.image v).instantiate μ).shape

theorem Generalizes.of_beq (same : (σ == σ') = true) (general : σ.Generalizes scope m) : σ'.Generalizes scope m := by
  obtain ⟨μ, sorted, values⟩ := general
  refine ⟨μ, sorted, fun v inside => (values v inside).trans ?_⟩
  exact Term.instantiate_congr (Term.beq_iff_shape.mp (image_beq_of_beq same v)) μ

end Substitution

open Substitution

/-- On the scope, solutions with the property, of which every solution with the property is an instance. -/
structure CompleteSet (P : Term → Prop) (equations : List Equation) (scope : Variable → Prop)
    (unifiers : List Substitution) :
    Prop where
  some : unifiers ≠ []
  canonical : ∀ σ ∈ unifiers, ∀ v, scope v → (σ.image v).isCanonical = true
  solves : ∀ σ ∈ unifiers, ∃ m, Term.Suits P m ∧ (∀ e ∈ equations, e.Holds m) ∧ ∀ v, scope v → σ.image v = m v
  covers : ∀ m, Term.Suits P m → (∀ e ∈ equations, e.Holds m) → ∃ σ ∈ unifiers, σ.Generalizes scope m

namespace CompleteSet

variable {P : Term → Prop} {equations : List Equation} {scope : Variable → Prop} {vars : List Variable}
  {unifiers others : List Substitution}

theorem mono {scope' : Variable → Prop} (complete : CompleteSet P equations scope unifiers)
    (narrower : ∀ v, scope' v → scope v) :
    CompleteSet P equations scope' unifiers where
  some := complete.some
  canonical σ member v inside := complete.canonical σ member v (narrower v inside)
  solves σ member := by
    obtain ⟨m, suits, holds, values⟩ := complete.solves σ member
    exact ⟨m, suits, holds, fun v inside => values v (narrower v inside)⟩
  covers m suits holds := by
    obtain ⟨σ, member, μ, sorted, general⟩ := complete.covers m suits holds
    exact ⟨σ, member, μ, sorted, fun v inside => general v (narrower v inside)⟩

theorem exists_solution (complete : CompleteSet P equations scope unifiers) :
    ∃ m, Term.Suits P m ∧ ∀ e ∈ equations, e.Holds m := by
  obtain ⟨σ, member⟩ := List.exists_mem_of_ne_nil _ complete.some
  obtain ⟨m, suits, holds, _⟩ := complete.solves σ member
  exact ⟨m, suits, holds⟩

/-- Each member of a complete set is an instance of a member of any other. -/
theorem exists_isInstanceOn (first : CompleteSet P equations (· ∈ vars) unifiers)
    (second : CompleteSet P equations (· ∈ vars) others) : ∀ τ ∈ unifiers, ∃ σ ∈ others, τ.IsInstanceOn vars σ := by
  intro τ member
  obtain ⟨m, suits, holds, values⟩ := first.solves τ member
  obtain ⟨σ, among, μ, sorted, general⟩ := second.covers m suits holds
  refine ⟨σ, among, isInstanceOn_of_values sorted (second.canonical σ among) fun v listed => ?_⟩
  rw [values v listed]
  exact general v listed

end CompleteSet

end Equational
