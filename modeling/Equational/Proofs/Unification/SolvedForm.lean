import Equational.Proofs.Problem
import Equational.Proofs.Unification.Soundness

/-! Solved forms. An idempotent substitution is the unifier of the equations between its variables and
what they are bound to: each equation asks for its binding as it stands, which changes nothing in the
bindings before it, and nothing that they would change. -/

namespace Equational

namespace Substitution

variable {σ τ : Substitution} {v : Variable} {t : Term}

private theorem eq_of_bindings_eq (same : σ.bindings = τ.bindings) : σ = τ := by
  cases σ
  cases τ
  cases same
  rfl

private theorem assign_eq_extend (unbound : v ∉ σ.domain) (range : ∀ u ∈ σ.range, u.isCanonical = true ∧ v ∉ u.vars)
    (canonical : t.isCanonical = true) (free : ∀ w ∈ t.vars, w ∉ σ.domain) :
    σ.assign v t unbound = σ.extend v t unbound := by
  have earlier : (σ.bindings.map fun p => (p.1, (single v t).apply p.2)) = σ.bindings := by
    refine (List.map_congr_left fun p member => ?_).trans (List.map_id _)
    obtain ⟨canonical', absent⟩ := range p.2 (mem_range_of_mem member)
    have other : ∀ w ∈ p.2.vars, w ∉ (single v t).domain := by
      intro w occurs bound
      obtain rfl : w = v := List.mem_singleton.mp bound
      exact absent occurs
    rw [apply_eq_self canonical' other]
    rfl
  refine eq_of_bindings_eq ?_
  simp only [assign, σ.apply_eq_self canonical free]
  exact congrArg (· ++ [(v, t)]) earlier

end Substitution

namespace Unifier

variable {scope : List Variable} {σ θ : Substitution} {v : Variable} {t : Term} {work : List (Variable × Term)}

section SolvedForm

variable (idempotent : θ.isIdempotent = true) (sorted : θ.SortPreserving)
  (canonical : ∀ t ∈ θ.range, t.isCanonical = true)
include idempotent sorted canonical

/-- The bindings found so far are the first of those of an idempotent substitution. The next one is what
its equation asks for, and is added as it stands. -/
theorem binding_of_solvedForm (whole : σ.bindings ++ (v, t) :: work = θ.bindings) : ∃ unbound : v ∉ σ.domain,
    Demand.between (σ.apply (.var v)) (σ.apply t) = .ok (.binding v t) ∧
    σ.assign v t unbound = σ.extend v t unbound := by
  have solved := Substitution.isIdempotent_iff.mp idempotent
  have listed : (v, t) ∈ θ.bindings := whole ▸ List.mem_append_right _ (List.mem_cons_self ..)
  have inRange := Substitution.mem_range_of_mem listed
  have bound := Substitution.mem_domain_iff.mpr ⟨t, listed⟩
  have range : ∀ u ∈ σ.range, u ∈ θ.range := by
    rw [Substitution.range, Substitution.range, ← whole, List.map_append]
    exact fun u member => List.mem_append_left _ member
  have domain : ∀ w ∈ σ.domain, w ∈ θ.domain := by
    rw [Substitution.domain, Substitution.domain, ← whole, List.map_append]
    exact fun w member => List.mem_append_left _ member
  have unbound : v ∉ σ.domain := by
    have distinct := θ.distinct
    rw [← whole, List.map_append, List.nodup_append] at distinct
    exact fun earlier => distinct.2.2 v earlier v (List.mem_cons_self ..) rfl
  have free : ∀ w ∈ t.vars, w ∉ σ.domain := fun w occurs earlier => solved t inRange w occurs (domain w earlier)
  have earlier : ∀ u ∈ σ.range, u.isCanonical = true ∧ v ∉ u.vars := fun u member =>
    ⟨canonical u (range u member), fun occurs => solved u (range u member) v occurs bound⟩
  refine ⟨unbound, ?_, Substitution.assign_eq_extend unbound earlier (canonical t inRange) free⟩
  rw [Substitution.apply_var, Substitution.image_of_not_mem unbound,
    Substitution.apply_eq_self (canonical t inRange) free]
  exact Demand.between_var (sorted _ listed) fun occurs => solved t inRange v occurs bound

private theorem solve_solvedForm (whole : σ.bindings ++ work = θ.bindings)
    (inv : Invariant scope σ (work.map fun p => ⟨.var p.1, p.2⟩)) :
    solve scope σ (work.map fun p => ⟨.var p.1, p.2⟩) inv = .ok θ := by
  induction work generalizing σ with
  | nil =>
    rw [List.append_nil] at whole
    obtain rfl := Substitution.eq_of_bindings_eq whole
    exact solve_nil inv
  | cons p work ih =>
    obtain ⟨unbound, binding, added⟩ := binding_of_solvedForm idempotent sorted canonical whole
    obtain ⟨inv', step⟩ := solve_of_binding inv unbound binding
    refine step.trans (ih ?_ inv')
    rw [added]
    exact (List.append_assoc ..).trans whole

end SolvedForm

end Unifier

/-- The equations of a solved form have the solved form itself as their unifier, with its bindings in the same order. -/
theorem unifyAll_toProblem {σ : Substitution} (idempotent : σ.isIdempotent = true) (sorted : σ.SortPreserving)
    (canonical : ∀ t ∈ σ.range, t.isCanonical = true) : unifyAll σ.toProblem.equations = .ok σ := by
  rw [Substitution.equations_toProblem]
  exact Unifier.solve_solvedForm idempotent sorted canonical (List.nil_append _) _

/-- Bindings to variables, to a sum, and to a product of another sort, some with variables in common. -/
theorem unifyAll_toProblem_twoSorts :
    let word : SortId := ⟨1⟩
    let plus : FunctionSymbol := ⟨⟨0⟩, 2, .associativeCommutative, .default, .default⟩
    let times : FunctionSymbol := ⟨⟨1⟩, 2, .associative, word, word⟩
    let k : FunctionSymbol := ⟨⟨2⟩, 2, .idempotent, .default, .default⟩
    let a : Term := .const ⟨⟨0⟩, word⟩
    let x (i : Nat) : Variable := ⟨⟨i⟩, .default⟩
    let y (i : Nat) : Variable := ⟨⟨i⟩, word⟩
    let sum : Term := .node plus [.var (x 2), .node k [.var (x 2), .var (x 4)], .var (x 2)]
    let σ : Substitution :=
      ⟨[(x 1, .var (x 2)), (y 1, .node times [a, .var (y 2), a]), (x 0, sum), (y 0, .var (y 2))], by decide⟩
    σ.isIdempotent = true ∧ σ.SortPreserving ∧ (∀ t ∈ σ.range, t.isCanonical = true) ∧
      unifyAll σ.toProblem.equations = .ok σ := by
  intro word plus times k a x y sum σ
  have idempotent : σ.isIdempotent = true := by decide
  have sorted : σ.SortPreserving := by decide
  have canonical : ∀ t ∈ σ.range, t.isCanonical = true := by decide
  exact ⟨idempotent, sorted, canonical, unifyAll_toProblem idempotent sorted canonical⟩

end Equational
