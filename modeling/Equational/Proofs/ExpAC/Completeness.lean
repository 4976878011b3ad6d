import Equational.Proofs.ExpAC.Closing

/-! Failures of unification modulo exponentiation. A search that fails below its limits has met every
solution in a terminal state that it could not close. -/

namespace Equational

open ExpAC

/-- What a failing search has lost, it has lost in closing: every solution survives in a terminal state with
combinations that depend on each other. -/
theorem Problem.unifyExpAC_fails_in_closing {limits : Limits} {signature : ExpAC.Signature} {problem : Problem}
    {interner : Interner} {failure : Failure} {τ : Substitution} (posed : Posed signature problem interner)
    (binary : EverySide (signature.isBinary · = true) problem.equations)
    (failed : (problem.unifyExpAC limits signature interner).1 = .error failure) (other : ¬ failure.IsLimit)
    (regular : τ.IsRegular signature.f)
    (solves : ∀ e ∈ problem.equations, ExpAC.EqualModulo signature (τ.apply e.lhs) (τ.apply e.rhs)) :
    ∃ state session, Terminal ⟨limits, signature, problem.vars⟩ problem interner state session ∧
      state.residual signature ≠ [] ∧ Survives signature problem τ state := by
  by_contra! lost
  have finished : ∀ failure', (problem.unifyExpAC limits signature interner).1 = .error failure' →
      ¬ failure'.IsLimit := by
    intro failure' failed'
    cases failed.symm.trans failed'
    exact other
  let setting : Setting := ⟨limits, signature, problem.vars⟩
  have posed' : Posed setting.signature problem interner := posed
  obtain ⟨unifiers, succeeded, _⟩ := exists_of_closes (P := fun _ => True) posed' (fun _ _ _ => id) regular solves
    (fun state session terminal solvable after => by
      by_cases separate : state.residual signature = []
      · obtain ⟨σ, closed, _⟩ := close_of_terminal posed binary terminal solvable separate
        rw [closed]
        exact Search.ends_pure ⟨_, List.mem_singleton_self _, trivial⟩
      · exact absurd (survives_of_solvable posed solvable) (lost state session terminal separate)) finished
  cases failed.symm.trans succeeded

/-- A power and a pair in the same place below the combiner: `f(exp(x, b), c)` and `f(g(y, z), c)`. -/
def Problem.powerAgainstPair (x y z : Variable) (b c : Constant) : Problem :=
  let exp := ExpAC.Signature.binary.exp
  let g := ExpAC.Signature.binary.g
  let f := ExpAC.Signature.binary.f
  ⟨[⟨.node f [.node exp [.var x, .const b], .const c], .node f [.node g [.var y, .var z], .const c]⟩]⟩

/-- The definitions are closed argument by argument, so a power below the combiner is compared with
a pair as if the second law did not hold. -/
theorem Problem.unifyExpAC_rejects_powerAgainstPair :
    let x : Variable := ⟨⟨0⟩, .default⟩
    let y : Variable := ⟨⟨1⟩, .default⟩
    let z : Variable := ⟨⟨2⟩, .default⟩
    let b : Constant := ⟨⟨0⟩, .default⟩
    let c : Constant := ⟨⟨1⟩, .default⟩
    let exp := ExpAC.Signature.binary.exp
    let g := ExpAC.Signature.binary.g
    let interner : Interner := { Interner.empty with variableTable := ⟨["x", "y", "z"]⟩ }
    let τ : Substitution := { bindings := [(x, .node g [.const c, .const c]), (y, .node exp [.const c, .const b]),
      (z, .node exp [.const c, .const b])], distinct := by decide }
    ((powerAgainstPair x y z b c).unifyExpAC {} .binary interner).1 = .error (.functionClash exp.id g.id) ∧
      ∀ e ∈ (powerAgainstPair x y z b c).equations, ExpAC.EqualModulo .binary (τ.apply e.lhs) (τ.apply e.rhs) := by
  intro x y z b c exp g interner τ
  refine ⟨by cbv, List.forall_mem_singleton.mpr ?_⟩
  have value : EqualModulo .binary (.node exp [.node g [.const c, .const c], .const b])
      (.node g [.node exp [.const c, .const b], .node exp [.const c, .const b]]) := .distribute _ _ _
  exact .pair ExpAC.Signature.binary.f value (.refl (.const c))

theorem Problem.unifyExpAC_fails_in_closing_powerAgainstPair :
    let x : Variable := ⟨⟨0⟩, .default⟩
    let y : Variable := ⟨⟨1⟩, .default⟩
    let z : Variable := ⟨⟨2⟩, .default⟩
    let b : Constant := ⟨⟨0⟩, .default⟩
    let c : Constant := ⟨⟨1⟩, .default⟩
    let exp := ExpAC.Signature.binary.exp
    let g := ExpAC.Signature.binary.g
    let problem := powerAgainstPair x y z b c
    let interner : Interner := { Interner.empty with variableTable := ⟨["x", "y", "z"]⟩ }
    let τ : Substitution := { bindings := [(x, .node g [.const c, .const c]), (y, .node exp [.const c, .const b]),
      (z, .node exp [.const c, .const b])], distinct := by decide }
    ∃ state session, Terminal ⟨{}, .binary, problem.vars⟩ problem interner state session ∧
      state.residual .binary ≠ [] ∧ Survives .binary problem τ state := by
  intro x y z b c exp g problem interner τ
  have posed : Posed .binary problem interner := ⟨Signature.oneSorted_binary, by decide, by decide, by decide⟩
  have failed : (problem.unifyExpAC {} .binary interner).1 = .error (.functionClash exp.id g.id) := by cbv
  have other : ¬ (Failure.functionClash exp.id g.id).IsLimit := by
    rintro ⟨_, same⟩
    cases same
  have solves : ∀ e ∈ problem.equations, ExpAC.EqualModulo .binary (τ.apply e.lhs) (τ.apply e.rhs) := by
    refine List.forall_mem_singleton.mpr (.pair ExpAC.Signature.binary.f ?_ (.refl (.const c)))
    exact .distribute (.const c) (.const c) (.const b)
  exact unifyExpAC_fails_in_closing posed (by decide) failed other (by decide) solves

end Equational
