import Equational.Proofs.ExpAC.Resolved
import Equational.Unification.Modulo

/-! The shape of every answer. The four procedures compose and restrict bindings in different ways
and none checks the result, but what any of them returns is resolved. -/

namespace Equational

variable {problem : Problem} {interner : Interner} {limits : Limits} {unifiers : List Substitution}

private theorem Problem.mem_vars {v : Variable} : v ∈ problem.vars ↔ v ∈ problem.equations.flatMap Equation.vars :=
  List.mem_eraseDups

private theorem Problem.resolved_of_unifyAll {σ : Substitution} (solved : unifyAll problem.equations = .ok σ)
    (first last : Nat) :
    σ.Resolved (· ∈ problem.vars) (Available problem.vars first last) :=
  (Substitution.resolved_of_unifyAll solved).mono (fun _ => Problem.mem_vars.mpr) fun _ occurs =>
    .inl (Problem.mem_vars.mpr occurs)

section Searches

variable (interned : ∀ v ∈ problem.vars, v.id.index < interner.variableCount)
include interned

private theorem Problem.resolved_of_unifyAC (solved : (problem.unifyAC limits interner).1 = .ok unifiers) :
    unifiers ≠ [] ∧ ∀ σ ∈ unifiers, σ.Resolved (· ∈ problem.vars)
      (Available problem.vars interner.variableCount (problem.unifyAC limits interner).2.variableCount) := by
  let begun : Session := { interner, fresh := { stem := limits.freshStem } }
  have inUse : ∀ v ∈ problem.equations.flatMap Equation.vars, v.id.index < begun.names :=
    fun v occurs => interned v (Problem.mem_vars.mpr occurs)
  obtain ⟨after, names, some, resolved⟩ := (AC.ends_solve_resolved limits inUse).exists_session solved
  refine ⟨some, fun σ member => (resolved σ member).mono (fun _ => Problem.mem_vars.mpr) fun v available => ?_⟩
  rw [Problem.unifyAC, ← names]
  exact available.imp Problem.mem_vars.mpr id

private theorem Problem.resolved_of_unifyExpAC {signature : ExpAC.Signature}
    (solved : (problem.unifyExpAC limits signature interner).1 = .ok unifiers) :
    unifiers ≠ [] ∧ ∀ σ ∈ unifiers, σ.Resolved (· ∈ problem.vars)
      (Available problem.vars interner.variableCount
        (problem.unifyExpAC limits signature interner).2.variableCount) := by
  let setting : ExpAC.Setting := { limits, signature, scope := problem.vars }
  have scope : ∀ v ∈ problem.vars, v ∈ setting.scope := fun _ listed => listed
  obtain ⟨after, names, some, resolved⟩ := (ExpAC.ends_solve_resolved scope interned).exists_session solved
  refine ⟨some, fun σ member => ?_⟩
  rw [Problem.unifyExpAC, ← names]
  exact resolved σ member

end Searches

/-- Whatever the theory and the limits, an answer lists at least one unifier. Each is idempotent,
binds no variable to itself and only variables of the problem, and over its terms occur only
variables of the problem and variables that the call has added to the interner. -/
theorem Problem.unifyModulo_answers {theory : Theory}
    (interned : ∀ v ∈ problem.vars, v.id.index < interner.variableCount)
    (solved : (problem.unifyModulo limits theory interner).1 = .ok unifiers) :
    unifiers ≠ [] ∧ ∀ σ ∈ unifiers, σ.isIdempotent = true ∧ (∀ v, σ.find? v ≠ some (.var v)) ∧
      (∀ v ∈ σ.domain, v ∈ problem.vars) ∧
      ∀ t ∈ σ.range, ∀ v ∈ t.vars, v ∈ problem.vars ∨
        interner.variableCount ≤ v.id.index ∧ v.id.index <
          (problem.unifyModulo limits theory interner).2.variableCount := by
  have shape : unifiers ≠ [] ∧ ∀ σ ∈ unifiers, σ.Resolved (· ∈ problem.vars)
      (Available problem.vars interner.variableCount
      (problem.unifyModulo limits theory interner).2.variableCount) := by
    cases theory with
    | syntactic =>
      cases unified : unifyAll problem.equations with
      | error failure =>
        rw [unifyModulo, unified] at solved
        cases solved
      | ok σ =>
        rw [unifyModulo, unified] at solved
        cases solved
        exact ⟨List.cons_ne_nil _ _, List.forall_mem_singleton.mpr (resolved_of_unifyAll unified _ _)⟩
    | constrained constraints =>
      cases within : unifyAllWithin constraints problem.equations with
      | error failure =>
        rw [unifyModulo, within] at solved
        cases solved
      | ok σ =>
        rw [unifyModulo, within] at solved
        cases solved
        obtain ⟨σ', unified, rest⟩ := exists_of_bind_eq_ok within
        obtain ⟨_, _, same⟩ := exists_of_bind_eq_ok rest
        cases same
        exact ⟨List.cons_ne_nil _ _, List.forall_mem_singleton.mpr (resolved_of_unifyAll unified _ _)⟩
    | associativeCommutative => exact resolved_of_unifyAC interned solved
    | expAC signature => exact resolved_of_unifyExpAC interned solved
  refine ⟨shape.1, fun σ member => ?_⟩
  have resolved := shape.2 σ member
  exact ⟨resolved.isIdempotent, resolved.find?_ne_var, resolved.domain, resolved.range⟩

/-- The exchange of two constants has a unifier over a fresh variable, the first that is not in use. -/
theorem Problem.unifyModulo_answers_exchange :
    let interner : Interner := { Interner.empty with variableTable := ⟨["x", "y"]⟩ }
    let f := ExpAC.Signature.binary.f
    let x : Variable := ⟨⟨0⟩, .default⟩
    let y : Variable := ⟨⟨1⟩, .default⟩
    let v : Variable := ⟨⟨2⟩, .default⟩
    let a : Constant := ⟨⟨0⟩, .default⟩
    let b : Constant := ⟨⟨1⟩, .default⟩
    let exchange : Problem := ⟨[⟨.node f [.var x, .const a], .node f [.var y, .const b]⟩]⟩
    ∃ unifiers, (exchange.unifyModulo {} .associativeCommutative interner).1 = .ok unifiers ∧
      unifiers.map (·.bindings) =
        [[(x, .const b), (y, .const a)], [(x, .node f [.var v, .const b]), (y, .node f [.var v, .const a])]] ∧
      (exchange.unifyModulo {} .associativeCommutative interner).2.variableTable.names = ["x", "y", "v_0"] ∧
      ∀ σ ∈ unifiers, σ.isIdempotent = true ∧ (∀ v, σ.find? v ≠ some (.var v)) ∧ (∀ v ∈ σ.domain, v ∈ exchange.vars) ∧
        ∀ t ∈ σ.range, ∀ v ∈ t.vars, v ∈ exchange.vars ∨ 2 ≤ v.id.index ∧ v.id.index < 3 := by
  intro interner f x y v a b exchange
  have interned : ∀ v ∈ exchange.vars, v.id.index < interner.variableCount := by decide
  have bindings : (exchange.unifyModulo {} .associativeCommutative interner).1.map (·.map (·.bindings)) =
      .ok [[(x, .const b), (y, .const a)],
      [(x, .node f [.var v, .const b]), (y, .node f [.var v, .const a])]] := by cbv
  have names : (exchange.unifyModulo {} .associativeCommutative interner).2.variableTable.names =
      ["x", "y", "v_0"] := by cbv
  have count : (exchange.unifyModulo {} .associativeCommutative interner).2.variableCount = 3 := by
    rw [Interner.variableCount, NameTable.size, names]
    rfl
  cases solved : (exchange.unifyModulo {} .associativeCommutative interner).1 with
  | ok unifiers =>
    rw [solved] at bindings
    obtain ⟨_, shape⟩ := unifyModulo_answers interned solved
    rw [count] at shape
    exact ⟨unifiers, rfl, Except.ok.inj bindings, names, shape⟩
  | error failure =>
    rw [solved] at bindings
    cases bindings

end Equational
