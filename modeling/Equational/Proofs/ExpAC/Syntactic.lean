import Equational.Proofs.ExpAC.Closing
import Equational.Proofs.ExpAC.Plain

/-! Problems over free symbols outside the theory. A state of such a problem has nothing for the combiner
to solve, so it is closed by syntactic unification. Since it represents the problem, its unifier and
that of the problem are instances of each other. -/

namespace Equational

namespace ExpAC

open Search State

variable {setting : Setting} {signature : Signature} {known : FunctionSymbol → Prop} {problem : Problem}
  {state : State} {session : Session} {n start : Nat} {σ θ : Substitution}

private theorem suits_isFree (range : ∀ t ∈ σ.range, t.IsFree) (sorted : σ.SortPreserving) :
    Term.Suits Term.IsFree σ.image :=
  fun v _ => ⟨Substitution.image_hereditary (Term.hereditary_over _) range v, sorted.image v⟩

private theorem State.close_of_unifyAll_error {failure : Failure} (separate : state.residual setting.signature = [])
    (failed : unifyAll (state.closing setting.signature) = .error failure) :
    ∃ failure', close setting state = throw failure' := by
  have closed : closeWith setting (state.closing setting.signature) .empty = .error failure := by
    have same : (state.closing setting.signature).map Substitution.empty.applyEquation =
        state.closing setting.signature :=
      List.map_id'' (fun _ => rfl) _
    rw [closeWith, same, failed]
    rfl
  rw [close_eq, separate, AC.solve_nil, pure_bind, List.foldlM_cons, closed]
  cases failure <;> exact ⟨_, rfl⟩

/-- A unifier of all that the state says, as general as the problem allows. -/
structure Solves (problem : Problem) (start : Nat) (θ : Substitution) : Prop where
  free : ∀ t ∈ θ.range, t.IsFree
  sorted : θ.SortPreserving
  solves : ∀ e ∈ problem.equations, e.Holds θ.image
  general : ∀ m, Term.Suits Term.IsFree m → (∀ e ∈ problem.equations, e.Holds m) →
    ∃ m', Term.Suits Term.IsFree m' ∧ Extends start m m' ∧ θ.Holds m'

private theorem residual_eq_nil (unreserved : ∀ h, known h → signature.isReserved h.id = false)
    (proper : state.Proper known n) : state.residual signature = [] := by
  have none : state.combinations signature = [] := by
    refine List.filter_eq_nil_iff.mpr fun e listed rooted => ?_
    have spelled := (proper.definitions e listed).2.formed.spelled
    cases shape : e.rhs with
    | var v | const c => simp [shape, Term.isRootedAt] at rooted
    | node h args =>
      rw [shape] at spelled rooted
      have other := unreserved h (Term.over_node.mp spelled).1
      simp only [Signature.isReserved, Bool.or_eq_false_iff] at other
      cases rooted.symm.trans other.2
  rw [State.residual, none]
  rfl

private theorem ends_close_represents (unreserved : ∀ h, known h → setting.signature.isReserved h.id = false)
    (consistent : Consistent known)
    (represents : Represents known Term.IsFree problem start session.names state) : (close setting state).Ends session
      (fun unifiers _ => ∃ θ, unifiers = [θ.restrict setting.scope] ∧ Solves problem start θ)
      (fun failure => failure.IsLimit ∨ Unsolvable Term.IsFree problem) := by
  obtain ⟨proper, neat, sound, complete, _⟩ := represents
  have separate := residual_eq_nil unreserved proper
  have iff_closing (m : Variable → Term) :
      state.HoldsIn Term.Same m ↔ ∀ e ∈ state.closing setting.signature, e.Holds m := by
    have parts : state.HoldsIn Term.Same m ↔ _ := holdsIn_iff_parts Term.congruence_same setting.signature
    rw [separate] at parts
    exact parts.trans (and_iff_left (List.forall_mem_nil _))
  have free : EverySide Term.IsFree (state.closing setting.signature) :=
    everySide_closing (fun e listed => ⟨(neat.definitions e listed).left, (neat.definitions e listed).right⟩)
      _ neat.bound
  have formed : EverySide (Term.WellFormed known) (state.closing setting.signature) :=
    everySide_closing (proper.definitions.imp fun fits => fits.formed) _ fun p listed =>
      ⟨(Term.hereditary_wellFormed known).var p.1, proper.range _ (List.mem_map_of_mem listed)⟩
  have general {m : Variable → Term} (suits : Term.Suits Term.IsFree m) (holds : state.HoldsIn Term.Same m) :=
    unifyAll_of_holds free (fun v => (suits v ((Term.hereditary_over _).var v)).2) ((iff_closing m).mp holds)
  cases unified : unifyAll (state.closing setting.signature) with
  | ok θ =>
    rw [close_of_unifyAll separate unified]
    refine ends_pure ⟨θ, rfl, range_of_unifyAll (Term.hereditary_over _) free unified,
      sortPreserving_of_unifyAll free unified, ?_, ?_⟩
    · refine sound _ ((iff_closing _).mpr (holds_of_unifyAll consistent (formed.imp fun t => t.spelled) unified ?_))
      exact holds_image_of_unifyAll (formed.imp fun t => t.canonical) unified
    · intro m suits solves
      obtain ⟨m', suits', extended, holds⟩ := complete m suits solves
      obtain ⟨θ', unified', holds'⟩ := general suits' holds
      cases unified.symm.trans unified'
      exact ⟨m', suits', extended, holds'⟩
  | error failure =>
    obtain ⟨failure', closed⟩ := close_of_unifyAll_error separate unified
    rw [closed]
    refine ends_throw (.inr fun m suits solves => ?_)
    obtain ⟨m', suits', _, holds⟩ := complete m suits solves
    obtain ⟨θ', unified', _⟩ := general suits' holds
    cases unified.symm.trans unified'

/-- The unifier of the problem and one that solves it with such generality are instances of each other. -/
theorem Solves.instances {interner : Interner} (solves : Solves problem interner.variableCount θ)
    (free : EverySide Term.IsFree problem.equations) (consistent : Consistent known)
    (spelled : EverySide (Term.Over known) problem.equations)
    (interned : ∀ v ∈ problem.vars, v.id.index < interner.variableCount) :
    ∃ σ, unifyAll problem.equations = .ok σ ∧ (θ.restrict problem.vars).IsInstanceOn problem.vars σ ∧
      σ.IsInstanceOn problem.vars (θ.restrict problem.vars) := by
  obtain ⟨σ, unified, holds⟩ := unifyAll_of_holds free solves.sorted.image solves.solves
  have range := range_of_unifyAll (Term.hereditary_over _) free unified
  have canonical {τ : Substitution} (free : ∀ t ∈ τ.range, t.IsFree) (v : Variable) :
      (τ.image v).isCanonical = true :=
    Term.isCanonical_of_free (Substitution.image_hereditary (Term.hereditary_over _) free v)
  have restricted {v : Variable} (member : v ∈ problem.vars) : (θ.restrict problem.vars).image v = θ.image v :=
    Substitution.image_restrict member
  refine ⟨σ, unified, Substitution.isInstanceOn_of_values solves.sorted.image (fun v _ => canonical range v)
    fun v member => ?_, ?_⟩
  · rw [restricted member]
    exact holds v
  · have own : ∀ e ∈ problem.equations, e.Holds σ.image := holds_of_unifyAll consistent spelled unified
      (holds_image_of_unifyAll (free.imp Term.isCanonical_of_free) unified)
    obtain ⟨m, suits, extended, general⟩ :=
      solves.general σ.image (suits_isFree range (sortPreserving_of_unifyAll free unified)) own
    refine Substitution.isInstanceOn_of_values (fun v => (suits v ((Term.hereditary_over _).var v)).2)
      (fun v member => ?_) fun v member => ?_
    · rw [restricted member]
      exact canonical solves.free v
    · rw [restricted member, ← extended v (interned v member)]
      exact general v

end ExpAC

open ExpAC

/-- Over free symbols that the theory says nothing of, unification modulo exponentiation agrees with syntactic
unification, unless it reaches a limit: it fails if there is no unifier, and else it finds one, which is the
syntactic one up to renaming. -/
theorem Problem.unifyExpAC_agrees_syntactic {limits : Limits} {signature : Signature} {problem : Problem}
    {interner : Interner}
    (free : ∀ h ∈ problem.equations.flatMap Equation.symbols, h.theory = .free ∧ signature.isReserved h.id = false)
    (consistent : Consistent (· ∈ problem.equations.flatMap Equation.symbols))
    (interned : ∀ v ∈ problem.vars, v.id.index < interner.variableCount)
    (finished : ∀ failure, (problem.unifyExpAC limits signature interner).1 = .error failure → ¬ failure.IsLimit) :
    match unifyAll problem.equations with
    | .ok σ => ∃ θ, (problem.unifyExpAC limits signature interner).1 = .ok [θ] ∧ θ.IsInstanceOn problem.vars σ ∧
        σ.IsInstanceOn problem.vars θ
    | .error _ => ∃ failure, (problem.unifyExpAC limits signature interner).1 = .error failure := by
  let setting : Setting := { limits, signature, scope := problem.vars }
  let start : Session := { interner, fresh := { stem := limits.freshStem } }
  let known (h : FunctionSymbol) : Prop := h ∈ problem.equations.flatMap Equation.symbols
  have unreserved (h : FunctionSymbol) (listed : known h) : signature.isReserved h.id = false := (free h listed).2
  have terms : EverySide Term.IsFree problem.equations := everySide_over_symbols fun h listed => (free h listed).1
  have spelled : EverySide (Term.Over known) problem.equations := everySide_over_symbols fun h listed => listed
  have given : EverySide (Given known start.names) problem.equations :=
    given_of_interned (fun h listed => listed) interned
  have powerless : Powerless setting.signature known Term.IsFree := powerless_isFree consistent unreserved
  have ends := powerless.ends_solve (fun represents _ => ends_close_represents unreserved consistent represents)
    terms given rfl
  have range {σ : Substitution} (unified : unifyAll problem.equations = .ok σ) :=
    suits_isFree (range_of_unifyAll (Term.hereditary_over _) terms unified) (sortPreserving_of_unifyAll terms unified)
  cases outcome : (problem.unifyExpAC limits signature interner).1 with
  | ok unifiers =>
    obtain ⟨_, θ, rfl, solves⟩ := ends.of_run outcome
    obtain ⟨σ, unified, general, special⟩ := solves.instances terms consistent spelled interned
    rw [unified]
    exact ⟨_, rfl, general, special⟩
  | error failure =>
    have unsolvable := (ends.of_run_error outcome).resolve_left (finished failure outcome)
    cases unified : unifyAll problem.equations with
    | error failure' => exact ⟨failure, rfl⟩
    | ok σ =>
      have solves := holds_of_unifyAll consistent spelled unified
        (holds_image_of_unifyAll (terms.imp Term.isCanonical_of_free) unified)
      exact absurd solves (unsolvable _ (range unified))

/-- One variable stands for two applications to different variables. -/
def Problem.twoApplications : Problem :=
  let h : FunctionSymbol := ⟨⟨3⟩, 2, .free, .default, .default⟩
  let x : Variable := ⟨⟨0⟩, .default⟩
  let y : Variable := ⟨⟨1⟩, .default⟩
  let z : Variable := ⟨⟨2⟩, .default⟩
  let a : Constant := ⟨⟨0⟩, .default⟩
  ⟨[⟨.var x, .node h [.var y, .const a]⟩, ⟨.var x, .node h [.var z, .const a]⟩]⟩

theorem Problem.unifyExpAC_agrees_syntactic_twoApplications :
    let interner : Interner := { Interner.empty with variableTable := ⟨["x", "y", "z"]⟩ }
    ∃ σ θ, unifyAll twoApplications.equations = .ok σ ∧
      (twoApplications.unifyExpAC {} .binary interner).1 = .ok [θ] ∧
      θ.IsInstanceOn twoApplications.vars σ ∧ σ.IsInstanceOn twoApplications.vars θ := by
  intro interner
  have free : ∀ h ∈ twoApplications.equations.flatMap Equation.symbols,
      h.theory = .free ∧ Signature.binary.isReserved h.id = false := by decide
  have consistent : Consistent (· ∈ twoApplications.equations.flatMap Equation.symbols) := by decide
  have interned : ∀ v ∈ twoApplications.vars, v.id.index < interner.variableCount := by decide
  have succeeds : (twoApplications.unifyExpAC {} .binary interner).1.isOk = true := by cbv
  have finished : ∀ failure, (twoApplications.unifyExpAC {} .binary interner).1 = .error failure →
      ¬ failure.IsLimit := by
    intro failure failed
    rw [failed] at succeeds
    cases succeeds
  have agrees := unifyExpAC_agrees_syntactic free consistent interned finished
  cases unified : unifyAll twoApplications.equations with
  | ok σ =>
    rw [unified] at agrees
    obtain ⟨θ, found, general, special⟩ := agrees
    exact ⟨σ, θ, rfl, found, general, special⟩
  | error failure =>
    rw [unified] at agrees
    obtain ⟨failure', failed⟩ := agrees
    rw [failed] at succeeds
    cases succeeds

end Equational
