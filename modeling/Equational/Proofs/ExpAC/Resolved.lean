import Equational.Proofs.AC.Resolved
import Equational.Proofs.ExpAC.Reachability

/-! The shape of the unifiers modulo exponentiation. Over the terms of a reached state occur
variables of the problem and variables drawn on the way there, so a residual unifier and the
unifier of what it leaves are resolved together. Nothing is asked of the signature, and of the
problem only that its variables are in use. -/

namespace Equational

abbrev OverAvailable (vars : List Variable) (first last : Nat) (t : Term) : Prop :=
  ∀ v ∈ t.vars, Available vars first last v

private theorem vars_of_everySide {known : Variable → Prop} {equations : List Equation}
    (sides : EverySide (∀ v ∈ ·.vars, known v) equations) :
    ∀ v ∈ equations.flatMap Equation.vars, known v := by
  intro v occurs
  obtain ⟨e, member, inside⟩ := List.mem_flatMap.mp occurs
  exact (List.mem_append.mp inside).elim ((sides e member).1 v) ((sides e member).2 v)

namespace ExpAC

open Search State

variable {setting : Setting} {problem : Problem} {interner : Interner} {state : State} {session : Session}
  {start : Nat} {scope : List Variable}

private theorem kept_overAvailable (scope : List Variable) (start : Nat) :
    Kept start (OverAvailable scope start) := by
  constructor
  case later => exact fun grown holds v occurs => (holds v occurs).mono grown
  case fresh =>
    intro n sort older v occurs
    obtain rfl := List.mem_singleton.mp occurs
    exact .inr ⟨older, Nat.lt_succ_self n⟩
  case argument => exact Term.Within.argument
  case rebuild => exact fun _ _ => Term.Within.app _
  case pair =>
    intro n h s t left right
    exact Term.Within.app h (List.forall_mem_cons.mpr ⟨left, List.forall_mem_singleton.mpr right⟩)

section Closing

private theorem resolved_of_closeWith {closing : List Equation} {θ σ : Substitution} {known : Variable → Prop}
    (vars : ∀ v ∈ closing.flatMap Equation.vars, known v) (resolved : θ.Resolved known known)
    (closed : closeWith setting closing θ = .ok σ) : σ.Resolved (· ∈ setting.scope) known := by
  obtain ⟨σ', unified, result⟩ := exists_of_bind_eq_ok closed
  cases result
  have left (v : Variable) (occurs : v ∈ (closing.map θ.applyEquation).flatMap Equation.vars) :
      known v ∧ v ∉ θ.domain :=
    resolved.of_mem_vars_applyEquations vars occurs
  have resolved' := Substitution.resolved_of_unifyAll unified
  have apart : ∀ t ∈ σ'.range, ∀ v ∈ t.vars, v ∉ θ.domain :=
    fun t member v occurs => (left v (resolved'.range t member v occurs)).2
  have known' : σ'.Resolved known known := resolved'.mono (fun v bound => (left v bound).1) fun v occurs =>
    (left v occurs).1
  exact (resolved.compose known' apart).restrict setting.scope

/-- Closing returns at least one unifier, and each is resolved. -/
theorem ends_close_resolved (inUse : ∀ v ∈ setting.scope, v.id.index < start)
    (all : state.All start (OverAvailable setting.scope start) session.names) :
    (close setting state).Ends session (fun unifiers after => unifiers ≠ [] ∧ ∀ σ ∈ unifiers,
      σ.Resolved (· ∈ setting.scope) (Available setting.scope start after.names)) (fun _ => True) := by
  have older := all.older
  have residual := vars_of_everySide (everySide_residual all.sides setting.signature)
  have closing := everySide_closing all.sides setting.signature all.solved
  have drawn (v : Variable) (occurs : v ∈ (state.residual setting.signature).flatMap Equation.vars) :
      v.id.index < session.names := by
    rcases residual v occurs with listed | ⟨_, below⟩
    · exact Nat.lt_of_lt_of_le (inUse v listed) older
    · exact below
  refine ends_closeAll (P := fun n => Substitution.Resolved (· ∈ setting.scope)
    (Available setting.scope start n)) trivial
    (AC.ends_solve_resolved _ drawn) ?_
  intro thetas after grown found θ member
  refine Except.gives_of (fun σ closed => ?_) fun _ _ => trivial
  refine resolved_of_closeWith (vars_of_everySide ((kept_overAvailable _ _).everySide_later closing grown)) ?_ closed
  refine (found.2 θ member).mono (fun v bound => (residual v bound).mono grown) fun v known => ?_
  rcases known with occurs | ⟨later, below⟩
  · exact (residual v occurs).mono grown
  · exact .inr ⟨Nat.le_trans older later, below⟩

end Closing

section Answers

variable (listed : ∀ v ∈ problem.vars, v ∈ setting.scope)
include listed

private theorem Reached.overAvailable (reached : Reached setting problem interner state session) :
    state.All interner.variableCount (OverAvailable setting.scope interner.variableCount) session.names := by
  refine reached.all (kept_overAvailable _ _) fun e member => ?_
  have each (v : Variable) (occurs : v ∈ e.vars) : v ∈ setting.scope :=
    listed v (List.mem_eraseDups.mpr (List.mem_flatMap.mpr ⟨e, member, occurs⟩))
  exact ⟨fun v occurs => .inl (each v (List.mem_append_left _ occurs)),
    fun v occurs => .inl (each v (List.mem_append_right _ occurs))⟩

/-- Every unifier that a run finds is resolved. -/
theorem ends_solve_resolved (inUse : ∀ v ∈ setting.scope, v.id.index < interner.variableCount) :
    (solve setting problem).Ends { interner, fresh := { stem := setting.limits.freshStem } }
    (fun unifiers after => unifiers ≠ [] ∧ ∀ σ ∈ unifiers,
      σ.Resolved (· ∈ setting.scope) (Available setting.scope interner.variableCount after.names)) (fun _ => True) :=
  ends_solve_forall (P := fun n => Substitution.Resolved (· ∈ setting.scope)
    (Available setting.scope interner.variableCount n))
    (failing_true ..) (fun grown resolved => resolved.mono (fun _ bound => bound) fun _ available =>
      available.mono grown)
    fun handed => ends_close_resolved inUse (handed.reached.overAvailable listed)

end Answers

end ExpAC

end Equational
