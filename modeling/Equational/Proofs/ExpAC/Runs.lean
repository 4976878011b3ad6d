import Equational.Proofs.ExpAC.Extension
import Equational.Proofs.ExpAC.Soundness

/-! Runs on a state with a solution. The phases before branching pass the solution on, and they fail
only at a limit. What a saturation ends with admits none of its rules, and a round of settling that
changes nothing has eliminated no variable, so a settled state admits neither the rules that
merge and distribute nor the elimination. -/

namespace Equational

namespace ExpAC

open Search State

variable {setting : Setting} {signature : Signature} {known : FunctionSymbol → Prop} {m m' : Variable → Term}
  {n n' : Nat} {state next : State} {session : Session}

section Rules

private theorem size_lt_compose {binding : Substitution} {x y : Variable} (renames : Renames binding x y)
    (other : x ≠ y)
    (solved : ∀ p ∈ state.solved.bindings, ∃ y, p.2 = .var y ∧ state.Usable n y) (usableX : state.Usable n x)
    (usableY : state.Usable n y) : state.solved.size < (state.solved.compose binding).size := by
  have kept : ∀ p ∈ (state.solved.mapRange binding.apply).bindings, (p.2 != .var p.1) = true := by
    intro p member
    obtain ⟨⟨v, t⟩, bound, rfl⟩ := List.mem_map.mp member
    obtain ⟨w, same, usable⟩ := solved _ bound
    rw [bne, Bool.not_eq_true']
    by_contra identity
    have equal := Substitution.eq_var_of_beq (Bool.not_eq_false _ ▸ identity)
    have inside : v ∈ state.solved.domain := Substitution.mem_domain_iff.mpr ⟨t, bound⟩
    simp only at same equal
    rw [same, Substitution.apply_var, renames.image w, Term.var.injEq] at equal
    split at equal
    · exact usableY.2 (equal ▸ inside)
    · exact usable.2 (equal ▸ inside)
  have bound : (x, Term.var y) ∈ binding.bindings := by
    rcases binding.image_mem_or x with bound | ⟨_, free⟩
    · rwa [renames.image x, if_pos rfl] at bound
    · rw [renames.image x, if_pos rfl, Term.var.injEq] at free
      exact absurd free.symm other
  have new : (x, Term.var y) ∈ (binding.keep fun p => !state.solved.domain.contains p.1).bindings :=
    List.mem_filter.mpr ⟨bound, by simpa using usableX.2⟩
  have some := List.length_pos_of_mem new
  simp only [Substitution.size, Substitution.compose, Substitution.keep, List.length_append,
    List.filter_eq_self.mpr kept]
  simp only [Substitution.keep] at some
  simpa [Substitution.mapRange] using some

/-- An elimination binds one more variable. -/
theorem size_lt_eliminate {P : Term → Prop} (neat : state.Neat P n)
    (usable : ∀ e ∈ state.definitions.equations, ∀ v ∈ e.vars, state.Usable n v)
    (applied : state.eliminate = .ok (some next)) :
    state.solved.size < next.solved.size := by
  rcases eliminate_cases state with ⟨none, _⟩ | ⟨e, listed, x, y, left, right, step⟩
  · rw [none] at applied
    cases applied
  · rw [step] at applied
    obtain ⟨binding, bound, result⟩ := exists_of_bind_eq_ok applied
    cases result
    obtain ⟨images, domain⟩ := Substitution.singleton_var bound
    have usableX : state.Usable n x := usable e listed x (by simp [Equation.vars, left, Term.vars])
    have usableY : state.Usable n y := usable e listed y (by simp [Equation.vars, right, Term.vars])
    have other : x ≠ y := by
      rintro rfl
      have proper := neat.proper e listed
      rw [Equation.isTrivial, left, right] at proper
      exact absurd BEq.rfl (Bool.eq_false_iff.mp proper)
    exact size_lt_compose ⟨images, domain⟩ other neat.solved usableX usableY

variable (sorted : signature.OneSorted) (within : signature.Within known) (proper : state.Proper known session.names)
  (solved : state.SolvedBy signature session.names m)
include sorted within proper solved

/-- No rule fails on a state with a solution, and the result of a rule inherits the solution. -/
theorem ends_apply_inherits (rule : Rule) : (state.apply signature rule).Ends session
    (fun result after => ∀ next, result = some next → Inherits signature session.names m after.names next)
    (fun _ => False) := by
  have pure' {outcome : Except Failure (Option State)} (keeps : Keeps signature session.names m outcome) :
      (Search.ofExcept outcome).Ends session
        (fun result after => ∀ next, result = some next → Inherits signature session.names m after.names next)
        (fun _ => False) := by
    obtain ⟨result, rfl, inherits⟩ := keeps
    exact ends_pure inherits
  cases rule with
  | eliminate => exact pure' (keeps_eliminate sorted proper solved)
  | sameBase => exact pure' (keeps_mergePowers sorted within proper solved .base)
  | sameExponent => exact pure' (keeps_mergePowers sorted within proper solved .exponent)
  | mergePairs => exact pure' (keeps_mergePairs sorted within proper solved)
  | decompose => exact pure' (keeps_decompose sorted within proper solved)
  | distribute => exact ends_distribute_inherits sorted within proper solved
  | compose => exact ends_composeExponents_inherits sorted within proper solved

end Rules

structure Solvable (signature : Signature) (known : FunctionSymbol → Prop) (n : Nat) (m : Variable → Term) (n' : Nat)
    (state : State) : Prop where
  proper : state.Proper known n'
  inherits : Inherits signature n m n' state

theorem Solvable.mono {n'' : Nat} (solvable : Solvable signature known n m n' state) (grown : n' ≤ n'') :
    Solvable signature known n m n'' state := by
  obtain ⟨proper, m', solved, extended⟩ := solvable
  exact ⟨proper.mono grown, m', ⟨solved.tidy.mono grown, solved.holds, solved.regular⟩, extended⟩

section Settling

variable {I : State → Session → Prop} {fails : Failure → Prop}
  (binds : ∀ {state : State} {session : Session} {next : State}, I state session → state.eliminate = .ok (some next) →
    state.solved.size < next.solved.size)
include binds

private theorem eq_or_size_lt_of_path (path : Path setting I [.eliminate] state next) :
    next = state ∨ state.solved.size < next.solved.size := by
  induction path with
  | refl => exact .inl rfl
  | tail _ step ih =>
    obtain ⟨rule, member, session, after, holds, applied⟩ := step
    obtain rfl := List.mem_singleton.mp member
    have bound := binds holds (ok_of_ofExcept applied)
    rcases ih with rfl | less
    · exact .inr bound
    · exact .inr (Nat.lt_trans less bound)

/-- Where eliminations bind variables, a settled state admits no rule that merges, distributes or
eliminates: a round that binds no variable has not eliminated any, so that it ends in the state that the
merging rules have left. -/
theorem Invariant.ends_settle_idle (inv : Invariant setting I fails) (holds : I state session) (fuel : Nat) :
    (settle setting fuel state).Ends session (fun next after => I next after ∧
      (∀ rule ∈ Rule.mergingAndDistributing, next.Idle setting.signature rule) ∧
      next.Idle setting.signature .eliminate) fails := by
  refine (inv.ends_settle holds fuel).mono ?_ fun _ failed => failed
  rintro next after _ ⟨holds', eliminated, merged, idle, path, size⟩
  rcases eq_or_size_lt_of_path binds path with rfl | less
  · exact ⟨holds', idle, eliminated⟩
  · omega

end Settling

section Saturation

variable (sorted : setting.signature.OneSorted) (within : setting.signature.Within known)
include sorted within

/-- No rule loses the solution, and only a limit ends the run. -/
theorem invariant_solvable (n : Nat) (m : Variable → Term) : Invariant setting
    (fun state session => n ≤ session.names ∧ Solvable setting.signature known n m session.names state)
      Failure.IsLimit where
  later solvable grown := ⟨Nat.le_trans solvable.1 grown, solvable.2.mono grown⟩
  rule := by
    rintro state session ⟨older, proper, m', solved, extended⟩ valid rule
    have refines := ends_apply within proper (acyclic_of_validate valid) rule
    have inherits := ends_apply_inherits sorted within proper solved rule
    refine (refines.and inherits).mono ?_ fun _ fails => fails.2.elim
    rintro result after grown ⟨refines, inherits⟩ next same
    obtain ⟨m'', solved', extended'⟩ := inherits next same
    exact ⟨by omega, (refines next same).proper, m'', solved', extended.trans older extended'⟩
  validation := by
    rintro state session failure ⟨_, _, m', solved, _⟩ failed
    exact limitReached_of_validate sorted solved failed
  limit limit := limit

/-- A settled state admits no rule that merges, distributes or eliminates. -/
structure Settled (setting : Setting) (known : FunctionSymbol → Prop) (n : Nat) (m : Variable → Term) (n' : Nat)
    (state : State) :
    Prop where
  solvable : Solvable setting.signature known n m n' state
  merged : ∀ rule ∈ Rule.mergingAndDistributing, state.Idle setting.signature rule
  eliminated : state.Idle setting.signature .eliminate

/-- Every round of settling ends with eliminations. A round that binds no variable has not applied any. -/
theorem ends_settle_solvable (solvable : Solvable setting.signature known n m session.names state)
    (older : n ≤ session.names) (fuel : Nat) : (settle setting fuel state).Ends session
      (fun next after => Settled setting known n m after.names next) Failure.IsLimit := by
  refine ((invariant_solvable sorted within n m).ends_settle_idle ?_ ⟨older, solvable⟩ fuel).mono ?_
    fun _ limit => limit
  · rintro state session next ⟨_, proper, _, solved, _⟩ applied
    exact size_lt_eliminate (tidy_iff_neat.mp solved.tidy) proper.usable applied
  · rintro next after _ ⟨⟨_, solvable'⟩, idle, eliminated⟩
    exact ⟨solvable', idle, eliminated⟩

end Saturation

end ExpAC

end Equational
