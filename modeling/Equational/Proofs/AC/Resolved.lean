import Equational.Proofs.AC.Check
import Equational.Proofs.AC.Soundness
import Equational.Proofs.Unification.Resolved

/-! The shape of the unifiers modulo one associative-commutative symbol. The atoms are bound to
combinations of constants and fresh variables, and the base is solved before, so their
composition is resolved. Nothing is asked of the equations but that their variables are in use. -/

namespace Equational.AC

open Search Substitution

variable {f : FunctionSymbol} {atoms : List Term} {equations : List Equation} {base θ : Substitution}
  {session : Session} {shares : List Share} {v : Variable} {n n' : Nat}

private theorem vars_of_mem_members {side atom : Term} (member : atom ∈ members f side) (occurs : v ∈ atom.vars) :
    v ∈ side.vars := by
  simp only [members] at member
  split at member
  · cases side with
    | node g args => exact Term.mem_varsList.mpr ⟨atom, member, occurs⟩
    | var w => cases member
    | const c => cases member
  · rwa [List.mem_singleton.mp member] at occurs

private theorem vars_of_mem_activeAtoms {atom : Term} (active : atom ∈ activeAtoms f equations)
    (occurs : v ∈ atom.vars) :
    v ∈ equations.flatMap Equation.vars := by
  obtain ⟨e, member, listed⟩ := (mem_activeAtoms active).1
  refine List.mem_flatMap.mpr ⟨e, member, List.mem_append.mpr ?_⟩
  exact (List.mem_append.mp listed).imp (vars_of_mem_members · occurs) (vars_of_mem_members · occurs)

private theorem closed_of_check (checked : check f equations = .ok ()) :
    ∀ atom ∈ activeAtoms f equations, atom.isVariable = false → atom.vars = [] := by
  intro atom active proper
  obtain ⟨e, member, listed⟩ := (mem_activeAtoms active).1
  rcases (of_check_ok checked e member atom listed).2 with variable' | ground
  · rw [proper] at variable'
    cases variable'
  · exact List.isEmpty_iff.mp ground

private theorem Drawn.vars {vectors : List (List Nat)} (drawn : Drawn f atoms n vectors shares)
    (closed : ∀ atom ∈ atoms, atom.isVariable = false → atom.vars = []) :
    ∀ x ∈ shares, ∀ v ∈ x.term.vars, x.term = .var v ∧ n ≤ v.id.index := by
  induction drawn with
  | nil => simp
  | @constant n vector vectors shares constant count others found _ ih =>
    have member : (constant, count) ∈ constantShares atoms vector := by simp [found]
    refine List.forall_mem_cons.mpr ⟨fun v occurs => ?_, ih⟩
    rw [closed constant (mem_of_constantShares member) (isVariable_of_constantShares found)] at occurs
    cases occurs
  | fresh _ _ ih =>
    refine List.forall_mem_cons.mpr ⟨fun v occurs => ?_, fun x member v occurs => ?_⟩
    · obtain rfl := List.mem_singleton.mp occurs
      exact ⟨rfl, Nat.le_refl _⟩
    · exact ⟨(ih x member v occurs).1, Nat.le_of_succ_le (ih x member v occurs).2⟩

private theorem domain_assemble {chosen : List Share} {column : Nat} {θ' : Substitution}
    (assembled : assemble f chosen column atoms θ = some θ') (bound : v ∈ θ'.domain) :
    v ∈ θ.domain ∨ .var v ∈ atoms := by
  induction atoms generalizing column θ with
  | nil =>
    cases assembled
    exact .inl bound
  | cons atom rest ih =>
    cases atom with
    | const c => exact (ih (assemble_of_assemble_cons rfl assembled)).imp id (List.mem_cons_of_mem _)
    | node g args => exact (ih (assemble_of_assemble_cons rfl assembled)).imp id (List.mem_cons_of_mem _)
    | var w =>
      obtain ⟨t, θ₁, _, added, later⟩ := exists_of_assemble_var assembled
      rcases ih later with earlier | among
      · obtain ⟨u, member⟩ := mem_domain_iff.mp earlier
        rcases mem_bindings_of_add added member with old | ⟨rfl, _⟩
        · exact .inl (mem_domain_iff.mpr ⟨u, old⟩)
        · exact .inr (List.mem_cons_self ..)
      · exact .inr (List.mem_cons_of_mem _ among)

private theorem resolved_assemble {chosen : List Share} (inUse : ∀ v, .var v ∈ atoms → v.id.index < n)
    (fresh : ∀ x ∈ chosen, ∀ v ∈ x.term.vars, n ≤ v.id.index ∧ v.id.index < n')
    (assembled : assemble f chosen 0 atoms .empty = some θ) :
    θ.Resolved (.var · ∈ atoms) (fun v => n ≤ v.id.index ∧ v.id.index < n') := by
  have domain (v : Variable) (bound : v ∈ θ.domain) :
      .var v ∈ atoms := (domain_assemble assembled bound).resolve_left nofun
  have range : ∀ t ∈ θ.range, ∀ v ∈ t.vars, n ≤ v.id.index ∧ v.id.index < n' :=
    range_assemble (fun _ _ => Term.Within.app f) fresh (by simp [empty, Substitution.range]) assembled
  refine ⟨fun t member v occurs bound => ?_, domain, range⟩
  have new := (range t member v occurs).1
  have old := inUse v (domain v bound)
  omega

/-- Every combination of the shares with the base is resolved. -/
theorem resolved_combinations {vars : List Variable} (inUse : ∀ v ∈ vars, v.id.index < n)
    (based : base.Resolved (· ∈ vars) (· ∈ vars)) (scope : ∀ v ∈ equations.flatMap Equation.vars, v ∈ vars)
    (fresh : ∀ x ∈ shares, ∀ v ∈ x.term.vars, n ≤ v.id.index ∧ v.id.index < n') :
    ∀ σ ∈ combinations f base equations shares, σ.Resolved (· ∈ vars) (Available vars n n') := by
  intro σ member
  obtain ⟨chosen, among, _, θ, assembled, _, rfl⟩ := mem_combinations.mp member
  have atoms (v : Variable) (active : .var v ∈ activeAtoms f equations) : v ∈ vars :=
    scope v (vars_of_mem_activeAtoms active (by simp [Term.vars]))
  have each : ∀ x ∈ chosen, ∀ v ∈ x.term.vars, n ≤ v.id.index ∧ v.id.index < n' := by
    intro x inside
    have origin := (mem_of_mem_choices among x inside).resolve_right List.not_mem_nil
    exact fresh x (List.mem_reverse.mp origin)
  have assembled' := resolved_assemble (fun v active => inUse v (atoms v active)) each assembled
  refine (based.mono (fun _ listed => listed) fun _ => .inl).compose (assembled'.mono atoms fun _ => .inr) ?_
  intro t inside v occurs bound
  have new := (assembled'.range t inside v occurs).1
  have old := inUse v (based.domain v bound)
  omega

/-- The search returns at least one unifier, and each is resolved: it binds variables of the
equations, and over its terms occur those and variables drawn in the search. -/
theorem ends_solve_resolved (limits : Limits)
    (inUse : ∀ v ∈ equations.flatMap Equation.vars, v.id.index < session.names) :
    (solve limits equations).Ends session (fun unifiers after => unifiers ≠ [] ∧ ∀ σ ∈ unifiers,
      σ.Resolved (· ∈ equations.flatMap Equation.vars)
        (Available (equations.flatMap Equation.vars) session.names after.names)) (fun _ => True) := by
  have part (test : Equation → Bool) : ∀ v ∈ (equations.filter test).flatMap Equation.vars,
      v ∈ equations.flatMap Equation.vars := by
    intro v occurs
    obtain ⟨e, member, inside⟩ := List.mem_flatMap.mp occurs
    exact List.mem_flatMap.mpr ⟨e, List.mem_of_mem_filter member, inside⟩
  have solvedPart {part : List Equation} (sub : ∀ v ∈ part.flatMap Equation.vars, v ∈ equations.flatMap Equation.vars)
      {σ : Substitution} (solved : unifyAll part = .ok σ) :
      σ.Resolved (· ∈ equations.flatMap Equation.vars) (· ∈ equations.flatMap Equation.vars) :=
    (resolved_of_unifyAll solved).mono sub sub
  have unrootedPart (f : FunctionSymbol) : ∀ v ∈ (unrooted f (equations.filter (!·.isTrivial))).flatMap Equation.vars,
      v ∈ equations.flatMap Equation.vars := by
    rw [unrooted, List.filter_filter]
    exact part _
  refine ends_outcome limits ?_ ?_ ?_ fun _ _ => trivial
  · intro σ _ solved
    refine ⟨List.cons_ne_nil _ _, List.forall_mem_singleton.mpr ?_⟩
    exact (solvedPart (part _) solved).mono (fun _ bound => bound) fun _ => .inl
  · intro f base based _
    refine ⟨List.cons_ne_nil _ _, List.forall_mem_singleton.mpr ?_⟩
    exact (solvedPart (unrootedPart f) based.solved).mono (fun _ bound => bound) fun _ => .inl
  · intro f base shares after prepared below some
    have based := solvedPart (unrootedPart f) prepared.based.solved
    obtain ⟨vectors, _, drawn⟩ := prepared.drawn
    have fresh := drawn.vars (closed_of_check prepared.checked)
    refine ⟨some, resolved_combinations inUse based ?_ fun x member v occurs => ?_⟩
    · intro v occurs
      obtain ⟨e, member, inside⟩ := List.mem_flatMap.mp occurs
      have kept : v ∈ (((equations.filter (!·.isTrivial)).filter (isRooted f)).map base.applyEquation).flatMap
          Equation.vars :=
        List.mem_flatMap.mpr ⟨e, List.mem_of_mem_filter member, inside⟩
      refine (based.of_mem_vars_applyEquations ?_ kept).1
      rw [List.filter_filter]
      exact part _
    · obtain ⟨same, older⟩ := fresh x member v occurs
      exact ⟨older, below x member v same⟩

end Equational.AC
