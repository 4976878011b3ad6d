import Equational.ExpAC.Unification
import Equational.Proofs.ExpAC.State
import Equational.Proofs.Failure
import Equational.Proofs.Search

/-! The ways in which closing and branching end. Closing solves the combinations that depend on each
other and tries each of their unifiers on the definitions that are left; branching tries each
alternative. What holds of every unifier that is found holds of all that are returned. -/

namespace Equational

theorem unifyAll_nil : unifyAll [] = .ok .empty := by
  rw [unifyAll, Unifier.solve]

/-- Of no equations there is one unifier, which binds nothing. -/
theorem AC.solve_nil (limits : Limits) : solve limits [] = pure [.empty] := by
  have combiner : combiner? [] = .ok none := rfl
  simp only [solve, List.filter_nil, combiner, unifyAll_nil]
  rfl

namespace ExpAC

open Search

variable {setting : Setting} {signature : Signature} {state : State} {session : Session} {e : Equation}

theorem ends_tick {fails : Failure → Prop} (limit : fails (stepsExhausted setting)) :
    (tick setting).Ends session (fun _ _ => True) fails := by
  rw [Ends, tick]
  dsimp only
  split
  next _ _ ran =>
    split at ran <;> cases ran
    exact ⟨Nat.le_refl session.names, trivial⟩
  next _ _ ran =>
    split at ran <;> cases ran
    exact ⟨Nat.le_refl session.names, limit⟩

namespace Harvest

variable {P : Substitution → Prop} {fails : Failure → Prop} {harvest : Harvest}
  {outcome : Except Failure (List Substitution)}

/-- What holds of the unifiers found, and what the failure met means, if there is one. -/
structure All (P : Substitution → Prop) (fails : Failure → Prop) (harvest : Harvest) : Prop where
  unifiers : ∀ σ ∈ harvest.unifiers, P σ
  failure : ∀ failure, harvest.failure? = some failure → fails failure

private theorem all_empty : All P fails {} :=
  ⟨nofun, nofun⟩

private theorem all_insert {σ : Substitution} (all : harvest.All P fails) (new : P σ) :
    (harvest.insert σ).All P fails := by
  simp only [insert]
  split
  · exact all
  · exact ⟨List.forall_mem_append.mpr ⟨all.unifiers, List.forall_mem_singleton.mpr new⟩, all.failure⟩

private theorem gives_add (all : harvest.All P fails) (tried : outcome.Gives (∀ σ ∈ ·, P σ) fails) :
    (harvest.add outcome).Gives (·.All P fails) fails := by
  simp only [add]
  split
  next unifiers =>
    have new : ∀ σ ∈ unifiers, P σ := tried
    change (unifiers.foldl insert harvest).All P fails
    clear tried
    induction unifiers generalizing harvest with
    | nil => exact all
    | cons σ unifiers ih =>
      obtain ⟨first, rest⟩ := List.forall_mem_cons.mp new
      exact ih (all_insert all first) rest
  next => exact tried
  next failure _ =>
    refine ⟨all.unifiers, fun failure' met => ?_⟩
    rcases Option.or_eq_some_iff.mp met with before | ⟨_, now⟩
    · exact all.failure failure' before
    · cases now
      exact tried

theorem gives_gather {items : List Substitution} {run : Substitution → Except Failure (List Substitution)}
    (each : ∀ θ ∈ items, (run θ).Gives (∀ σ ∈ ·, P σ) fails) :
    (items.foldlM (fun (harvest : Harvest) θ => harvest.add (run θ)) {}).Gives (·.All P fails) fails :=
  Except.gives_foldlM all_empty fun θ member _ all => gives_add all (each θ member)

/-- All paths together succeed with at least one unifier. -/
theorem gives_result (all : harvest.All P fails) (noBranch : fails (.unsatisfiable .noBranch)) :
    harvest.result.Gives (fun unifiers => unifiers ≠ [] ∧ ∀ σ ∈ unifiers, P σ) fails := by
  simp only [result]
  split
  next =>
    cases met : harvest.failure? with
    | none => exact noBranch
    | some failure => exact all.failure failure met
  next some => exact ⟨fun none => some (List.isEmpty_iff.mpr none), all.unifiers⟩

end Harvest

namespace State

section Parts

variable (signature : Signature) (state : State)

def combinations : List Equation :=
  state.definitions.equations.filter (·.rhs.isRootedAt signature.f.id)

def residual : List Equation :=
  (state.combinations signature).filter (!isSeparate (state.combinations signature) ·)

def closing : List Equation :=
  state.definitions.equations.filter (!·.rhs.isRootedAt signature.f.id) ++
    (state.combinations signature).filter (isSeparate (state.combinations signature)) ++
    state.solved.toProblem.equations

end Parts

theorem mem_closing (member : e ∈ state.closing signature) :
    e ∈ state.definitions.equations ∨ ∃ p ∈ state.solved.bindings, e = ⟨.var p.1, p.2⟩ := by
  rcases List.mem_append.mp member with kept | eliminated
  · rcases List.mem_append.mp kept with plain | combined
    · exact .inl (List.mem_of_mem_filter plain)
    · exact .inl (List.mem_of_mem_filter (List.mem_of_mem_filter combined))
  · obtain ⟨p, listed, same⟩ := Substitution.mem_toProblem.mp eliminated
    exact .inr ⟨p, listed, same.symm⟩

private theorem mem_closing_or (member : e ∈ state.definitions.equations) :
    e ∈ state.closing signature ∨ e ∈ state.residual signature := by
  cases rooted : e.rhs.isRootedAt signature.f.id with
  | false =>
    have kept : e ∈ state.definitions.equations.filter (!·.rhs.isRootedAt signature.f.id) :=
      List.mem_filter.mpr ⟨member, by simp [rooted]⟩
    exact .inl (List.mem_append_left _ (List.mem_append_left _ kept))
  | true =>
    have inside : e ∈ state.combinations signature := List.mem_filter.mpr ⟨member, rooted⟩
    cases separate : isSeparate (state.combinations signature) e with
    | true => exact .inl (List.mem_append_left _ (List.mem_append_right _ (List.mem_filter.mpr ⟨inside, separate⟩)))
    | false => exact .inr (List.mem_filter.mpr ⟨inside, by simp [separate]⟩)

/-- What a state says: what is closed, and what is left to the residual problem. -/
theorem holdsIn_iff_parts {E : Term → Term → Prop} {m : Variable → Term} (congruence : Term.Congruence E)
    (signature : Signature) :
    state.HoldsIn E m ↔ (∀ e ∈ state.closing signature, e.HoldsIn E m) ∧ ∀ e ∈ state.residual signature,
      e.HoldsIn E m := by
  constructor
  · rintro ⟨definitions, solved⟩
    refine ⟨fun e member => ?_, fun e member => definitions e
      (List.mem_of_mem_filter (List.mem_of_mem_filter member))⟩
    rcases mem_closing member with listed | ⟨p, bound, rfl⟩
    · exact definitions e listed
    · have value := solved p.1
      rwa [Substitution.image_of_mem bound] at value
  · rintro ⟨closed, residual⟩
    refine ⟨fun e member => (mem_closing_or member).elim (closed e) (residual e), fun v => ?_⟩
    rcases state.solved.image_mem_or v with bound | ⟨_, free⟩
    · exact closed _ (List.mem_append_right _ (Substitution.mem_toProblem.mpr ⟨_, bound, rfl⟩))
    · rw [free]
      exact congruence.refl _

variable {P : Term → Prop} (definitions : EverySide P state.definitions.equations)
include definitions

theorem everySide_residual (signature : Signature) : EverySide P (state.residual signature) :=
  everySide_filter (everySide_filter definitions _) _

theorem everySide_closing (signature : Signature) (bindings : ∀ p ∈ state.solved.bindings, P (.var p.1) ∧ P p.2) :
    EverySide P (state.closing signature) := by
  intro e member
  rcases mem_closing member with listed | ⟨p, listed, rfl⟩
  · exact definitions e listed
  · exact bindings p listed

end State

/-- The residual problem is solved, also when it is empty, and its unifiers are tried in turn. -/
theorem close_eq (setting : Setting) (state : State) : close setting state = (do
    let thetas ← AC.solve setting.limits (state.residual setting.signature)
    Search.ofExcept do
      let harvest ← thetas.foldlM
        (fun (harvest : Harvest) θ => harvest.add ((closeWith setting (state.closing setting.signature) θ).map ([·])))
          {}
      harvest.result) := by
  simp only [close, List.partition_eq_filter_filter]
  by_cases none : state.residual setting.signature = []
  · rw [none, AC.solve_nil]
    exact if_pos (List.isEmpty_iff.mpr none)
  · exact if_neg fun empty => none (List.isEmpty_iff.mp empty)

section Together

variable {P : Nat → Substitution → Prop} {fails : Failure → Prop} (noBranch : fails (.unsatisfiable .noBranch))
include noBranch

/-- What holds of each unifier that closes the state holds of all that closing returns. -/
theorem ends_closeAll {solved : List Substitution → Session → Prop}
    (solves : (AC.solve setting.limits (state.residual setting.signature)).Ends session solved fails)
    (closes : ∀ thetas after, session.names ≤ after.names → solved thetas after → ∀ θ ∈ thetas,
      (closeWith setting (state.closing setting.signature) θ).Gives (P after.names) fails) :
    (close setting state).Ends session (fun unifiers after => unifiers ≠ [] ∧
      ∀ σ ∈ unifiers, P after.names σ) fails := by
  rw [close_eq]
  refine solves.bind fun thetas after grown found => ends_of_gives ?_
  refine (Harvest.gives_gather fun θ member => ?_).bind fun harvest all => Harvest.gives_result all noBranch
  have closed := closes thetas after grown found θ member
  cases outcome : closeWith setting (state.closing setting.signature) θ with
  | ok σ => exact List.forall_mem_singleton.mpr (closed.of_ok outcome)
  | error failure =>
    rw [outcome] at closed
    exact closed

/-- What holds of each unifier on an alternative, and stays so while others draw names, holds of
all that the alternatives return together. -/
theorem ends_tryAll {alternatives : List (Except Failure State)} {search : State → Search (List Substitution)}
    (limit : fails (stepsExhausted setting)) (later : ∀ {n n' : Nat} {σ : Substitution}, n ≤ n' → P n σ → P n' σ)
    (stuck : ∀ failure, .error failure ∈ alternatives → fails failure)
    (each : ∀ next, .ok next ∈ alternatives → ∀ during, session.names ≤ during.names →
      (search next).Ends during (fun unifiers after => ∀ σ ∈ unifiers, P after.names σ) fails) :
    Ends (do
      let harvest ← alternatives.foldlM
        (fun (harvest : Harvest) alternative => do
          tick setting
          let outcome ← Search.attempt (do search (← Search.ofExcept alternative))
          Search.ofExcept (harvest.add outcome))
        {}
      Search.ofExcept harvest.result) session
      (fun unifiers after => unifiers ≠ [] ∧ ∀ σ ∈ unifiers, P after.names σ) fails := by
  refine Ends.bind (ends_foldlM (I := fun harvest after => harvest.All (P after.names) fails) Harvest.all_empty ?_) ?_
  · intro alternative member harvest during grown all
    refine (ends_tick limit).bind fun _ ticked grown₁ _ => ?_
    have tried : Ends (do search (← Search.ofExcept alternative)) ticked
        (fun unifiers after => ∀ σ ∈ unifiers, P after.names σ) fails := by
      refine ends_ofExcept_bind (fun next found => ?_) fun failure found => ?_
      · rw [found] at member
        exact each next member ticked (by omega)
      · rw [found] at member
        exact stuck failure member
    refine tried.attempt.bind fun outcome after grown₂ found => ends_of_gives ?_
    have all' : harvest.All (P after.names) fails :=
      ⟨fun σ member => later (by omega) (all.unifiers σ member), all.failure⟩
    exact Harvest.gives_add all' (Except.gives_of found.1 found.2)
  · exact fun harvest _ _ all => ends_of_gives (Harvest.gives_result all noBranch)

end Together

end ExpAC

end Equational
