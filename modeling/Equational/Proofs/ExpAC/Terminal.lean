import Equational.Proofs.ExpAC.Saturation

/-! Every solution of the problem survives in a state that is closed. A search that ends before it
has closed such a state has reached a limit, so what else a search can lose, it loses in closing. -/

namespace Equational

namespace ExpAC

open Search State

variable {setting : Setting} {signature : Signature} {problem : Problem} {interner : Interner} {state : State}
  {session : Session} {m : Variable → Term} {n : Nat} {t : Term} {τ : Substitution}

/-- A state that is closed: no rule that merges, distributes or eliminates applies to it, and it has no alternatives. -/
structure Terminal (setting : Setting) (problem : Problem) (interner : Interner) (state : State) (session : Session) :
    Prop where
  reached : Reached setting problem interner state session
  merged : ∀ rule ∈ Rule.mergingAndDistributing, state.Idle setting.signature rule
  eliminated : state.Idle setting.signature .eliminate
  unbranched : ∃ after, state.alternatives setting.signature session = .ok none after

/-- The state has a solution by regular terms that is the substitution on the variables of the problem. -/
def Survives (signature : Signature) (problem : Problem) (τ : Substitution) (state : State) : Prop :=
  ∃ τ', τ'.IsRegular signature.f ∧ state.Solution signature τ' ∧ ∀ v ∈ problem.vars, τ'.image v = τ.image v

namespace Harvest

abbrev Any (P : Substitution → Prop) (harvest : Harvest) : Prop :=
  ∃ σ ∈ harvest.unifiers, P σ

variable {harvest next : Harvest} {outcome : Except Failure (List Substitution)} {unifiers : List Substitution}
  {failure : Failure}

section Any

variable {P : Substitution → Prop} (respects : ∀ σ σ' : Substitution, (σ == σ') = true → P σ → P σ')
include respects

private theorem any_insert {σ : Substitution} (some : harvest.Any P ∨ P σ) : (harvest.insert σ).Any P := by
  simp only [insert]
  split
  next present =>
    rcases some with old | new
    · exact old
    · obtain ⟨σ', member, same⟩ := List.contains_iff_exists_mem_beq.mp present
      exact ⟨σ', member, respects σ σ' same new⟩
  next =>
    rcases some with ⟨σ', member, old⟩ | new
    · exact ⟨σ', List.mem_append_left _ member, old⟩
    · exact ⟨σ, List.mem_append_right _ (List.mem_singleton_self σ), new⟩

private theorem any_foldl (some : harvest.Any P ∨ ∃ σ ∈ unifiers, P σ) : (unifiers.foldl insert harvest).Any P := by
  induction unifiers generalizing harvest with
  | nil => exact some.resolve_right nofun
  | cons σ unifiers ih =>
    rcases some with old | ⟨σ', member, new⟩
    · exact ih (.inl (any_insert respects (.inl old)))
    · rcases List.mem_cons.mp member with rfl | later
      · exact ih (.inl (any_insert respects (.inr new)))
      · exact ih (.inr ⟨σ', later, new⟩)

private theorem any_add (some : harvest.Any P) (added : harvest.add outcome = .ok next) : next.Any P := by
  cases outcome with
  | ok found =>
    cases added
    exact any_foldl respects (.inl some)
  | error failure => cases failure <;> simp only [add] at added <;> cases added <;> exact some

private theorem any_add_ok (some : ∃ σ ∈ unifiers, P σ) (added : harvest.add (.ok unifiers) = .ok next) :
    next.Any P := by
  cases added
  exact any_foldl respects (.inr some)

/-- A loop keeps what is there, and takes in what any of its rounds finds. -/
theorem any_foldlM {items : List Substitution} {run : Substitution → Except Failure (List Substitution)}
    (some : harvest.Any P ∨ ∃ θ ∈ items, ∃ unifiers, run θ = .ok unifiers ∧ ∃ σ ∈ unifiers, P σ)
    (folded : items.foldlM (fun harvest θ => harvest.add (run θ)) harvest = .ok next) : next.Any P := by
  induction items generalizing harvest with
  | nil =>
    cases folded
    exact some.resolve_right nofun
  | cons θ items ih =>
    rw [List.foldlM_cons] at folded
    obtain ⟨during, added, rest⟩ := exists_of_bind_eq_ok folded
    rcases some with old | ⟨θ', member, unifiers, found, new⟩
    · exact ih (.inl (any_add respects old added)) rest
    · rcases List.mem_cons.mp member with rfl | later
      · rw [found] at added
        exact ih (.inl (any_add_ok respects new added)) rest
      · exact ih (.inr ⟨θ', later, unifiers, found, new⟩) rest

end Any

theorem any_result {P : Substitution → Prop} (some : harvest.Any P) : harvest.result = .ok harvest.unifiers := by
  obtain ⟨σ, member, _⟩ := some
  rw [result, if_neg fun none => by simp [List.isEmpty_iff.mp none] at member]

private theorem isLimit_of_add (failed : harvest.add outcome = .error failure) : failure.IsLimit := by
  cases outcome with
  | ok found => cases failed
  | error failure' =>
    cases failure' <;> simp only [add] at failed <;> cases failed
    exact ⟨_, rfl⟩

theorem isLimit_of_foldlM {items : List Substitution} {run : Substitution → Except Failure (List Substitution)}
    (failed : items.foldlM (fun harvest θ => harvest.add (run θ)) harvest = .error failure) : failure.IsLimit := by
  induction items generalizing harvest with
  | nil => cases failed
  | cons θ items ih =>
    rw [List.foldlM_cons] at failed
    rcases exists_of_bind_eq_error failed with first | ⟨_, _, rest⟩
    · exact isLimit_of_add first
    · exact ih rest

private theorem not_isLimit_of_add (added : harvest.add (.error failure) = .ok next) : ¬ failure.IsLimit := by
  rintro ⟨limit, rfl⟩
  cases added

end Harvest

section Instances

private theorem equal_instantiate_var (kept : ∀ h ∈ t.symbols, h.theory ≠ .idempotent) :
    EqualModulo signature t (t.instantiate .var) := by
  induction t with
  | var v | const c => exact .refl _
  | node h args ih =>
    rw [Term.instantiate_node]
    refine EqualModulo.trans (.symm (.of_shape (Term.shape_app (kept h (by simp [Term.symbols])) args))) (.app h ?_)
    rw [List.forall₂_map_right_iff, List.forall₂_same]
    exact fun arg member => ih arg member fun g occurs =>
      kept g (Term.mem_symbols_node.mpr (.inr ⟨arg, member, occurs⟩))

private theorem equal_apply_of_isRegular (sorted : signature.OneSorted) (regular : t.isRegular signature.f = true)
    (τ : Substitution) :
    EqualModulo signature (τ.apply t) (t.instantiate τ.image) := by
  have kept : ∀ h ∈ t.symbols, h.theory ≠ .idempotent := by
    induction t with
    | var v | const c => simp [Term.symbols]
    | node g args ih =>
      obtain ⟨symbol, _, _, inside⟩ := Term.isRegular_node.mp regular
      intro h member
      rcases Term.mem_symbols_node.mp member with rfl | ⟨arg, listed, occurs⟩
      · rcases symbol with rfl | free
        · simp [sorted.f]
        · simp [free]
      · exact ih arg listed (inside arg listed) h occurs
  rcases τ.apply_eq_or t with rebuilt | ⟨none, same⟩
  · rw [rebuilt]
    exact .refl _
  · rw [same, none]
    exact equal_instantiate_var kept

end Instances

section Idleness

private theorem applyFirst_of_idle {rules : List Rule} (idle : ∀ rule ∈ rules, state.Idle setting.signature rule) :
    applyFirst setting state rules = pure none := by
  induction rules with
  | nil => rfl
  | cons rule rules ih =>
    obtain ⟨first, rest⟩ := List.forall_mem_cons.mp idle
    rw [applyFirst, first, pure_bind]
    exact ih rest

/-- Saturation leaves a state alone that no rule applies to. -/
theorem exhaust_of_idle {rules : List Rule} (idle : ∀ rule ∈ rules, state.Idle setting.signature rule) :
    exhaust setting rules state = validate setting state >>= fun _ => pure state := by
  rw [exhaust, rounds]
  congr 1
  funext
  rw [saturate, applyFirst_of_idle idle, pure_bind]

end Idleness

section Survival

variable (posed : Posed setting.signature problem interner) {P : Substitution → Prop}
  (respects : ∀ σ σ' : Substitution, (σ == σ') = true → P σ → P σ')
include posed

include respects in
/-- If every terminal state that inherits the solution closes well, then so does a branch with the solution. -/
theorem ends_branch_of_closes
    (closes : ∀ state session, Terminal setting problem interner state session →
      Solvable setting.signature (Spelled setting.signature problem) n m session.names state →
      ∀ after, (close setting state).Ends after (fun unifiers _ => ∃ σ ∈ unifiers, P σ) Failure.IsLimit)
    (reached : Reached setting problem interner state session)
    (solvable : Solvable setting.signature (Spelled setting.signature problem) n m session.names state)
    (older : n ≤ session.names) (fuel : Nat) :
    (branch setting fuel state).Ends session (fun unifiers _ => ∃ σ ∈ unifiers, P σ) Failure.IsLimit := by
  induction fuel generalizing state session with
  | zero => exact ends_throw ⟨_, rfl⟩
  | succ fuel ih =>
    have settles := ends_settle_solvable posed.sorted posed.within solvable older (rounds setting)
    refine Ends.bind ((settles.and ((invariant_reached ..).ends_settle reached _)).mono (fun _ _ _ both => both)
      fun _ fails => fails.1) ?_
    rintro settled during grown ⟨settles, ⟨arrived, _⟩⟩
    obtain ⟨proper, m', solved, extended⟩ := settles.solvable
    have inherits := ends_alternatives_inherits posed.sorted posed.within proper solved
    refine Ends.bind ((inherits.and (ends_alternatives posed.within proper)).ran.mono (fun _ _ _ found => found)
      fun _ fails => fails.1.elim) ?_
    rintro result before drawn ⟨ran, inherits, refines⟩
    cases result with
    | none =>
      have idle := List.forall_mem_singleton.mpr settles.eliminated
      change (exhaust setting [.eliminate] settled >>= close setting).Ends ..
      rw [exhaust_of_idle idle, bind_assoc]
      refine (invariant_solvable posed.sorted posed.within n m).ends_validate
        ⟨by omega, settles.solvable.mono drawn⟩ fun _ => ?_
      rw [pure_bind]
      exact closes _ _ ⟨arrived, settles.merged, settles.eliminated, _, ran⟩ settles.solvable before
    | some alternatives =>
      obtain ⟨next, member, m'', solved', extended'⟩ := inherits alternatives rfl
      have solvable' := Solvable.mk (refines alternatives rfl _ member next rfl).proper
        ⟨m'', solved', extended.trans (by omega) extended'⟩
      refine Ends.bind (ends_foldlM_of_mem (I := Harvest.Any P) member ?_ ?_) ?_
      · -- Other alternatives may fail, but only a limit ends the loop.
        intro alternative listed harvest during _
        refine (ends_tick ⟨_, rfl⟩).bind ?_
        intro _ ticked later _
        have tried : Ends (do branch setting fuel (← Search.ofExcept alternative)) ticked (fun _ _ => True)
            (fun _ => True) :=
          ends_ofExcept_bind (fun next found =>
            (ends_branch posed.within ((refines alternatives rfl _ listed next found).proper.mono
              (by omega)) fuel).mono
              (fun _ _ _ _ => trivial) fun _ _ => trivial) fun _ _ => trivial
        exact tried.attempt.bind fun outcome _ _ _ =>
          ends_ofExcept (fun _ added kept => Harvest.any_add respects kept added) fun _ => Harvest.isLimit_of_add
      · intro harvest during _
        refine (ends_tick ⟨_, rfl⟩).bind ?_
        intro _ ticked later _
        have reached' : Reached setting problem interner next ticked :=
          (arrived.alternative ran member).later (by omega)
        refine (Ends.attempt (ih reached' (solvable'.mono (by omega)) (by omega))).bind ?_
        rintro outcome _ _ ⟨found, limit⟩
        refine ends_ofExcept (fun harvest added => ?_) fun _ => Harvest.isLimit_of_add
        cases outcome with
        | ok unifiers => exact Harvest.any_add_ok respects (found unifiers rfl) added
        | error failure => exact absurd (limit failure rfl) (Harvest.not_isLimit_of_add added)
      · rintro harvest _ _ ⟨σ, member, holds⟩
        rw [Harvest.any_result ⟨σ, member, holds⟩]
        exact ends_pure ⟨σ, member, holds⟩

include respects in
private theorem ends_solve_of_closes (regular : RegularOn setting.signature m)
    (holds : ∀ e ∈ problem.equations, e.HoldsModulo setting.signature m)
    (closes : ∀ state session, Terminal setting problem interner state session →
      Solvable setting.signature (Spelled setting.signature problem) interner.variableCount m session.names state →
      ∀ after, (close setting state).Ends after (fun unifiers _ => ∃ σ ∈ unifiers, P σ) Failure.IsLimit) :
    (solve setting problem).Ends { interner, fresh := { stem := setting.limits.freshStem } }
      (fun unifiers _ => ∃ σ ∈ unifiers, P σ) Failure.IsLimit := by
  let start : Session := { interner, fresh := { stem := setting.limits.freshStem } }
  have given : EverySide (Given (Spelled setting.signature problem) start.names) problem.equations := posed.given
  have inherits := ends_purify_inherits posed.sorted posed.regular given regular holds
  refine Ends.bind ((inherits.and (ends_purify setting.signature posed.given)).ran.mono (fun _ _ _ found => found)
    fun _ fails => fails.1.elim) ?_
  rintro flat after grown ⟨ran, inherits, proper, _⟩
  have purified : Reached setting problem interner flat after := .start ran
  have prepared := (invariant_solvable posed.sorted posed.within _ m).ends_prepare ⟨grown, proper, inherits⟩
  refine Ends.bind ((prepared.and ((invariant_reached ..).ends_prepare purified)).mono (fun _ _ _ both => both)
    fun _ fails => fails.1) ?_
  rintro state session later ⟨⟨older, solvable⟩, reached⟩
  exact ends_branch_of_closes posed respects closes reached solvable older _

include respects in
/-- As `ends_solve_of_closes`, for a substitution and the outcome of a run. -/
theorem exists_of_closes (regular : τ.IsRegular setting.signature.f)
    (solves : ∀ e ∈ problem.equations, EqualModulo setting.signature (τ.apply e.lhs) (τ.apply e.rhs))
    (closes : ∀ state session, Terminal setting problem interner state session →
      Solvable setting.signature (Spelled setting.signature problem) interner.variableCount τ.image
        session.names state →
      ∀ after, (close setting state).Ends after (fun unifiers _ => ∃ σ ∈ unifiers, P σ) Failure.IsLimit)
    (finished : ∀ failure, ((solve setting problem).run setting.limits.freshStem interner).1 = .error failure →
      ¬ failure.IsLimit) :
    ∃ unifiers, ((solve setting problem).run setting.limits.freshStem interner).1 = .ok unifiers ∧
    ∃ σ ∈ unifiers, P σ := by
  have holds : ∀ e ∈ problem.equations, e.HoldsModulo setting.signature τ.image := fun e member =>
    (equal_apply_of_isRegular posed.sorted (posed.regular e member).1 τ).symm.trans ((solves e member).trans
      (equal_apply_of_isRegular posed.sorted (posed.regular e member).2 τ))
  have ends := ends_solve_of_closes posed respects (.of_isRegular regular) holds closes
  cases outcome : ((solve setting problem).run setting.limits.freshStem interner).1 with
  | ok unifiers =>
    obtain ⟨_, found⟩ := ends.of_run outcome
    exact ⟨unifiers, rfl, found⟩
  | error failure => exact absurd (ends.of_run_error outcome) (finished failure outcome)

theorem survives_of_solvable (solvable : Solvable setting.signature (Spelled setting.signature problem)
    interner.variableCount τ.image session.names state) : Survives setting.signature problem τ state :=
  exists_solution_of_inherits (fun v member => ⟨posed.interned v member, posed.sorts v member⟩) solvable.proper
    solvable.inherits

end Survival

end ExpAC

end Equational
