import Equational.Proofs.Diophantine.Termination
import Equational.Proofs.ExpAC.Soundness
import Equational.Unification.Modulo

/-! Limits only stop a search. Where a search does not end at a limit, the same search under wider
limits takes the same steps and draws the same names. This passes through every function that
reads a limit, because a limit that is reached is never taken for the absence of a solution. -/

namespace Equational

/-- Nothing is limited more under the second limits than under the first. -/
structure Limits.AtMost (tight loose : Limits) : Prop where
  basis : tight.acMaxBasis ≤ loose.acMaxBasis
  frontier : tight.acMaxFrontier ≤ loose.acMaxFrontier
  steps : tight.expMaxSteps ≤ loose.expMaxSteps
  equations : tight.expMaxEquations ≤ loose.expMaxEquations

/-- The first outcome is the second, unless the second is a reached limit. -/
def Failure.Relaxes (loose tight : Except Failure α) : Prop :=
  loose = tight ∨ ∃ limit, tight = .error (.limitReached limit)

/-- The first search runs as the second, unless the second ends at a limit. -/
def Search.Relaxes (loose tight : Search α) : Prop :=
  ∀ session, loose session = tight session ∨ ∃ limit after, tight session = .error (.limitReached limit) after

namespace Failure.Relaxes

variable {α β : Type}

private theorem refl (outcome : Except Failure α) : Relaxes outcome outcome :=
  .inl rfl

private theorem reached (loose : Except Failure α) (limit : Limit) : Relaxes loose (.error (.limitReached limit)) :=
  .inr ⟨limit, rfl⟩

private theorem bind {loose tight : Except Failure α} {next next' : α → Except Failure β}
    (first : Relaxes loose tight)
    (then' : ∀ value, Relaxes (next value) (next' value)) : Relaxes (loose >>= next) (tight >>= next') := by
  rcases first with rfl | ⟨limit, rfl⟩
  · cases loose with
    | ok value => exact then' value
    | error failure => exact refl _
  · exact reached _ limit

private theorem within {count bound bound' : Nat} {limit limit' : Limit} {loose tight : Except Failure α}
    (room : bound ≤ bound') (next : Relaxes loose tight) :
    Relaxes (if count > bound' then .error (.limitReached limit') else loose)
      (if count > bound then .error (.limitReached limit) else tight) := by
  by_cases beyond : count > bound
  · rw [if_pos beyond]
    exact reached _ limit
  · rw [if_neg beyond, if_neg (by omega)]
    exact next

end Failure.Relaxes

namespace Search.Relaxes

variable {α β : Type} {loose tight : Search α}

private theorem refl (search : Search α) : Relaxes search search :=
  fun _ => .inl rfl

private theorem reached (loose : Search α) (limit : Limit) : Relaxes loose (throw (.limitReached limit)) :=
  fun session => .inr ⟨limit, session, rfl⟩

private theorem ofExcept {loose tight : Except Failure α} (relaxes : Failure.Relaxes loose tight) :
    Relaxes (ofExcept loose) (ofExcept tight) := by
  rcases relaxes with rfl | ⟨limit, rfl⟩
  · exact refl _
  · exact reached _ limit

private theorem bind {next next' : α → Search β} (first : Relaxes loose tight)
    (then' : ∀ value, Relaxes (next value) (next' value)) : Relaxes (loose >>= next) (tight >>= next') := by
  intro session
  change EStateM.bind loose next session = EStateM.bind tight next' session ∨
    ∃ limit after, EStateM.bind tight next' session = .error (.limitReached limit) after
  simp only [EStateM.bind]
  rcases first session with same | ⟨limit, after, ended⟩
  · rw [same]
    cases tight session with
    | ok value after => exact then' value after
    | error failure after => exact .inl rfl
  · rw [ended]
    exact .inr ⟨limit, after, rfl⟩

private theorem foldlM {items : List β} {step step' : α → β → Search α}
    (each : ∀ value item, Relaxes (step value item) (step' value item)) (start : α) :
    Relaxes (items.foldlM step start) (items.foldlM step' start) := by
  induction items generalizing start with
  | nil => exact refl _
  | cons item items ih =>
    rw [List.foldlM_cons, List.foldlM_cons]
    exact (each start item).bind ih

private theorem attempt {use : Except Failure α → Except Failure β} (relaxes : Relaxes loose tight)
    (passesOn : ∀ limit, ∃ limit', use (.error (.limitReached limit)) = .error (.limitReached limit')) :
    Relaxes (loose.attempt >>= fun outcome => Search.ofExcept (use outcome))
      (tight.attempt >>= fun outcome => Search.ofExcept (use outcome)) := by
  intro session
  change EStateM.bind loose.attempt _ session = EStateM.bind tight.attempt _ session ∨
    ∃ limit after, EStateM.bind tight.attempt _ session = .error (.limitReached limit) after
  simp only [EStateM.bind, Search.attempt]
  rcases relaxes session with same | ⟨limit, after, ended⟩
  · exact .inl (by rw [same])
  · obtain ⟨limit', passed⟩ := passesOn limit
    refine .inr ⟨limit', after, ?_⟩
    rw [ended]
    simp only [passed]
    rfl

/-- A run from the start that does not end at a limit is the run under wider limits. -/
theorem run_eq (relaxes : Relaxes loose tight) {stem : String} {interner : Interner}
    (unlimited : ∀ failure, (tight.run stem interner).1 = .error failure → ¬ failure.IsLimit) :
    loose.run stem interner = tight.run stem interner := by
  rcases relaxes { interner, fresh := { stem } } with same | ⟨limit, after, ended⟩
  · simp only [Search.run, same]
  · exact absurd ⟨limit, rfl⟩ (unlimited (.limitReached limit) (by simp only [Search.run, ended]))

end Search.Relaxes

section Wider

variable {tight loose : Limits} (wider : tight.AtMost loose)
include wider

private theorem HomogeneousSystem.Ends.relaxes_complete {system : HomogeneousSystem} {arithmetic : Arithmetic}
    {state : Completion}
    {outcome : Except Failure (List (List Nat))} (ends : system.Ends arithmetic tight.acMaxFrontier state outcome) :
    Failure.Relaxes (system.complete arithmetic loose.acMaxFrontier state) outcome := by
  induction ends with
  | done none =>
    rw [complete, if_pos (List.isEmpty_iff.mpr none)]
    exact .refl _
  | limit => exact .reached _ _
  | round some few _ ih =>
    rw [complete, if_neg (mt List.isEmpty_iff.mp some), if_neg (Nat.not_lt.mpr (few.trans wider.frontier))]
    exact ih

private theorem HomogeneousSystem.relaxes_minimalSolutions (system : HomogeneousSystem) :
    Failure.Relaxes (system.minimalSolutions .unbounded loose.acMaxFrontier)
      (system.minimalSolutions .unbounded tight.acMaxFrontier) := by
  obtain ⟨outcome, ends⟩ := exists_ends system tight.acMaxFrontier
  rw [minimalSolutions, minimalSolutions, ends.complete_eq]
  exact ends.relaxes_complete wider

private theorem AC.relaxes_solutionVectors (f : FunctionSymbol) (equations : List Equation) (atoms : List Term) :
    Failure.Relaxes (solutionVectors loose f equations atoms) (solutionVectors tight f equations atoms) := by
  refine (Failure.Relaxes.refl _).bind fun system => ?_
  refine (system.relaxes_minimalSolutions wider).bind fun solutions => ?_
  have room : min tight.acMaxBasis maxVectors ≤ min loose.acMaxBasis maxVectors := by
    have := wider.basis
    omega
  exact .within room (.refl _)

private theorem AC.relaxes_combine (f : FunctionSymbol) (base : Substitution) (equations : List Equation) :
    Search.Relaxes (combine loose f base equations) (combine tight f base equations) := by
  refine (Search.Relaxes.refl _).bind fun _ => ?_
  refine (Search.Relaxes.ofExcept (relaxes_solutionVectors wider f equations _)).bind fun vectors => ?_
  exact .refl _

private theorem AC.relaxes_solve (equations : List Equation) :
    Search.Relaxes (solve loose equations) (solve tight equations) := by
  simp only [solve]
  refine (Search.Relaxes.refl _).bind fun combiner => ?_
  cases combiner with
  | none => exact .refl _
  | some f =>
    dsimp only
    split
    · exact .refl _
    · refine (Search.Relaxes.refl _).bind fun base => ?_
      split
      · exact .refl _
      · exact relaxes_combine wider f base _

namespace ExpAC

variable {signature : Signature} {scope : List Variable}

private theorem relaxes_tick : Search.Relaxes (tick ⟨loose, signature, scope⟩) (tick ⟨tight, signature, scope⟩) := by
  intro session
  simp only [tick]
  by_cases beyond : session.steps + 1 > tight.expMaxSteps
  · exact .inr ⟨.steps tight.expMaxSteps, _, if_pos beyond⟩
  · have room := wider.steps
    rw [if_neg beyond, if_neg (by omega)]
    exact .inl rfl

private theorem relaxes_validate (state : State) :
    Search.Relaxes (validate ⟨loose, signature, scope⟩ state) (validate ⟨tight, signature, scope⟩ state) := by
  refine .ofExcept ?_
  exact .within wider.equations (.refl _)

omit wider in
/-- Which rule applies does not depend on the limits. -/
theorem applyFirst_eq (limits limits' : Limits) (state : State) (rules : List Rule) :
    applyFirst ⟨limits, signature, scope⟩ state rules = applyFirst ⟨limits', signature, scope⟩ state rules := by
  induction rules with
  | nil => rfl
  | cons rule rules ih => simp only [applyFirst, ih]

private theorem relaxes_saturate (rules : List Rule) {fuel fuel' : Nat} (more : fuel ≤ fuel') (state : State) :
    Search.Relaxes (saturate ⟨loose, signature, scope⟩ rules fuel' state)
      (saturate ⟨tight, signature, scope⟩ rules fuel state) := by
  induction fuel generalizing fuel' state with
  | zero => exact .reached _ _
  | succ fuel ih =>
    obtain ⟨fuel', rfl⟩ := Nat.exists_eq_add_of_le' (Nat.lt_of_lt_of_le (Nat.succ_pos fuel) more)
    simp only [saturate]
    rw [applyFirst_eq loose tight]
    refine (Search.Relaxes.refl _).bind fun found => ?_
    cases found with
    | none => exact .refl _
    | some next =>
      refine (relaxes_tick wider).bind fun _ => ?_
      refine (relaxes_validate wider next).bind fun _ => ?_
      exact ih (by omega) next

private theorem rounds_le : rounds ⟨tight, signature, scope⟩ ≤ rounds ⟨loose, signature, scope⟩ :=
  Nat.succ_le_succ wider.steps

private theorem relaxes_exhaust (rules : List Rule) (state : State) :
    Search.Relaxes (exhaust ⟨loose, signature, scope⟩ rules state) (exhaust ⟨tight, signature, scope⟩ rules state) :=
  (relaxes_validate wider state).bind fun _ =>
    relaxes_saturate wider rules (rounds_le wider) state

private theorem relaxes_settle {fuel fuel' : Nat} (more : fuel ≤ fuel') (before : State) :
    Search.Relaxes (settle ⟨loose, signature, scope⟩ fuel' before)
      (settle ⟨tight, signature, scope⟩ fuel before) := by
  have exhaust := @relaxes_exhaust tight loose wider signature scope
  induction fuel generalizing fuel' before with
  | zero => exact .reached _ _
  | succ fuel ih =>
    obtain ⟨fuel', rfl⟩ := Nat.exists_eq_add_of_le' (Nat.lt_of_lt_of_le (Nat.succ_pos fuel) more)
    simp only [settle]
    refine (exhaust _ _).bind fun composed => (exhaust _ composed).bind fun merged =>
      (exhaust _ merged).bind fun state => ?_
    split
    · exact .refl _
    · exact ih (by omega) state

private theorem relaxes_prepare (state : State) :
    Search.Relaxes (prepare ⟨loose, signature, scope⟩ state) (prepare ⟨tight, signature, scope⟩ state) := by
  have exhaust := @relaxes_exhaust tight loose wider signature scope
  simp only [prepare]
  repeat refine (exhaust _ _).bind fun _ => ?_
  exact exhaust _ _

private theorem relaxes_close (state : State) :
    Search.Relaxes (close ⟨loose, signature, scope⟩ state) (close ⟨tight, signature, scope⟩ state) := by
  simp only [close]
  split
  · exact .refl _
  · exact (AC.relaxes_solve wider _).bind fun _ => .refl _

private theorem relaxes_branch {fuel fuel' : Nat} (more : fuel ≤ fuel') (state : State) :
    Search.Relaxes (branch ⟨loose, signature, scope⟩ fuel' state) (branch ⟨tight, signature, scope⟩ fuel state) := by
  induction fuel generalizing fuel' state with
  | zero => exact .reached _ _
  | succ fuel ih =>
    obtain ⟨fuel', rfl⟩ := Nat.exists_eq_add_of_le' (Nat.lt_of_lt_of_le (Nat.succ_pos fuel) more)
    simp only [branch]
    refine (relaxes_settle wider (rounds_le wider) state).bind fun settled => ?_
    refine (Search.Relaxes.refl _).bind fun found => ?_
    cases found with
    | none => exact (relaxes_exhaust wider _ settled).bind (relaxes_close wider)
    | some alternatives =>
      refine (Search.Relaxes.foldlM (fun harvest alternative => ?_) _).bind fun _ => .refl _
      refine (relaxes_tick wider).bind fun _ => ?_
      refine .attempt ?_ fun limit => ⟨limit, rfl⟩
      exact (Search.Relaxes.refl _).bind (ih (by omega))

private theorem relaxes_solve (problem : Problem) :
    Search.Relaxes (solve ⟨loose, signature, scope⟩ problem) (solve ⟨tight, signature, scope⟩ problem) := by
  refine (Search.Relaxes.refl _).bind fun purified => ?_
  refine (relaxes_prepare wider purified).bind fun state => ?_
  exact relaxes_branch wider (rounds_le wider) state

end ExpAC

end Wider

/-- An answer that no limit stopped is the answer under all wider limits: the same unifiers in the
same order or the same failure, and the same names. -/
theorem Problem.unifyModulo_wider (tight loose : Limits) (wider : tight.AtMost loose)
    (stem : tight.freshStem = loose.freshStem) (theory : Theory) (problem : Problem) (interner : Interner)
    (unlimited : ∀ failure, (problem.unifyModulo tight theory interner).1 = .error failure → ¬ failure.IsLimit) :
    problem.unifyModulo loose theory interner = problem.unifyModulo tight theory interner := by
  cases theory with
  | syntactic => rfl
  | constrained constraints => rfl
  | associativeCommutative =>
    simp only [unifyModulo, unifyAC, ← stem] at unlimited ⊢
    exact (AC.relaxes_solve wider problem.equations).run_eq unlimited
  | expAC signature =>
    simp only [unifyModulo, unifyExpAC, ← stem] at unlimited ⊢
    exact (ExpAC.relaxes_solve wider problem).run_eq unlimited

/-- Two searches that need all that they are allowed: with more room they end the same. -/
theorem Problem.unifyModulo_wider_sharp :
    let tight : Limits := { acMaxBasis := 3, acMaxFrontier := 4, expMaxSteps := 2, expMaxEquations := 2 }
    let interner : Interner := { Interner.empty with variableTable := ⟨["x", "y", "z", "w"]⟩ }
    let f := ExpAC.Signature.binary.f
    let exchange : Problem :=
      ⟨[⟨.node f [.var ⟨⟨0⟩, .default⟩, .const ⟨⟨0⟩, .default⟩],
        .node f [.var ⟨⟨1⟩, .default⟩, .const ⟨⟨1⟩, .default⟩]⟩]⟩
    (exchange.unifyModulo tight .associativeCommutative interner).1.isOk = true ∧
      exchange.unifyModulo {} .associativeCommutative interner =
        exchange.unifyModulo tight .associativeCommutative interner ∧
      (equalPowers.unifyModulo tight (.expAC .binary) interner).1.isOk = true ∧
      equalPowers.unifyModulo {} (.expAC .binary) interner = equalPowers.unifyModulo tight
        (.expAC .binary) interner := by
  intro tight interner f exchange
  have wider : tight.AtMost {} := ⟨by decide, by decide, by decide, by decide⟩
  have unlimited {outcome : Except Failure (List Substitution)} (succeeds : outcome.isOk = true) :
      ∀ failure, outcome = .error failure → ¬ failure.IsLimit := by
    rintro failure rfl
    cases succeeds
  have exchanged : (exchange.unifyModulo tight .associativeCommutative interner).1.isOk = true := by cbv
  have powers : (equalPowers.unifyModulo tight (.expAC .binary) interner).1.isOk = true := by cbv
  exact ⟨exchanged, unifyModulo_wider tight {} wider rfl _ exchange interner (unlimited exchanged), powers,
    unifyModulo_wider tight {} wider rfl _ equalPowers interner (unlimited powers)⟩

end Equational
