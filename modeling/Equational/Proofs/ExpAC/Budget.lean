import Equational.Proofs.ExpAC.Steps

/-! Every run ends within its budget of steps. The loops that apply rules, settle and branch are
bounded by rounds in the program; here they stand without any bound, as partial functions that have
no outcome when they go on for ever. Each further pass of a loop uses up a step, and a search that
oversteps the budget ends at a limit, which nothing takes for the absence of a solution. So the
unbounded loops have an outcome, and it is that of the bounded ones. -/

namespace Equational

/-- A search whose loops have no bound. One that goes on for ever has no outcome. -/
abbrev Unbounded := ExceptT Failure (StateT Session Option)

namespace Unbounded

def lift (search : Search α) : Unbounded α :=
  ExceptT.mk fun session =>
    match search session with
    | .ok value after => some (.ok value, after)
    | .error failure after => some (.error failure, after)

/-- Goes on from the outcome of a search, a failure included. -/
abbrev attempt (search : Unbounded α) (use : Except Failure α → Unbounded β) : Unbounded β :=
  bind (m := StateT Session Option) search.run fun outcome => (use outcome).run

/-- The outcome and the session after it, of a search that ends. -/
def outcome (search : Unbounded α) (session : Session) : Option (Except Failure α × Session) :=
  search.run.run session

end Unbounded

namespace ExpAC

open Search

variable (setting : Setting)

/-- One pass of saturation: the state after the first rule that applies. -/
def pass (rules : List Rule) (state : State) : Search (Option State) := do
  match ← applyFirst setting state rules with
  | none => return none
  | some next =>
    tick setting
    validate setting next
    return some next

def round (before : State) : Search State := do
  let state ← exhaust setting [.compose] before
  let state ← exhaust setting Rule.mergingAndDistributing state
  exhaust setting [.eliminate] state

def explore (search : State → Search (List Substitution)) (harvest : Harvest) (alternative : Except Failure State) :
    Search Harvest := do
  tick setting
  let outcome ← Search.attempt (do search (← Search.ofExcept alternative))
  Search.ofExcept (harvest.add outcome)

namespace Setting

open Equational.Unbounded

def saturateUnbounded (setting : Setting) (rules : List Rule) (state : State) : Unbounded State := do
  match ← lift (pass setting rules state) with
  | none => return state
  | some next => setting |>.saturateUnbounded rules next
partial_fixpoint

def exhaustUnbounded (setting : Setting) (rules : List Rule) (state : State) : Unbounded State := do
  lift (validate setting state)
  setting.saturateUnbounded rules state

def roundUnbounded (setting : Setting) (before : State) : Unbounded State := do
  let state ← setting.exhaustUnbounded [.compose] before
  let state ← setting.exhaustUnbounded Rule.mergingAndDistributing state
  setting.exhaustUnbounded [.eliminate] state

def settleUnbounded (setting : Setting) (before : State) : Unbounded State := do
  let state ← setting.roundUnbounded before
  if state.same before then return state else setting |>.settleUnbounded state
partial_fixpoint

def prepareUnbounded (setting : Setting) (state : State) : Unbounded State := do
  let state ← setting.exhaustUnbounded [.compose] state
  let state ← setting.exhaustUnbounded [.eliminate] state
  let state ← setting.exhaustUnbounded Rule.merging state
  let state ← setting.exhaustUnbounded [.eliminate] state
  let state ← setting.exhaustUnbounded Rule.merging state
  let state ← setting.exhaustUnbounded [.eliminate] state
  let state ← setting.exhaustUnbounded [.compose] state
  let state ← setting.exhaustUnbounded [.distribute] state
  let state ← setting.exhaustUnbounded Rule.merging state
  setting.exhaustUnbounded [.eliminate] state

def branchUnbounded (setting : Setting) (state : State) : Unbounded (List Substitution) := do
  let state ← setting.settleUnbounded state
  match ← lift (state.alternatives setting.signature) with
  | none => do
    let state ← setting.exhaustUnbounded [.eliminate] state
    lift (close setting state)
  | some alternatives =>
    let harvest ← alternatives.foldlM
      (fun (harvest : Harvest) alternative => do
        lift (tick setting)
        attempt (lift (Search.ofExcept alternative) >>= fun next => setting |>.branchUnbounded next)
          fun outcome => lift (Search.ofExcept (harvest.add outcome)))
      {}
    lift (Search.ofExcept harvest.result)
partial_fixpoint

def solveUnbounded (setting : Setting) (problem : Problem) : Unbounded (List Substitution) := do
  let state ← lift (purify problem)
  let state ← setting.prepareUnbounded state
  setting.branchUnbounded state

end Setting

end ExpAC

namespace Unbounded

open Search

variable {α β : Type} {budget : Nat} {free : Unbounded α} {search : Search α} {session : Session}

private theorem outcome_bind (free : Unbounded α) (next : α → Unbounded β) (session : Session) :
    (free >>= next).outcome session = (free.outcome session).bind fun
      | (.ok value, after) => (next value).outcome after
      | (.error failure, after) => some (.error failure, after) := by
  refine congrArg (free.outcome session).bind ?_
  funext ⟨result, after⟩
  cases result <;> rfl

private theorem outcome_attempt (free : Unbounded α) (use : Except Failure α → Unbounded β) (session : Session) :
    (free.attempt use).outcome session = (free.outcome session).bind fun (result, after) =>
      (use result).outcome after :=
  rfl

private theorem outcome_lift_ok {value : α} {after : Session} (ran : search session = .ok value after) :
    (lift search).outcome session = some (.ok value, after) := by
  simp only [outcome, lift, ExceptT.run_mk, StateT.run, ran]

private theorem outcome_lift_error {failure : Failure} {after : Session}
    (ran : search session = .error failure after) :
    (lift search).outcome session = some (.error failure, after) := by
  simp only [outcome, lift, ExceptT.run_mk, StateT.run, ran]

/-- From a session within the budget the unbounded search ends as the bounded one does. No step is
given back, and a search that oversteps the budget does so by one step and ends at a limit. -/
structure Meets (budget : Nat) (free : Unbounded α) (search : Search α) (session : Session) : Prop where
  agrees : free.outcome session = (lift search).outcome session
  within : match search session with
    | .ok _ after => session.steps ≤ after.steps ∧ after.steps ≤ budget
    | .error failure after =>
      session.steps ≤ after.steps ∧ (after.steps ≤ budget ∨ after.steps = budget + 1 ∧ failure.IsLimit)

private theorem Meets.of_ok {value : α} {after : Session} (meets : Meets budget free search session)
    (ran : search session = .ok value after) :
    free.outcome session = some (.ok value, after) ∧ session.steps ≤ after.steps ∧ after.steps ≤ budget := by
  have within := meets.within
  rw [ran] at within
  exact ⟨meets.agrees.trans (outcome_lift_ok ran), within⟩

private theorem Meets.of_error {failure : Failure} {after : Session} (meets : Meets budget free search session)
    (ran : search session = .error failure after) :
    free.outcome session = some (.error failure, after) ∧ session.steps ≤ after.steps ∧
      (after.steps ≤ budget ∨ after.steps = budget + 1 ∧ failure.IsLimit) := by
  have within := meets.within
  rw [ran] at within
  exact ⟨meets.agrees.trans (outcome_lift_error ran), within⟩

private theorem meets_of_ok {value : α} {after : Session} (ran : search session = .ok value after)
    (ends : free.outcome session = some (.ok value, after))
    (within : session.steps ≤ after.steps ∧ after.steps ≤ budget) :
    Meets budget free search session where
  agrees := ends.trans (outcome_lift_ok ran).symm
  within := by rwa [ran]

private theorem meets_of_error {failure : Failure} {after : Session} (ran : search session = .error failure after)
    (ends : free.outcome session = some (.error failure, after))
    (within : session.steps ≤ after.steps ∧ (after.steps ≤ budget ∨ after.steps = budget + 1 ∧ failure.IsLimit)) :
    Meets budget free search session where
  agrees := ends.trans (outcome_lift_error ran).symm
  within := by rwa [ran]

private theorem meets_lift (steady : search.Steady) (room : session.steps ≤ budget) :
    Meets budget (lift search) search session := by
  have steps := steady session
  cases ran : search session with
  | ok value after =>
    rw [ran] at steps
    exact meets_of_ok ran (outcome_lift_ok ran) (by omega)
  | error failure after =>
    rw [ran] at steps
    exact meets_of_error ran (outcome_lift_error ran) (by omega)

private theorem Meets.bind {next : α → Unbounded β} {next' : α → Search β} (first : Meets budget free search session)
    (then' : ∀ value after, search session = .ok value after → session.steps ≤ after.steps → after.steps ≤ budget →
      Meets budget (next value) (next' value) after) :
    Meets budget (free >>= next) (search >>= next') session := by
  have apart := outcome_bind free next session
  cases ran : search session with
  | error failure after =>
    obtain ⟨ends, within⟩ := first.of_error ran
    rw [ends] at apart
    exact meets_of_error (bind_of_error ran) apart within
  | ok value after =>
    obtain ⟨ends, grown, within⟩ := first.of_ok ran
    have later := then' value after ran grown within
    rw [ends] at apart
    cases ran' : next' value after with
    | ok result last =>
      obtain ⟨ends', grown', within'⟩ := later.of_ok ran'
      exact meets_of_ok ((bind_of_ok ran).trans ran') (apart.trans ends') ⟨by omega, within'⟩
    | error failure last =>
      obtain ⟨ends', grown', within'⟩ := later.of_error ran'
      exact meets_of_error ((bind_of_ok ran).trans ran') (apart.trans ends') ⟨by omega, within'⟩

private theorem Meets.foldlM {items : List β} {step : α → β → Unbounded α} {step' : α → β → Search α} {start : α}
    (room : session.steps ≤ budget)
    (each : ∀ value item during, session.steps ≤ during.steps → during.steps ≤ budget →
      Meets budget (step value item) (step' value item) during) :
    Meets budget (items.foldlM step start) (items.foldlM step' start) session := by
  induction items generalizing start session with
  | nil => exact meets_lift (Composed.pure start).steady room
  | cons item items ih =>
    rw [List.foldlM_cons, List.foldlM_cons]
    refine (each start item session (Nat.le_refl _) room).bind fun value after _ grown within => ih within ?_
    intro value item during later
    exact each value item during (by omega)

section Attempt

variable {use : Except Failure α → Except Failure β}
  (passesOn : ∀ limit, use (.error (.limitReached limit)) = .error (.limitReached limit))
include passesOn

private theorem meets_used {result : Except Failure α} {after : Session}
    (ended : search.attempt session = .ok result after)
    (ends : free.outcome session = some (result, after)) (grown : session.steps ≤ after.steps)
    (within : after.steps ≤ budget ∨ after.steps = budget + 1 ∧ ∃ limit, result = .error (.limitReached limit)) :
    Meets budget (free.attempt fun result => lift (Search.ofExcept (use result)))
      (search.attempt >>= fun result => Search.ofExcept (use result)) session := by
  have apart := outcome_attempt free (fun result => lift (Search.ofExcept (use result))) session
  rw [ends] at apart
  have together : (search.attempt >>= fun result => Search.ofExcept (use result)) session =
      Search.ofExcept (use result) after := bind_of_ok ended
  cases used : use result with
  | ok value =>
    have room : after.steps ≤ budget := by
      refine within.resolve_right ?_
      rintro ⟨_, limit, rfl⟩
      rw [passesOn] at used
      cases used
    simp only [Option.bind_some, used] at apart together
    exact meets_of_ok together apart ⟨grown, room⟩
  | error failure =>
    simp only [Option.bind_some, used] at apart together
    refine meets_of_error together apart ⟨grown, within.imp_right ?_⟩
    rintro ⟨beyond, limit, rfl⟩
    rw [passesOn] at used
    cases used
    exact ⟨beyond, limit, rfl⟩

/-- An attempt whose outcome is used so that a reached limit is passed on. After such a limit no
further step is taken. -/
theorem Meets.attempt (meets : Meets budget free search session) :
    Meets budget (free.attempt fun result => lift (Search.ofExcept (use result)))
      (search.attempt >>= fun result => Search.ofExcept (use result)) session := by
  cases ran : search session with
  | ok value after =>
    obtain ⟨ends, grown, within⟩ := meets.of_ok ran
    have ended : search.attempt session = .ok (.ok value) after := by simp only [Search.attempt, ran]
    exact meets_used passesOn ended ends grown (.inl within)
  | error failure after =>
    obtain ⟨ends, grown, within⟩ := meets.of_error ran
    have ended : search.attempt session = .ok (.error failure) after := by simp only [Search.attempt, ran]
    refine meets_used passesOn ended ends grown (within.imp_right ?_)
    rintro ⟨beyond, limit, rfl⟩
    exact ⟨beyond, limit, rfl⟩

end Attempt

end Unbounded

namespace ExpAC

open Search Equational.Unbounded

variable {setting : Setting} {rules : List Rule} {state state' before : State} {session after : Session}

private theorem steps_of_tick (ticked : tick setting session = .ok () after) :
    after.steps = session.steps + 1 ∧ after.steps ≤ setting.limits.expMaxSteps := by
  simp only [tick] at ticked
  split at ticked
  next => cases ticked
  next within =>
    cases ticked
    exact ⟨rfl, Nat.le_of_not_lt within⟩

private theorem steps_of_pass {found : Option State} (ran : pass setting rules state session = .ok found after) :
    after.steps = session.steps + if found.isSome then 1 else 0 := by
  obtain ⟨applied, during, ran₁, ran₂⟩ := exists_of_bind_ok ran
  have steps := (composed_applyFirst setting state rules).steady.of_ok ran₁
  cases applied with
  | none =>
    cases ran₂
    exact steps
  | some next =>
    obtain ⟨_, ticked, ran₃, ran₄⟩ := exists_of_bind_ok ran₂
    obtain ⟨_, validated, ran₅, ran₆⟩ := exists_of_bind_ok ran₄
    cases ran₆
    rw [(Composed.ofExcept _).steady.of_ok ran₅, (steps_of_tick ran₃).1, steps]
    rfl

private theorem saturate_succ (rules : List Rule) (fuel : Nat) (state : State) :
    saturate setting rules (fuel + 1) state = (do
      match ← pass setting rules state with
      | none => return state
      | some next => saturate setting rules fuel next) := by
  rw [saturate, pass, bind_assoc]
  congr 1
  funext found
  cases found with
  | none => rfl
  | some next => simp only [bind_assoc, pure_bind]

private theorem settle_succ (fuel : Nat) (before : State) :
    settle setting (fuel + 1) before = (do
      let state ← round setting before
      if state.same before then return state else settle setting fuel state) := by
  simp only [settle, round, bind_assoc]

private theorem branch_succ (fuel : Nat) (state : State) :
    branch setting (fuel + 1) state = (do
      let state ← settle setting (rounds setting) state
      match ← state.alternatives setting.signature with
      | none => close setting (← exhaust setting [.eliminate] state)
      | some alternatives =>
        let harvest ← alternatives.foldlM (explore setting (branch setting fuel)) {}
        Search.ofExcept harvest.result) :=
  rfl

private theorem same_refl (state : State) : state.same state = true := by
  have stated : ∀ e ∈ state.definitions.equations, state.definitions.contains e = true := fun e member =>
    List.contains_iff_exists_mem_beq.mpr ⟨e, member, Equation.beq_iff.mpr ⟨BEq.rfl, BEq.rfl⟩⟩
  have bound : ∀ p ∈ state.solved.bindings, (state.solved.find? p.1).any (p.2 == ·) = true := by
    intro p member
    rw [Substitution.find?_eq_some_iff.mpr member]
    exact BEq.rfl
  refine Bool.and_eq_true_iff.mpr ⟨Bool.and_eq_true_iff.mpr ⟨BEq.rfl, ?_⟩, Bool.and_eq_true_iff.mpr ⟨BEq.rfl, ?_⟩⟩
  · exact List.all_eq_true.mpr stated
  · exact List.all_eq_true.mpr bound

private theorem eq_or_lt_of_saturate {fuel : Nat}
    (ran : saturate setting rules fuel state session = .ok state' after) :
    state' = state ∧ after.steps = session.steps ∨ session.steps < after.steps := by
  induction fuel generalizing state session with
  | zero => cases ran
  | succ fuel ih =>
    rw [saturate_succ] at ran
    obtain ⟨found, during, passed, rest⟩ := exists_of_bind_ok ran
    have steps := steps_of_pass passed
    cases found with
    | none =>
      cases rest
      exact .inl ⟨rfl, steps⟩
    | some next =>
      simp only [Option.isSome_some, ↓reduceIte] at steps
      have later := ih rest
      right
      omega

private theorem eq_or_lt_of_exhaust (ran : exhaust setting rules state session = .ok state' after) :
    state' = state ∧ after.steps = session.steps ∨ session.steps < after.steps := by
  obtain ⟨_, during, validated, saturated⟩ := exists_of_bind_ok ran
  rw [← (Composed.ofExcept _).steady.of_ok validated]
  exact eq_or_lt_of_saturate saturated

private theorem lt_of_round (ran : round setting before session = .ok state after)
    (changed : state.same before = false) :
    session.steps < after.steps := by
  obtain ⟨composed, during₁, ran₁, rest⟩ := exists_of_bind_ok ran
  obtain ⟨merged, during₂, ran₂, ran₃⟩ := exists_of_bind_ok rest
  have first := eq_or_lt_of_exhaust ran₁
  have second := eq_or_lt_of_exhaust ran₂
  have third := eq_or_lt_of_exhaust ran₃
  by_contra none
  have unchanged : state = before := by
    have same₁ := first.resolve_right (by omega)
    have same₂ := second.resolve_right (by omega)
    have same₃ := third.resolve_right (by omega)
    rw [same₃.1, same₂.1, same₁.1]
  rw [unchanged, same_refl] at changed
  cases changed

private theorem explore_congr {search search' : State → Search (List Substitution)} {harvest : Harvest}
    {alternative : Except Failure State}
    (same : ∀ next during, during.steps = session.steps + 1 → search next during = search' next during) :
    explore setting search harvest alternative session = explore setting search' harvest alternative session := by
  cases ticked : tick setting session with
  | error failure during => rw [explore, explore, bind_of_error ticked, bind_of_error ticked]
  | ok _ during =>
    have step := (steps_of_tick ticked).1
    rw [explore, explore, bind_of_ok ticked, bind_of_ok ticked]
    cases alternative with
    | error failure => rfl
    | ok next =>
      have attempts : (search next).attempt during = (search' next).attempt during := by
        simp only [Search.attempt, same next during step]
      change ((search next).attempt >>= fun outcome => Search.ofExcept (harvest.add outcome)) during =
        ((search' next).attempt >>= fun outcome => Search.ofExcept (harvest.add outcome)) during
      cases ended : (search' next).attempt during with
      | ok outcome after => rw [bind_of_ok ended, bind_of_ok (attempts.trans ended)]
      | error failure after => rw [bind_of_error ended, bind_of_error (attempts.trans ended)]

section Room

variable (room : session.steps ≤ setting.limits.expMaxSteps)
include room

private theorem meets_tick : Meets setting.limits.expMaxSteps (lift (tick setting)) (tick setting) session where
  agrees := rfl
  within := by
    simp only [tick]
    by_cases beyond : session.steps + 1 > setting.limits.expMaxSteps
    · rw [if_pos beyond]
      have last : session.steps = setting.limits.expMaxSteps := Nat.le_antisymm room (Nat.le_of_lt_succ beyond)
      exact ⟨Nat.le_succ _, .inr ⟨congrArg (· + 1) last, _, rfl⟩⟩
    · rw [if_neg beyond]
      exact ⟨Nat.le_succ _, Nat.le_of_not_lt beyond⟩

private theorem meets_pass (rules : List Rule) (state : State) :
    Meets setting.limits.expMaxSteps (lift (pass setting rules state)) (pass setting rules state) session where
  agrees := rfl
  within := by
    have meets : Meets setting.limits.expMaxSteps (lift (applyFirst setting state rules) >>= fun
          | none => lift (pure none)
          | some next =>
            lift (tick setting) >>= fun _ => lift (validate setting next) >>= fun _ => lift (pure (some next)))
        (pass setting rules state) session := by
      refine (meets_lift (composed_applyFirst setting state rules).steady room).bind fun found during _ _ within => ?_
      cases found with
      | none => exact meets_lift (Composed.pure _).steady within
      | some next =>
        refine (meets_tick within).bind fun _ ticked _ _ within' => ?_
        exact (meets_lift (Composed.ofExcept _).steady within').bind fun _ validated _ _ within'' =>
          meets_lift (Composed.pure _).steady within''
    exact meets.within

/-- As many passes as there are steps left are enough. -/
theorem meets_saturate {fuel : Nat} (enough : setting.limits.expMaxSteps < fuel + session.steps) (rules : List Rule)
    (state : State) :
    Meets setting.limits.expMaxSteps (setting.saturateUnbounded rules state)
      (saturate setting rules fuel state) session := by
  induction fuel generalizing session state with
  | zero => omega
  | succ fuel ih =>
    rw [Setting.saturateUnbounded, saturate_succ]
    refine (meets_pass room rules state).bind fun found during passed _ within => ?_
    have steps := steps_of_pass passed
    cases found with
    | none => exact meets_lift (Composed.pure _).steady within
    | some next =>
      simp only [Option.isSome_some, ↓reduceIte] at steps
      exact ih within (by omega) next

private theorem meets_exhaust (rules : List Rule) (state : State) :
    Meets setting.limits.expMaxSteps (setting.exhaustUnbounded rules state) (exhaust setting rules state) session :=
  (meets_lift (Composed.ofExcept _).steady room).bind fun _ during _ _ within =>
    meets_saturate within (by rw [rounds]; omega) rules state

private theorem meets_round (before : State) :
    Meets setting.limits.expMaxSteps (setting.roundUnbounded before) (round setting before) session :=
  (meets_exhaust room _ before).bind fun composed _ _ _ within =>
    (meets_exhaust within _ composed).bind fun merged _ _ _ within' => meets_exhaust within' _ merged

private theorem meets_settle {fuel : Nat} (enough : setting.limits.expMaxSteps < fuel + session.steps)
    (before : State) :
    Meets setting.limits.expMaxSteps (setting.settleUnbounded before) (settle setting fuel before) session := by
  induction fuel generalizing session before with
  | zero => omega
  | succ fuel ih =>
    rw [Setting.settleUnbounded, settle_succ]
    refine (meets_round room before).bind fun state during ran _ within => ?_
    cases changed : state.same before with
    | true => exact meets_lift (Composed.pure _).steady within
    | false =>
      have grown := lt_of_round ran changed
      exact ih within (by omega) state

private theorem meets_prepare (state : State) :
    Meets setting.limits.expMaxSteps (setting.prepareUnbounded state) (prepare setting state) session := by
  simp only [Setting.prepareUnbounded, prepare]
  iterate 9 refine (meets_exhaust ‹_› _ _).bind fun _ _ _ _ _ => ?_
  exact meets_exhaust ‹_› _ _

/-- Each call is made after a step, so as many levels as there are steps left are enough. -/
theorem meets_branch {fuel : Nat} (enough : setting.limits.expMaxSteps < fuel + session.steps) (state : State) :
    Meets setting.limits.expMaxSteps (setting.branchUnbounded state) (branch setting fuel state) session := by
  induction fuel generalizing session state with
  | zero => omega
  | succ fuel ih =>
    rw [Setting.branchUnbounded, branch_succ]
    refine (meets_settle room (by rw [rounds]; omega) state).bind fun settled during _ grown within => ?_
    refine (meets_lift (composed_alternatives _ settled).steady within).bind fun found during' _ grown' within' => ?_
    cases found with
    | none =>
      exact (meets_exhaust within' _ settled).bind fun final _ _ _ within'' =>
        meets_lift (composed_close setting final).steady within''
    | some alternatives =>
      refine (Meets.foldlM within' fun harvest alternative tried later room' => ?_).bind fun harvest _ _ _ within'' =>
        meets_lift (Composed.ofExcept _).steady within''
      refine (meets_tick room').bind fun _ ticked counted _ room'' => ?_
      have step := (steps_of_tick counted).1
      refine Meets.attempt (fun limit => rfl) ?_
      exact (meets_lift (Composed.ofExcept _).steady room'').bind fun next _ _ more within'' =>
        ih within'' (by omega) next

private theorem meets_solve (problem : Problem) :
    Meets setting.limits.expMaxSteps (setting.solveUnbounded problem) (solve setting problem) session := by
  refine (meets_lift (composed_purify problem).steady room).bind fun purified _ _ _ within => ?_
  refine (meets_prepare within purified).bind fun state _ _ _ within' => ?_
  exact meets_branch within' (by rw [rounds]; omega) state

end Room

end ExpAC

/-- The unbounded loops end, with the outcome and the names of the bounded ones, and the steps taken on all
branches together exceed the budget by one at most. A pass of saturation that goes on takes a step,
so does a round of settling that changes the state, and each alternative is searched from one step
more. -/
theorem Problem.unifyExpAC_within_budget (limits : Limits) (signature : ExpAC.Signature) (problem : Problem)
    (interner : Interner) :
    let setting : ExpAC.Setting := { limits, signature, scope := problem.vars }
    let start : Session := { interner, fresh := { stem := limits.freshStem } }
    (∃ after, (setting.solveUnbounded problem).outcome start =
      some ((problem.unifyExpAC limits signature interner).1, after) ∧
      (problem.unifyExpAC limits signature interner).2 = after.interner ∧ after.steps ≤ limits.expMaxSteps + 1) ∧
    (∀ rules state next session after, ExpAC.pass setting rules state session = .ok (some next) after →
      after.steps = session.steps + 1) ∧
    (∀ before state session after, ExpAC.round setting before session = .ok state after → state.same before = false →
      session.steps < after.steps) ∧
    ∀ search search' harvest alternative session,
      (∀ next during, during.steps = session.steps + 1 → search next during = search' next during) →
      ExpAC.explore setting search harvest alternative session =
        ExpAC.explore setting search' harvest alternative session := by
  intro setting start
  refine ⟨?_, ?_, ?_, ?_⟩
  · have meets : Unbounded.Meets setting.limits.expMaxSteps (setting.solveUnbounded problem)
        (ExpAC.solve setting problem)
        start := ExpAC.meets_solve (Nat.zero_le _) problem
    cases ran : ExpAC.solve setting problem start with
    | ok unifiers after =>
      obtain ⟨ends, _, within⟩ := meets.of_ok ran
      have within' : after.steps ≤ limits.expMaxSteps := within
      have answer : problem.unifyExpAC limits signature interner = (.ok unifiers, after.interner) := by
        simp only [unifyExpAC, Search.run]
        rw [ran]
      rw [answer]
      exact ⟨after, ends, rfl, by omega⟩
    | error failure after =>
      obtain ⟨ends, _, within⟩ := meets.of_error ran
      have within' : after.steps ≤ limits.expMaxSteps + 1 := within.elim Nat.le_succ_of_le fun beyond =>
        Nat.le_of_eq beyond.1
      have answer : problem.unifyExpAC limits signature interner = (.error failure, after.interner) := by
        simp only [unifyExpAC, Search.run]
        rw [ran]
      rw [answer]
      exact ⟨after, ends, rfl, by omega⟩
  · intro rules state next session after passed
    exact ExpAC.steps_of_pass passed
  · intro before state session after ran changed
    exact ExpAC.lt_of_round ran changed
  · intro search search' harvest alternative session same
    exact ExpAC.explore_congr same

end Equational
