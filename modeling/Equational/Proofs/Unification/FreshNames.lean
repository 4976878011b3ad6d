import Equational.Proofs.ExpAC.Steps
import Equational.Proofs.Interner
import Equational.Proofs.Unification.Limits

/-! The stem of the fresh names. A fresh variable gets the first number that is not in use, whatever
it is called and however many names had to be passed over, and no search looks at a name. So two
searches that draw on different stems run alike, and differ in what the new variables are called. -/

namespace Equational

structure Session.Alike (session session' : Session) : Prop where
  names : session.names = session'.names
  steps : session.steps = session'.steps

namespace Search

variable {α β : Type} {search : Search α}

/-- The search looks at nothing but how many names are in use and how many steps are taken. -/
def Uniform (search : Search α) : Prop :=
  ∀ ⦃session session' : Session⦄, session.Alike session' →
    match search session, search session' with
    | .ok value after, .ok value' after' => value = value' ∧ after.Alike after'
    | .error failure after, .error failure' after' => failure = failure' ∧ after.Alike after'
    | _, _ => False

private theorem uniform_freshVariable (sort : SortId) : (freshVariable sort).Uniform := by
  intro session session' alike
  obtain ⟨after, ran, names⟩ := freshVariable_eq sort session
  obtain ⟨after', ran', names'⟩ := freshVariable_eq sort session'
  have steady : (freshVariable sort).Steady := (Composed.freshVariable sort).steady
  have steps := steady.of_ok ran
  have steps' := steady.of_ok ran'
  rw [ran, ran', alike.names]
  exact ⟨rfl, by rw [names, names', alike.names], by rw [steps, steps', alike.steps]⟩

private theorem Uniform.bind {next : α → Search β} (first : search.Uniform) (then' : ∀ value, (next value).Uniform) :
    (search >>= next).Uniform := by
  intro session session' alike
  have outcomes := first alike
  cases ran : search session with
  | ok value during =>
    cases ran' : search session' with
    | ok value' during' =>
      rw [ran, ran'] at outcomes
      obtain ⟨rfl, alike'⟩ := outcomes
      rw [bind_of_ok ran, bind_of_ok ran']
      exact then' value alike'
    | error failure' during' =>
      rw [ran, ran'] at outcomes
      cases outcomes
  | error failure during =>
    cases ran' : search session' with
    | ok value' during' =>
      rw [ran, ran'] at outcomes
      cases outcomes
    | error failure' during' =>
      rw [ran, ran'] at outcomes
      rw [bind_of_error ran, bind_of_error ran']
      exact outcomes

private theorem Uniform.attempt (uniform : search.Uniform) : search.attempt.Uniform := by
  intro session session' alike
  have outcomes := uniform alike
  simp only [Search.attempt]
  cases ran : search session <;> cases ran' : search session' <;> rw [ran, ran'] at outcomes
  case ok.ok | error.error => exact ⟨congrArg _ outcomes.1, outcomes.2⟩
  case ok.error | error.ok => cases outcomes

private theorem Composed.uniform {kind : Search Unit → Prop} (each : ∀ search, kind search → search.Uniform)
    (composed : Composed kind search) :
    search.Uniform := by
  induction composed with
  | ofKind one => exact each _ one
  | pure value => exact fun _ _ alike => ⟨rfl, alike⟩
  | throw failure => exact fun _ _ alike => ⟨rfl, alike⟩
  | freshVariable sort => exact uniform_freshVariable sort
  | bind _ _ first then' => exact first.bind then'
  | attempt _ tried => exact tried.attempt

/-- All that is known before the search is known after it. -/
abbrev Conservative (search : Search α) : Prop :=
  search.Evolves fun before after => before.interner.Continues after.interner

private theorem Composed.conservative {kind : Search Unit → Prop} (each : ∀ search, kind search → search.Conservative)
    (composed : Composed kind search) : search.Conservative :=
  composed.evolves (fun _ _ _ => .trans) (fun _ => .refl _) (fun sort _ => .addVariable _ _ sort) each

private theorem Uniform.run_eq (uniform : search.Uniform) (stem stem' : String) (interner : Interner) :
    (search.run stem interner).1 = (search.run stem' interner).1 ∧
      (search.run stem interner).2.variableCount = (search.run stem' interner).2.variableCount := by
  have alike : Session.Alike { interner, fresh := { stem } } { interner, fresh := { stem := stem' } } := ⟨rfl, rfl⟩
  have outcomes := uniform alike
  simp only [Search.run]
  cases ran : search { interner, fresh := { stem } } <;> cases ran' :
    search { interner, fresh := { stem := stem' } } <;>
    rw [ran, ran'] at outcomes
  case ok.ok => exact ⟨congrArg Except.ok outcomes.1, outcomes.2.names⟩
  case error.error => exact ⟨congrArg Except.error outcomes.1, outcomes.2.names⟩
  case ok.error | error.ok => cases outcomes

private theorem Conservative.run (conservative : search.Conservative) (stem : String) (interner : Interner) :
    interner.Continues (search.run stem interner).2 := by
  simp only [Search.run]
  cases ran : search { interner, fresh := { stem } } with
  | ok value after => exact conservative.of_ok ran
  | error failure after => exact conservative.of_error ran

end Search

open Search

namespace ExpAC

variable {signature : Signature} {scope : List Variable} (limits : Limits) (stem : String)

private theorem uniform_tick (setting : Setting) : (tick setting).Uniform := by
  intro session session' alike
  have next : session.steps + 1 = session'.steps + 1 := congrArg (· + 1) alike.steps
  simp only [tick, next]
  by_cases spent : session'.steps + 1 > setting.limits.expMaxSteps
  · simp only [if_pos spent]
    exact ⟨trivial, alike.names, rfl⟩
  · simp only [if_neg spent]
    exact ⟨trivial, alike.names, rfl⟩

private theorem conservative_tick (setting : Setting) : (tick setting).Conservative := by
  intro session
  by_cases spent : session.steps + 1 > setting.limits.expMaxSteps
  · simp only [tick, if_pos spent]
    exact .refl _
  · simp only [tick, if_neg spent]
    exact .refl _

private theorem saturate_freshStem (rules : List Rule) (fuel : Nat) (state : State) :
    saturate ⟨{ limits with freshStem := stem }, signature, scope⟩ rules fuel state =
      saturate ⟨limits, signature, scope⟩ rules fuel state := by
  induction fuel generalizing state with
  | zero => rfl
  | succ fuel ih =>
    simp only [saturate, ih, applyFirst_eq { limits with freshStem := stem } limits]
    rfl

private theorem exhaust_freshStem (rules : List Rule) (state : State) :
    exhaust ⟨{ limits with freshStem := stem }, signature, scope⟩ rules state =
      exhaust ⟨limits, signature, scope⟩ rules state := by
  simp only [exhaust, saturate_freshStem]
  rfl

private theorem settle_freshStem (fuel : Nat) (before : State) :
    settle ⟨{ limits with freshStem := stem }, signature, scope⟩ fuel before =
      settle ⟨limits, signature, scope⟩ fuel before := by
  induction fuel generalizing before with
  | zero => rfl
  | succ fuel ih => simp only [settle, ih, exhaust_freshStem]

private theorem branch_freshStem (fuel : Nat) (state : State) :
    branch ⟨{ limits with freshStem := stem }, signature, scope⟩ fuel state =
      branch ⟨limits, signature, scope⟩ fuel state := by
  induction fuel generalizing state with
  | zero => rfl
  | succ fuel ih =>
    simp only [branch, ih, settle_freshStem, exhaust_freshStem]
    rfl

private theorem solve_freshStem (problem : Problem) :
    solve ⟨{ limits with freshStem := stem }, signature, scope⟩ problem =
      solve ⟨limits, signature, scope⟩ problem := by
  simp only [solve, prepare, exhaust_freshStem, branch_freshStem]
  rfl

end ExpAC

/-- The same outcome and as many names of variables, and nothing forgotten that the interner knew before. -/
structure SameButNames {α : Type} (interner : Interner) (run run' : α × Interner) : Prop where
  outcome : run.1 = run'.1
  count : run.2.variableCount = run'.2.variableCount
  first : interner.Continues run.2
  second : interner.Continues run'.2

private theorem Search.Composed.sameButNames {α : Type} {search : Search α} {kind : Search Unit → Prop}
    (composed : Composed kind search)
    (uniform : ∀ search, kind search → search.Uniform) (conservative : ∀ search, kind search → search.Conservative)
    (stem stem' : String) (interner : Interner) :
    SameButNames interner (search.run stem interner) (search.run stem' interner) :=
  have ⟨outcome, count⟩ := (composed.uniform uniform).run_eq stem stem' interner
  ⟨outcome, count, (composed.conservative conservative).run stem interner,
    (composed.conservative conservative).run stem' interner⟩

namespace Problem

variable (limits : Limits) (problem : Problem) (interner : Interner) (stem stem' : String)

private theorem sameButNames_unifyAC : SameButNames interner
    (problem.unifyAC { limits with freshStem := stem } interner)
    (problem.unifyAC { limits with freshStem := stem' } interner) :=
  have composed : Composed (fun _ => False) (AC.solve limits problem.equations) :=
    AC.composed_solve limits problem.equations
  composed.sameButNames nofun (fun _ none => none.elim) stem stem' interner

private theorem sameButNames_unifyExpAC (signature : ExpAC.Signature) :
    SameButNames interner (problem.unifyExpAC { limits with freshStem := stem } signature interner)
      (problem.unifyExpAC { limits with freshStem := stem' } signature interner) := by
  let setting : ExpAC.Setting := { limits, signature, scope := problem.vars }
  have composed : Composed (ExpAC.tick setting = ·) (ExpAC.solve setting problem) := ExpAC.composed_solve rfl problem
  rw [unifyExpAC, unifyExpAC, ExpAC.solve_freshStem limits stem, ExpAC.solve_freshStem limits stem']
  exact composed.sameButNames (fun _ same => same ▸ ExpAC.uniform_tick setting)
    (fun _ same => same ▸ ExpAC.conservative_tick setting)
    stem stem' interner

/-- The stem of the fresh names decides how new variables are called and nothing else. Under two stems, also
where names on them are in use already, every theory gives the same unifiers over the same variables, or the
same failure; as many variables are added, and both interners keep what they knew. -/
theorem unifyModulo_freshStem (theory : Theory) :
    let run := problem.unifyModulo { limits with freshStem := stem } theory interner
    let run' := problem.unifyModulo { limits with freshStem := stem' } theory interner
    run.1 = run'.1 ∧ run.2.variableCount = run'.2.variableCount ∧ interner.Continues run.2 ∧
      interner.Continues run'.2 ∧
      (∀ id : VariableId, id.index < interner.variableCount → run.2.variableName id = run'.2.variableName id) ∧
      ∀ name ∈ interner.variableTable.names, run.2.variableTable.index? name = run'.2.variableTable.index? name := by
  intro run run'
  have same : SameButNames interner run run' := by
    cases theory with
    | syntactic | constrained constraints => exact ⟨rfl, rfl, .refl _, .refl _⟩
    | associativeCommutative => exact problem.sameButNames_unifyAC limits interner stem stem'
    | expAC signature => exact problem.sameButNames_unifyExpAC limits interner stem stem' signature
  refine ⟨same.outcome, same.count, same.first, same.second, fun id old => ?_, fun name old => ?_⟩
  · rw [same.first.variableName_eq old, same.second.variableName_eq old]
  · rw [same.first.index?_eq old, same.second.index?_eq old]

/-- On the stem `v_` the first name is in use and is passed over, on the stem `w` it is not. -/
example :
    let interner : Interner := { Interner.empty with variableTable := ⟨["x", "y", "v_0"]⟩ }
    let f := ExpAC.Signature.binary.f
    let sums : Problem :=
      ⟨[⟨.node f [.var ⟨⟨0⟩, .default⟩, .const ⟨⟨0⟩, .default⟩],
        .node f [.var ⟨⟨1⟩, .default⟩, .const ⟨⟨1⟩, .default⟩]⟩]⟩
    let run (stem : String) := sums.unifyModulo { freshStem := stem } .associativeCommutative interner
    (run "v_").2.variableTable.names = ["x", "y", "v_0", "v_1"] ∧
      (run "w").2.variableTable.names = ["x", "y", "v_0", "w0"] := by
  cbv

end Problem

end Equational
