import Equational.Proofs.ExpAC.Outcome

/-! How searches are put together. A run draws names, counts steps, fails and attempts, and does all
this in sequence, so what these five keep, a run keeps. Drawing names, applying one rule, listing
alternatives and closing count no step; only an application that counts and a branch do. -/

namespace Equational

namespace Search

variable {α β : Type} {search : Search α} {session : Session}

theorem bind_of_error {next : α → Search β} {failure : Failure} {after : Session}
    (ran : search session = .error failure after) :
    (search >>= next) session = .error failure after := by
  change EStateM.bind search next session = _
  simp only [EStateM.bind, ran]

theorem exists_of_bind_ok {next : α → Search β} {result : β} {after : Session}
    (ran : (search >>= next) session = .ok result after) :
    ∃ value during, search session = .ok value during ∧ next value during = .ok result after := by
  change EStateM.bind search next session = _ at ran
  simp only [EStateM.bind] at ran
  cases first : search session with
  | ok value during =>
    rw [first] at ran
    exact ⟨value, during, rfl, ran⟩
  | error failure during =>
    rw [first] at ran
    cases ran

/-- Put together from values, failures, fresh variables and searches of one kind. -/
inductive Composed (kind : Search Unit → Prop) : {α : Type} → Search α → Prop
  | ofKind {search : Search Unit} (one : kind search) : Composed kind search
  | pure {α : Type} (value : α) : Composed kind (pure value)
  | throw {α : Type} (failure : Failure) : Composed kind (throw failure : Search α)
  | freshVariable (sort : SortId) : Composed kind (freshVariable sort)
  | bind {α β : Type} {search : Search α} {next : α → Search β} (first : Composed kind search)
      (then' : ∀ value, Composed kind (next value)) : Composed kind (search >>= next)
  | attempt {α : Type} {search : Search α} (tried : Composed kind search) : Composed kind search.attempt

namespace Composed

variable {kind : Search Unit → Prop}

theorem ofExcept (outcome : Except Failure α) : Composed kind (Search.ofExcept outcome) := by
  cases outcome with
  | ok value => exact .pure value
  | error failure => exact .throw failure

private theorem foldlM {items : List β} {step : α → β → Search α}
    (each : ∀ value item, Composed kind (step value item)) (start : α) :
    Composed kind (items.foldlM step start) := by
  induction items generalizing start with
  | nil => exact .pure start
  | cons item items ih =>
    rw [List.foldlM_cons]
    exact (each start item).bind ih

private theorem mapM {step : α → Search β} (each : ∀ item, Composed kind (step item)) (items : List α) :
    Composed kind (items.mapM step) := by
  induction items with
  | nil => exact .pure []
  | cons item items ih =>
    rw [List.mapM_cons]
    exact (each item).bind fun _ => ih.bind fun _ => .pure _

end Composed

/-- However the search ends, the session after it is related to the session before it. -/
def Evolves (R : Session → Session → Prop) (search : Search α) : Prop :=
  ∀ session, match search session with
    | .ok _ after => R session after
    | .error _ after => R session after

section Evolves

variable {R : Session → Session → Prop}

theorem Evolves.of_ok {value : α} {after : Session} (evolves : search.Evolves R)
    (ran : search session = .ok value after) :
    R session after := by
  have related := evolves session
  rwa [ran] at related

theorem Evolves.of_error {failure : Failure} {after : Session} (evolves : search.Evolves R)
    (ran : search session = .error failure after) : R session after := by
  have related := evolves session
  rwa [ran] at related

private theorem Evolves.attempt (evolves : search.Evolves R) : search.attempt.Evolves R := by
  intro session
  have related := evolves session
  simp only [Search.attempt]
  cases ran : search session with
  | ok value after | error failure after =>
    rw [ran] at related
    exact related

variable (trans : ∀ a b c : Session, R a b → R b c → R a c)
include trans

private theorem Evolves.bind {next : α → Search β} (first : search.Evolves R)
    (then' : ∀ value, (next value).Evolves R) :
    (search >>= next).Evolves R := by
  intro session
  cases ran : search session with
  | error failure after =>
    rw [bind_of_error ran]
    exact first.of_error ran
  | ok value during =>
    rw [bind_of_ok ran]
    have before := first.of_ok ran
    cases ran' : next value during with
    | ok result after => exact trans _ _ _ before ((then' value).of_ok ran')
    | error failure after => exact trans _ _ _ before ((then' value).of_error ran')

/-- A run moves sessions as far as drawing names and the searches of the kind do. -/
theorem Composed.evolves {kind : Search Unit → Prop} (refl : ∀ session, R session session)
    (draws : ∀ sort, (Search.freshVariable sort).Evolves R) (each : ∀ search, kind search → search.Evolves R)
    (composed : Composed kind search) : search.Evolves R := by
  induction composed with
  | ofKind one => exact each _ one
  | pure value => exact refl
  | throw failure => exact refl
  | freshVariable sort => exact draws sort
  | bind _ _ first then' => exact Evolves.bind trans first then'
  | attempt _ tried => exact tried.attempt

end Evolves

abbrev Steady (search : Search α) : Prop :=
  search.Evolves fun before after => after.steps = before.steps

theorem Composed.steady (composed : Composed (fun _ => False) search) : search.Steady :=
  composed.evolves (fun _ _ _ first second => second.trans first) (fun _ => rfl) (fun _ _ => rfl)
    fun _ none => none.elim

end Search

open Search

variable {kind : Search Unit → Prop}

private theorem AC.composed_share (f : FunctionSymbol) (atoms : List Term) (vector : List Nat) :
    Composed kind (share f atoms vector) := by
  rw [share]
  split
  · exact .pure _
  · exact (Composed.freshVariable _).bind fun _ => .pure _

private theorem AC.composed_combine (limits : Limits) (f : FunctionSymbol) (base : Substitution)
    (equations : List Equation) :
    Composed kind (combine limits f base equations) := by
  refine (Composed.ofExcept _).bind fun _ => (Composed.ofExcept _).bind fun vectors => ?_
  refine (Composed.mapM (composed_share f _) vectors).bind fun shares => ?_
  dsimp only
  split
  · exact .throw _
  · exact .pure _

theorem AC.composed_solve (limits : Limits) (equations : List Equation) : Composed kind (solve limits equations) := by
  simp only [solve]
  refine (Composed.ofExcept _).bind fun combiner => ?_
  cases combiner with
  | none => exact (Composed.ofExcept _).bind fun _ => .pure _
  | some f =>
    dsimp only
    split
    · exact .throw _
    · refine (Composed.ofExcept _).bind fun base => ?_
      split
      · exact .pure _
      · exact composed_combine limits f base _

namespace ExpAC

section Parts

variable (setting : Setting) (signature : Signature)

mutual

private theorem composed_flatten (t : Term) (out : Problem) : Composed kind (flatten t out) :=
  match t with
  | .var v => .pure _
  | .const c => .pure _
  | .node h args => by
    simp only [flatten]
    exact (composed_flattenArguments args out).bind fun _ => .pure _
termination_by structural t

theorem composed_flattenArguments (args : List Term) (out : Problem) : Composed kind (flattenArguments args out) :=
  match args with
  | [] => .pure _
  | .var v :: args => by
    rw [flattenArguments]
    · exact (composed_flattenArguments args out).bind fun _ => .pure _
    · simp
  | .const c :: args => by
    rw [flattenArguments]
    · exact (composed_flattenArguments args out).bind fun _ => .pure _
    · simp
  | .node h inner :: args => by
    have whole := composed_flatten (.node h inner) out
    have later := composed_flattenArguments args
    simp only [flattenArguments]
    exact whole.bind fun _ => (Composed.freshVariable _).bind fun _ => (later _).bind fun _ => .pure _
termination_by structural args

end

private theorem composed_flattenEquation (e : Equation) (out : Problem) : Composed kind (flattenEquation e out) := by
  have define (x : Variable) (t : Term) : Composed kind (flattenEquation.define out x t) :=
    (composed_flatten t out).bind fun _ => .pure _
  rw [flattenEquation]
  split
  · exact .throw _
  · split
    · exact define _ _
    · exact define _ _
    · exact (Composed.freshVariable _).bind fun _ => (composed_flatten _ _).bind fun _ =>
        (composed_flatten _ _).bind fun _ => .pure _

theorem composed_purify (problem : Problem) : Composed kind (purify problem) :=
  (Composed.foldlM (fun out e => composed_flattenEquation e out) _).bind fun _ => .pure _

private theorem composed_distribute (state : State) : Composed kind (state.distribute signature) := by
  simp only [State.distribute]
  split
  · exact .pure _
  · exact (Composed.freshVariable _).bind fun _ => (Composed.freshVariable _).bind fun _ => .ofExcept _

private theorem composed_composeExponents (state : State) : Composed kind (state.composeExponents signature) := by
  simp only [State.composeExponents]
  split
  · exact .pure _
  · exact (Composed.freshVariable _).bind fun _ => .pure _

theorem composed_applyFirst (state : State) (rules : List Rule) : Composed kind (applyFirst setting state rules) := by
  induction rules with
  | nil => exact .pure _
  | cons rule rules ih =>
    have applied : Composed kind (state.apply setting.signature rule) := by
      cases rule with
      | distribute => exact composed_distribute _ state
      | compose => exact composed_composeExponents _ state
      | eliminate | sameBase | sameExponent | mergePairs | decompose => exact .ofExcept _
    refine applied.bind fun found => ?_
    cases found with
    | none => exact ih
    | some next => exact .pure _

theorem composed_alternatives (state : State) : Composed kind (state.alternatives signature) := by
  simp only [State.alternatives]
  split
  · exact .pure _
  · iterate 6 refine (Composed.freshVariable _).bind fun _ => ?_
    exact .pure _

theorem composed_close (state : State) : Composed kind (close setting state) := by
  rw [close_eq]
  exact (AC.composed_solve _ _).bind fun _ => .ofExcept _

end Parts

section Runs

variable {setting : Setting} (counted : kind (tick setting))
include counted

private theorem composed_saturate (rules : List Rule) (fuel : Nat) (state : State) :
    Composed kind (saturate setting rules fuel state) := by
  induction fuel generalizing state with
  | zero => exact .throw _
  | succ fuel ih =>
    refine (composed_applyFirst setting state rules).bind fun found => ?_
    cases found with
    | none => exact .pure _
    | some next => exact (Composed.ofKind counted).bind fun _ => (Composed.ofExcept _).bind fun _ => ih next

private theorem composed_exhaust (rules : List Rule) (state : State) : Composed kind (exhaust setting rules state) :=
  (Composed.ofExcept _).bind fun _ => composed_saturate counted rules _ state

private theorem composed_settle (fuel : Nat) (before : State) : Composed kind (settle setting fuel before) := by
  induction fuel generalizing before with
  | zero => exact .throw _
  | succ fuel ih =>
    iterate 3 refine (composed_exhaust counted _ _).bind fun _ => ?_
    split
    · exact .pure _
    · exact ih _

private theorem composed_prepare (state : State) : Composed kind (prepare setting state) := by
  simp only [prepare]
  iterate 9 refine (composed_exhaust counted _ _).bind fun _ => ?_
  exact composed_exhaust counted _ _

private theorem composed_branch (fuel : Nat) (state : State) : Composed kind (branch setting fuel state) := by
  induction fuel generalizing state with
  | zero => exact .throw _
  | succ fuel ih =>
    refine (composed_settle counted _ state).bind fun settled =>
      (composed_alternatives _ settled).bind fun found => ?_
    cases found with
    | none => exact (composed_exhaust counted _ settled).bind (composed_close setting)
    | some alternatives =>
      refine (Composed.foldlM (fun harvest alternative => ?_) _).bind fun _ => .ofExcept _
      refine (Composed.ofKind counted).bind fun _ => ?_
      exact (Composed.attempt ((Composed.ofExcept alternative).bind ih)).bind fun _ => .ofExcept _

theorem composed_solve (problem : Problem) : Composed kind (solve setting problem) :=
  (composed_purify problem).bind fun flat => (composed_prepare counted flat).bind fun state =>
    composed_branch counted _ state

end Runs

end ExpAC

end Equational
