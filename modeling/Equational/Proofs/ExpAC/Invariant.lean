import Equational.Proofs.ExpAC.Outcome
import Equational.Proofs.ExpAC.Rule

/-! What a whole run keeps when every rule keeps it. An invariant says what holds of the states and what
follows from a failure; saturation, settling and the phases before branching then end in states
with the invariant, and those they end with admit none of the rules applied last. -/

namespace Equational

namespace ExpAC

open Search State

variable {setting : Setting} {signature : Signature} {state next : State} {session : Session} {rules : List Rule}

section Outcomes

def State.Idle (signature : Signature) (state : State) (rule : Rule) : Prop :=
  state.apply signature rule = pure none

theorem ends_freshVariable_true (sort : SortId) :
    (freshVariable sort).Ends session (fun _ _ => True) (fun _ => True) :=
  ends_freshVariable sort fun _ _ => trivial

/-- A rule that gives back nothing is idle, and only eliminations bind variables. -/
structure Outcome (signature : Signature) (state : State) (rule : Rule) (result : Option State) : Prop where
  idle : result = none → state.Idle signature rule
  unbound : rule ≠ .eliminate → ∀ next, result = some next → next.solved = state.solved

private theorem outcome_none {rule : Rule} (idle : state.Idle signature rule) : Outcome signature state rule none :=
  ⟨fun _ => idle, fun _ => nofun⟩

private theorem outcome_revise (rule : Rule) (remove add : List Equation) :
    Outcome signature state rule (some (state.revise remove add)) := by
  refine ⟨nofun, fun _ next same => ?_⟩
  cases same
  rfl

private theorem outcome_mergePowers {rule : Rule} {shared : Part} {result : Option State}
    (rules : state.apply signature rule = Search.ofExcept (state.mergePowers signature shared))
    (applied : state.mergePowers signature shared = .ok result) : Outcome signature state rule result := by
  rcases mergePowers_cases signature state shared with ⟨none, _⟩ | ⟨p, _, _, step⟩
  · cases none.symm.trans applied
    exact outcome_none (rules.trans (congrArg Search.ofExcept none))
  · rw [step] at applied
    obtain ⟨_, _, rest⟩ := exists_of_bind_eq_ok applied
    cases rest
    exact outcome_revise _ _ _

theorem ends_apply_outcome (rule : Rule) :
    (state.apply signature rule).Ends session (fun result _ => Outcome signature state rule result)
      (fun _ => True) := by
  cases rule with
  | eliminate =>
    refine ends_ofExcept (fun result applied => ⟨?_, fun other => absurd rfl other⟩) fun _ _ => trivial
    rintro rfl
    exact congrArg Search.ofExcept applied
  | sameBase => exact ends_ofExcept (fun _ applied => outcome_mergePowers rfl applied) fun _ _ => trivial
  | sameExponent => exact ends_ofExcept (fun _ applied => outcome_mergePowers rfl applied) fun _ _ => trivial
  | mergePairs =>
    refine ends_ofExcept (fun result applied => ?_) fun _ _ => trivial
    rcases mergePairs_cases signature state with ⟨none, _⟩ | ⟨e₁, e₂, u₁, v₁, u₂, v₂, _, _, _, step⟩
    · cases none.symm.trans applied
      exact outcome_none (congrArg Search.ofExcept none)
    · rw [step] at applied
      obtain ⟨_, _, rest⟩ := exists_of_bind_eq_ok applied
      obtain ⟨_, _, rest⟩ := exists_of_bind_eq_ok rest
      cases rest
      exact outcome_revise _ _ _
  | decompose =>
    refine ends_ofExcept (fun result applied => ?_) fun _ _ => trivial
    rcases decompose_cases signature state with ⟨none, _⟩ | ⟨e₁, e₂, h₁, xs, h₂, ys, _, _, _, _, _, step⟩
    · cases none.symm.trans applied
      exact outcome_none (congrArg Search.ofExcept none)
    · rw [step] at applied
      split at applied
      · cases applied
      · obtain ⟨_, _, rest⟩ := exists_of_bind_eq_ok applied
        cases rest
        exact outcome_revise _ _ _
  | distribute =>
    change (state.distribute signature).Ends ..
    rcases distribute_cases signature state with ⟨none, _⟩ | ⟨power, pair, s, t, u, v, _, _, _, step⟩
    · rw [none]
      exact ends_pure (outcome_none none)
    · rw [step]
      refine (ends_freshVariable_true _).bind fun v₁ _ _ _ => (ends_freshVariable_true _).bind fun v₂ _ _ _ => ?_
      refine ends_ofExcept (fun result applied => ?_) fun _ _ => trivial
      obtain ⟨_, _, rest⟩ := exists_of_bind_eq_ok applied
      obtain ⟨_, _, rest⟩ := exists_of_bind_eq_ok rest
      obtain ⟨_, _, rest⟩ := exists_of_bind_eq_ok rest
      cases rest
      exact outcome_revise _ _ _
  | compose =>
    change (state.composeExponents signature).Ends ..
    rcases composeExponents_cases signature state with none | ⟨outer, _, inner, _, y, s, t₁, t₂, _, _, _, step⟩
    · rw [none]
      exact ends_pure (outcome_none none)
    · rw [step]
      exact (ends_freshVariable_true _).bind fun z _ _ _ => ends_pure (outcome_revise _ _ _)

end Outcomes

/-- Rules keep what holds of a state that passes validation, and every failure means something. -/
structure Invariant (setting : Setting) (I : State → Session → Prop) (fails : Failure → Prop) : Prop where
  later : ∀ {state : State} {session after : Session}, I state session → session.names ≤ after.names → I state after
  rule : ∀ {state : State} {session : Session}, I state session →
    state.validate setting.limits setting.signature = .ok () →
    ∀ rule, (state.apply setting.signature rule).Ends session (fun result after => ∀ next, result = some next →
      I next after) fails
  validation : ∀ {state : State} {session : Session} {failure : Failure}, I state session →
    state.validate setting.limits setting.signature = .error failure → fails failure
  limit : ∀ {failure : Failure}, failure.IsLimit → fails failure

def Step (setting : Setting) (I : State → Session → Prop) (rules : List Rule) (state next : State) : Prop :=
  ∃ rule ∈ rules, ∃ session after, I state session ∧
    state.apply setting.signature rule session = .ok (some next) after

abbrev Path (setting : Setting) (I : State → Session → Prop) (rules : List Rule) : State → State → Prop :=
  Relation.ReflTransGen (Step setting I rules)

private theorem Path.solved_eq {I : State → Session → Prop} (path : Path setting I rules state next)
    (other : .eliminate ∉ rules) :
    next.solved = state.solved := by
  induction path with
  | refl => rfl
  | tail _ step ih =>
    obtain ⟨rule, member, _, _, _, applied⟩ := step
    have different : rule ≠ .eliminate := fun same => other (same ▸ member)
    exact (((ends_apply_outcome rule).of_ok applied).unbound different _ rfl).trans ih

/-- The state at the end admits none of the rules that led to it. -/
structure Saturates (setting : Setting) (I : State → Session → Prop) (rules : List Rule) (state next : State)
    (after : Session) :
    Prop where
  holds : I next after
  idle : ∀ rule ∈ rules, next.Idle setting.signature rule
  path : Path setting I rules state next

/-- The state at the end admits no elimination. Those of the last round have bound no variable, and before
them no rule that merges or distributes applied. -/
structure Settles (setting : Setting) (I : State → Session → Prop) (next : State) (after : Session) : Prop where
  holds : I next after
  eliminated : next.Idle setting.signature .eliminate
  merged : ∃ state, (∀ rule ∈ Rule.mergingAndDistributing, state.Idle setting.signature rule) ∧
    Path setting I [.eliminate] state next ∧ next.solved.size = state.solved.size

private theorem prepare_eq_phases (setting : Setting) (state : State) :
    prepare setting state = [[.compose], [.eliminate], Rule.merging, [.eliminate], Rule.merging, [.eliminate],
      [.compose], [.distribute], Rule.merging, [.eliminate]].foldlM
      (fun next rules => exhaust setting rules next) state := by
  simp only [prepare, List.foldlM_cons, List.foldlM_nil, bind_pure]

private theorem State.size_eq_of_same {before : State} (same : state.same before = true) :
    state.solved.size = before.solved.size := by
  obtain ⟨_, solved⟩ := Bool.and_eq_true_iff.mp same
  exact beq_iff_eq.mp (Bool.and_eq_true_iff.mp solved).1

namespace Invariant

variable {I : State → Session → Prop} {fails : Failure → Prop} (inv : Invariant setting I fails)
include inv

private theorem ends_applyFirst (holds : I state session)
    (valid : state.validate setting.limits setting.signature = .ok ())
    (rules : List Rule) : (applyFirst setting state rules).Ends session
      (fun result after => (result = none → I state after ∧ ∀ rule ∈ rules, state.Idle setting.signature rule) ∧
        ∀ next, result = some next → I next after ∧ Step setting I rules state next) fails := by
  induction rules generalizing session with
  | nil => exact ends_pure ⟨fun _ => ⟨holds, List.forall_mem_nil _⟩, nofun⟩
  | cons rule rules ih =>
    have applied := ((inv.rule holds valid rule).and (ends_apply_outcome rule)).mono (fun _ _ _ both => both)
      fun _ both => both.1
    refine applied.ran.bind ?_
    rintro result after grown ⟨ran, kept, outcome⟩
    cases result with
    | none =>
      refine (ih (inv.later holds grown)).mono ?_ fun _ failed => failed
      rintro result' last _ ⟨idle, steps⟩
      refine ⟨fun none => ⟨(idle none).1, List.forall_mem_cons.mpr ⟨outcome.idle rfl, (idle none).2⟩⟩,
        fun next same => ?_⟩
      obtain ⟨kept', other, member, step⟩ := steps next same
      exact ⟨kept', other, List.mem_cons_of_mem rule member, step⟩
    | some next =>
      refine ends_pure ⟨nofun, fun next' same => ?_⟩
      cases same
      exact ⟨kept next rfl, rule, List.mem_cons_self .., session, after, holds, ran⟩

theorem ends_validate {α : Type} {continue' : Unit → Search α} {P : α → Session → Prop} (holds : I state session)
    (rest : state.validate setting.limits setting.signature = .ok () → (continue' ()).Ends session P fails) :
    (validate setting state >>= continue').Ends session P fails :=
  ends_ofExcept_bind (fun _ valid => rest valid) fun _ failed => inv.validation holds failed

private theorem ends_saturate (holds : I state session)
    (valid : state.validate setting.limits setting.signature = .ok ()) (rules : List Rule) (fuel : Nat) :
    (saturate setting rules fuel state).Ends session (Saturates setting I rules state) fails := by
  induction fuel generalizing state session with
  | zero => exact ends_throw (inv.limit ⟨_, rfl⟩)
  | succ fuel ih =>
    refine (inv.ends_applyFirst holds valid rules).bind ?_
    rintro result after grown ⟨idle, steps⟩
    cases result with
    | none =>
      obtain ⟨kept, none⟩ := idle rfl
      exact ends_pure ⟨kept, none, .refl⟩
    | some next =>
      obtain ⟨kept, step⟩ := steps next rfl
      refine (ends_tick (inv.limit ⟨_, rfl⟩)).bind ?_
      intro _ ticked later _
      have kept' := inv.later kept later
      refine inv.ends_validate kept' fun valid' => (ih kept' valid').mono ?_ fun _ failed => failed
      intro last final _ saturates
      exact ⟨saturates.holds, saturates.idle, .head step saturates.path⟩

theorem ends_exhaust (holds : I state session) (rules : List Rule) :
    (exhaust setting rules state).Ends session (Saturates setting I rules state) fails :=
  inv.ends_validate holds fun valid => inv.ends_saturate holds valid rules _

theorem ends_settle (holds : I state session) (fuel : Nat) :
    (settle setting fuel state).Ends session (Settles setting I) fails := by
  induction fuel generalizing state session with
  | zero => exact ends_throw (inv.limit ⟨_, rfl⟩)
  | succ fuel ih =>
    refine (inv.ends_exhaust holds _).bind fun composed _ _ first => ?_
    refine (inv.ends_exhaust first.holds _).bind fun merged _ _ second => ?_
    refine (inv.ends_exhaust second.holds _).bind fun eliminated _ _ third => ?_
    split
    next same =>
      have kept : merged.solved = state.solved :=
        (second.path.solved_eq (by decide)).trans (first.path.solved_eq (by decide))
      exact ends_pure ⟨third.holds, third.idle _ (List.mem_singleton_self _), merged, second.idle, third.path,
        kept ▸ size_eq_of_same same⟩
    next => exact ih third.holds

private theorem ends_phases (holds : I state session) (phases : List (List Rule)) :
    (phases.foldlM (fun next rules => exhaust setting rules next) state).Ends session I fails := by
  induction phases generalizing state session with
  | nil => exact ends_pure holds
  | cons rules phases ih =>
    rw [List.foldlM_cons]
    exact (inv.ends_exhaust holds rules).bind fun _ _ _ saturates => ih saturates.holds

theorem ends_prepare (holds : I state session) : (prepare setting state).Ends session I fails := by
  rw [prepare_eq_phases]
  exact inv.ends_phases holds _

end Invariant

end ExpAC

end Equational
