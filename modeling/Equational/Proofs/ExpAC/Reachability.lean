import Equational.Proofs.ExpAC.Kept
import Equational.Proofs.ExpAC.Purification
import Equational.Proofs.ExpAC.Runs

/-! The states that a run goes through. Each is in order, and has what the problem has and every step
keeps. A path through them ends in a state that is handed over to be closed, so what closing these gives,
the run gives. -/

namespace Equational

namespace ExpAC

open Search State

variable {setting : Setting} {signature : Signature} {problem : Problem} {interner : Interner} {state : State}
  {session : Session}

/-- A problem of regular terms, whose symbols go by their numbers and whose variables are known to
the interner. -/
structure Posed (signature : Signature) (problem : Problem) (interner : Interner) : Prop where
  sorted : signature.OneSorted
  consistent : Consistent (· ∈ signature.symbols ++ problem.equations.flatMap Equation.symbols)
  regular : EverySide (Term.isRegular signature.f · = true) problem.equations
  interned : ∀ v ∈ problem.vars, v.id.index < interner.variableCount

abbrev Spelled (signature : Signature) (problem : Problem) (h : FunctionSymbol) : Prop :=
  h ∈ signature.symbols ++ problem.equations.flatMap Equation.symbols

section Posed

variable (posed : Posed signature problem interner)
include posed

theorem Posed.within : signature.Within (Spelled signature problem) := by
  refine ⟨posed.consistent, ?_, ?_, ?_, posed.sorted.f⟩ <;> simp [Signature.symbols]

theorem Posed.given : EverySide (Given (Spelled signature problem) interner.variableCount) problem.equations :=
  given_of_interned (fun _ member => List.mem_append_right signature.symbols member) posed.interned

theorem Posed.sorts : ∀ v ∈ problem.vars, v.sort = signature.f.range := by
  intro v member
  obtain ⟨e, listed, occurs⟩ := List.mem_flatMap.mp (List.mem_eraseDups.mp member)
  rcases List.mem_append.mp occurs with left | right
  · exact Term.sort_of_mem_vars (posed.regular e listed).1 left
  · exact Term.sort_of_mem_vars (posed.regular e listed).2 right

end Posed

/-- The states that a run on the problem goes through, each with the session in which it does. -/
inductive Reached (setting : Setting) (problem : Problem) (interner : Interner) : State → Session → Prop where
  /-- The flat form of the problem. -/
  | start {state : State} {session : Session}
      (purified : purify problem { interner, fresh := { stem := setting.limits.freshStem } } = .ok state session) :
      Reached setting problem interner state session
  /-- What a rule makes of a state that passes validation. -/
  | rule {state next : State} {session after : Session} {rule : Rule}
      (reached : Reached setting problem interner state session)
      (valid : state.validate setting.limits setting.signature = .ok ())
      (applied : state.apply setting.signature rule session = .ok (some next) after) :
      Reached setting problem interner next after
  /-- One of the ways in which two powers can be equal. -/
  | alternative {state next : State} {session after : Session} {alternatives : List (Except Failure State)}
      (reached : Reached setting problem interner state session)
      (listed : state.alternatives setting.signature session = .ok (some alternatives) after)
        (member : .ok next ∈ alternatives) :
      Reached setting problem interner next after
  /-- Idle rules and abandoned paths draw names and take steps, and change nothing else. -/
  | later {state : State} {session after : Session} (reached : Reached setting problem interner state session)
      (grown : session.names ≤ after.names) : Reached setting problem interner state after

/-- The states that are closed: what a branch hands over when it has settled without alternatives and
eliminated variables once more. -/
inductive HandedOver (setting : Setting) (problem : Problem) (interner : Interner) : State → Session → Prop where
  | mk {state settled last : State} {session during before after : Session}
      (reached : Reached setting problem interner state session)
      (settles : settle setting (rounds setting) state session = .ok settled during)
      (unbranched : settled.alternatives setting.signature during = .ok none before)
      (eliminates : exhaust setting [.eliminate] settled before = .ok last after) :
        HandedOver setting problem interner last after

namespace Reached

/-- What is kept and holds of the problem holds of every reached state. -/
theorem all {Q : Nat → Term → Prop} (kept : Kept interner.variableCount Q)
    (holds : EverySide (Q interner.variableCount) problem.equations)
    (reached : Reached setting problem interner state session) :
    state.All interner.variableCount Q session.names := by
  induction reached with
  | start purified =>
    let begun : Session := { interner, fresh := { stem := setting.limits.freshStem } }
    have given : EverySide (Q begun.names) problem.equations := holds
    exact (ends_purify_all kept (Nat.le_refl _) given).of_ok purified
  | rule _ _ applied ih => exact (ends_apply_all kept ih _).of_ok applied _ rfl
  | alternative _ listed member ih => exact (ends_alternatives_all kept ih).of_ok listed _ rfl _ member
  | later _ grown ih => exact ih.later kept grown

variable (posed : Posed setting.signature problem interner) (reached : Reached setting problem interner state session)
include posed reached

theorem proper : state.Proper (Spelled setting.signature problem) session.names := by
  induction reached with
  | start purified => exact ((ends_purify setting.signature posed.given).of_ok purified).1
  | rule _ valid applied ih =>
    exact ((ends_apply posed.within ih (acyclic_of_validate valid) _).of_ok applied _ rfl).proper
  | alternative _ listed member ih =>
    exact ((ends_alternatives posed.within ih).of_ok listed _ rfl _ member _ rfl).proper
  | later _ grown ih => exact ih.mono grown

end Reached

/-- Every run goes through reached states only. -/
theorem invariant_reached (setting : Setting) (problem : Problem) (interner : Interner) :
    Invariant setting (Reached setting problem interner) (fun _ => True) where
  later reached grown := reached.later grown
  rule reached valid rule := (ends_apply_outcome rule).ran.mono
    (fun _ _ _ applied _ same => .rule reached valid (same ▸ applied.1)) fun _ _ => trivial
  validation _ _ := trivial
  limit _ := trivial

theorem HandedOver.reached (handed : HandedOver setting problem interner state session) :
    Reached setting problem interner state session := by
  cases handed with
  | @mk _ settled _ _ during _ _ reached settles unbranched eliminates =>
    have settled' := ((invariant_reached ..).ends_settle reached _).of_ok settles
    have alternates : (settled.alternatives setting.signature).Ends during _ (fun _ => False) :=
      ends_alternatives_revised
    have arrived := settled'.holds.later (alternates.names_le_of_ok unbranched)
    exact (((invariant_reached ..).ends_exhaust arrived _).of_ok eliminates).holds

/-- What every failure of a run means that does not come from closing a state. -/
structure Failing (setting : Setting) (problem : Problem) (interner : Interner) (fails : Failure → Prop) : Prop where
  purifies : (purify problem).Ends { interner, fresh := { stem := setting.limits.freshStem } } (fun _ _ => True) fails
  invariant : Invariant setting (Reached setting problem interner) fails
  alternative : ∀ {state : State} {session after : Session} {alternatives : List (Except Failure State)}
    {failure : Failure}, Reached setting problem interner state session →
    state.alternatives setting.signature session = .ok (some alternatives) after →
    .error failure ∈ alternatives → fails failure
  noBranch : fails (.unsatisfiable .noBranch)

theorem failing_true (setting : Setting) (problem : Problem) (interner : Interner) :
    Failing setting problem interner fun _ => True where
  purifies := (ends_purify_all kept_true (Nat.zero_le _) fun _ _ => ⟨trivial, trivial⟩).mono (fun _ _ _ _ => trivial)
    fun _ _ => trivial
  invariant := invariant_reached ..
  alternative _ _ _ := trivial
  noBranch := trivial

section Answers

variable {P : Nat → Substitution → Prop} {fails : Failure → Prop} (failing : Failing setting problem interner fails)
  (later : ∀ {n n' : Nat} {σ : Substitution}, n ≤ n' → P n σ → P n' σ)
  (closes : ∀ {last : State} {during : Session}, HandedOver setting problem interner last during →
    (close setting last).Ends during (fun unifiers after => unifiers ≠ [] ∧ ∀ σ ∈ unifiers, P after.names σ) fails)
include failing later closes

/-- Every path from a reached state ends in a state that is handed over, so what closing it gives is
what the path gives. -/
theorem ends_branch_forall (reached : Reached setting problem interner state session) (fuel : Nat) :
    (branch setting fuel state).Ends session (fun unifiers after => unifiers ≠ [] ∧
      ∀ σ ∈ unifiers, P after.names σ) fails := by
  have limit : fails (stepsExhausted setting) := failing.invariant.limit ⟨_, rfl⟩
  induction fuel generalizing state session with
  | zero => exact ends_throw limit
  | succ fuel ih =>
    refine Ends.bind (failing.invariant.ends_settle reached _).ran ?_
    rintro settled during _ ⟨settles, arrived, _⟩
    refine ends_alternatives_revised.ran.bind ?_
    rintro result before grown ⟨ran, _⟩
    cases result with
    | none =>
      refine Ends.bind (failing.invariant.ends_exhaust (arrived.later grown) _).ran ?_
      rintro last _ _ ⟨eliminates, _⟩
      exact closes ⟨reached, settles, ran, eliminates⟩
    | some alternatives =>
      -- What holds of the unifiers found so far stays so while further paths draw names.
      refine ends_tryAll (P := P) failing.noBranch limit later
        (fun _ stuck => failing.alternative arrived ran stuck) ?_
      intro next listed during grown'
      exact (ih ((arrived.alternative ran listed).later (by omega))).mono (fun _ _ _ => And.right)
        fun _ failed => failed

theorem ends_solve_forall : (solve setting problem).Ends { interner, fresh := { stem := setting.limits.freshStem } }
    (fun unifiers after => unifiers ≠ [] ∧ ∀ σ ∈ unifiers, P after.names σ) fails := by
  refine failing.purifies.ran.bind ?_
  rintro flat during _ ⟨ran, _⟩
  refine Ends.bind (failing.invariant.ends_prepare (.start ran)) ?_
  exact fun prepared _ _ reached => ends_branch_forall (P := P) failing later closes reached _

end Answers

end ExpAC

end Equational
