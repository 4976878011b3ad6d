import Equational.Proofs.ExpAC.Acyclicity

/-! The search for cycles as a loop. A stack holds the variables that are still to be visited, and a variable that
was seen before is not entered again. Nothing bounds the loop, but a variable puts what it depends on upon the stack
only once, so the loop ends, and it finds the definitions through which their variables depend on themselves. -/

namespace Equational.ExpAC

open Relation

variable {target v : Variable} {dependencies : List Dependency} {seen : List Variable}

/-- Where the loop stands: the variables seen so far, and those on the stack, its top first. -/
structure Visit where
  seen : List Variable := []
  stack : List Variable

namespace Visit

/-- One turn of the loop, which ends it with an answer or goes on. What a variable depends on is put
upon the stack when it is seen for the first time. -/
def turn (target : Variable) (dependencies : List Dependency) : Visit → Bool ⊕ Visit
  | ⟨_, []⟩ => .inl false
  | ⟨seen, v :: stack⟩ =>
    if v = target then .inl true
    else if v ∈ seen then .inr ⟨seen, stack⟩
    else .inr ⟨v :: seen, (usesOf v dependencies).reverse ++ stack⟩

/-- Looks for the target on the stack, and in what the variables there depend on. The loop has no bound;
without an outcome it does not end. -/
def run (target : Variable) (dependencies : List Dependency) (visit : Visit) : Option Bool :=
  match visit.turn target dependencies with
  | .inl found => some found
  | .inr next => next |>.run target dependencies
partial_fixpoint

end Visit

def unseen (seen : List Variable) (dependencies : List Dependency) : List Dependency :=
  dependencies.filter (·.defined ∉ seen)

private theorem unseen_nil (dependencies : List Dependency) : unseen [] dependencies = dependencies := by
  simp [unseen]

private theorem unseen_cons (v : Variable) (seen : List Variable) (dependencies : List Dependency) :
    unseen (v :: seen) dependencies = without v (unseen seen dependencies) := by
  rw [unseen, without, unseen, List.filter_filter]
  refine List.filter_congr fun d _ => ?_
  by_cases same : d.defined = v <;> simp [same]

private theorem usesOf_unseen_of_mem (visited : v ∈ seen) : usesOf v (unseen seen dependencies) = [] := by
  refine List.flatMap_eq_nil_iff.mpr fun d member => ?_
  obtain ⟨listed, same⟩ := List.mem_filter.mp member
  obtain ⟨_, new⟩ := List.mem_filter.mp listed
  rw [beq_iff_eq.mp same] at new
  exact absurd visited (of_decide_eq_true new)

private theorem usesOf_unseen_of_not_mem (new : v ∉ seen) :
    usesOf v (unseen seen dependencies) = usesOf v dependencies := by
  rw [usesOf, usesOf, unseen, List.filter_filter]
  refine congrArg (List.flatMap Dependency.uses) (List.filter_congr fun d _ => ?_)
  by_cases same : d.defined = v
  · simp [same, new]
  · simp [same]

private theorem without_unseen_of_mem (visited : v ∈ seen) :
    without v (unseen seen dependencies) = unseen seen dependencies := by
  refine List.filter_eq_self.mpr fun d listed => bne_iff_ne.mpr fun same => ?_
  obtain ⟨_, new⟩ := List.mem_filter.mp listed
  exact of_decide_eq_true new (same ▸ visited)

private theorem reaches_congr {pending pending' : List Variable} (same : ∀ v, v ∈ pending ↔ v ∈ pending') :
    reaches target dependencies pending = reaches target dependencies pending' := by
  rw [Bool.eq_iff_iff, reaches_iff, reaches_iff]
  simp only [same]

namespace Visit

variable {visit next : Visit}

/-- What the search answers from here that uses the definitions up as it goes. -/
def answer (target : Variable) (dependencies : List Dependency) (visit : Visit) : Bool :=
  reaches target (unseen visit.seen dependencies) visit.stack

def remaining (dependencies : List Dependency) (visit : Visit) : Nat :=
  totalUses (unseen visit.seen dependencies) + visit.stack.length

private theorem answer_of_turn_eq_inl {found : Bool} (ends : visit.turn target dependencies = .inl found) :
    visit.answer target dependencies = found := by
  obtain ⟨seen, _ | ⟨v, stack⟩⟩ := visit
  · cases ends
    rw [answer, reaches]
  · simp only [turn] at ends
    split at ends
    next same =>
      cases ends
      rw [answer, reaches, beq_iff_eq.mpr same, Bool.true_or]
    next => split at ends <;> cases ends

private theorem step_of_turn_eq_inr (continues : visit.turn target dependencies = .inr next) :
    visit.answer target dependencies = next.answer target dependencies ∧
      next.remaining dependencies + 1 = visit.remaining dependencies := by
  obtain ⟨seen, _ | ⟨v, stack⟩⟩ := visit
  · cases continues
  simp only [turn] at continues
  split at continues
  next => cases continues
  next other =>
    simp only [answer, remaining]
    rw [reaches, beq_eq_false_iff_ne.mpr other, Bool.false_or]
    split at continues
    next visited =>
      cases continues
      rw [without_unseen_of_mem visited, usesOf_unseen_of_mem visited]
      exact ⟨rfl, rfl⟩
    next new =>
      cases continues
      have spent := totalUses_without_add v (unseen seen dependencies)
      rw [usesOf_unseen_of_not_mem new] at spent ⊢
      rw [unseen_cons, List.length_append, List.length_reverse, List.length_cons]
      exact ⟨reaches_congr fun w => by simp, by omega⟩

/-- The loop ends, and with the answer of the search that uses the definitions up. -/
theorem run_eq (target : Variable) (dependencies : List Dependency) (visit : Visit) :
    visit.run target dependencies = some (visit.answer target dependencies) := by
  rw [run]
  cases outcome : visit.turn target dependencies with
  | inl found => rw [answer_of_turn_eq_inl outcome]
  | inr next =>
    obtain ⟨same, less⟩ := step_of_turn_eq_inr outcome
    rw [same]
    exact next.run_eq target dependencies
termination_by visit.remaining dependencies

end Visit

/-- Looks for the variable of the definition in what the definition depends on, the last of it first. -/
def searchFrom (dependencies : List Dependency) (p : Dependency × Term) : ExceptT Failure Option Unit := do
  if ← Visit.run p.1.defined dependencies { stack := p.1.uses.reverse } then
    throw (.occursCheck p.1.defined p.2)

private theorem searchFrom_eq (dependencies : List Dependency) (p : Dependency × Term) : searchFrom dependencies p =
    if reaches p.1.defined dependencies p.1.uses then throw (.occursCheck p.1.defined p.2) else pure () := by
  rw [searchFrom, Visit.run_eq, Visit.answer, unseen_nil, reaches_congr fun v => List.mem_reverse]
  rfl

namespace State

def searchCycles (state : State) : ExceptT Failure Option Unit :=
  forM state.dependencies (searchFrom (state.dependencies.map Prod.fst))

private theorem run_searchCycles (state : State) : state.searchCycles.run = some state.checkAcyclic := by
  rw [searchCycles, checkAcyclic]
  generalize state.dependencies.map Prod.fst = all
  induction state.dependencies with
  | nil => rfl
  | cons p rest ih =>
    rw [List.forM_cons, searchFrom_eq, List.find?_cons]
    cases reaches p.1.defined all p.1.uses with
    | true => rfl
    | false => exact ih

/-- The check tells exactly whether some variable depends on itself, through whichever of its
definitions. It fails in no other way, and its loops end on every state. -/
theorem checkAcyclic_decides (state : State) :
    state.searchCycles.run = some state.checkAcyclic ∧
      ((∃ x t, state.checkAcyclic = .error (.occursCheck x t)) ↔ ∃ x, TransGen state.DependsOn x x) ∧
      (state.checkAcyclic = .ok () ↔ ¬ ∃ x, TransGen state.DependsOn x x) := by
  have passes : state.checkAcyclic = .ok () ↔ ¬ ∃ x, TransGen state.DependsOn x x :=
    checkAcyclic_eq_ok_iff.trans not_exists.symm
  refine ⟨run_searchCycles state, ⟨?fails, ?cyclic⟩, passes⟩
  case fails =>
    rintro ⟨_, _, failed⟩
    obtain ⟨x, t, _, stated, proper, y, occurs, path⟩ := cycle_of_checkAcyclic failed
    exact ⟨x, TransGen.head' ⟨_, stated, rfl, proper, occurs⟩ path⟩
  case cyclic =>
    intro cycle
    cases outcome : state.checkAcyclic with
    | ok => exact absurd cycle (passes.mp outcome)
    | error failure =>
      obtain ⟨x, t, rfl, _⟩ := cycle_of_checkAcyclic outcome
      exact ⟨x, t, rfl⟩

/-- A variable defined as a variable is not followed. Of two definitions of a variable the second may
close a cycle, which shows at the first definition on it. -/
example :
    let x : Variable := ⟨⟨0⟩, .default⟩
    let y : Variable := ⟨⟨1⟩, .default⟩
    let z : Variable := ⟨⟨2⟩, .default⟩
    let a : Term := .const ⟨⟨0⟩, .default⟩
    let h : FunctionSymbol := ⟨⟨0⟩, 1, .free, .default, .default⟩
    let aliased : State :=
      { definitions := ⟨[⟨.var x, .node h [.var y]⟩, ⟨.var y, .var z⟩, ⟨.var z, .node h [.var x]⟩]⟩ }
    let twice : State :=
      { definitions := ⟨[⟨.var x, .node h [a]⟩, ⟨.var y, .node h [.var x]⟩, ⟨.var x, .node h [.var y]⟩]⟩ }
    aliased.checkAcyclic = .ok () ∧ twice.checkAcyclic = .error (.occursCheck y (.node h [.var x])) := by
  cbv

end State

end Equational.ExpAC
