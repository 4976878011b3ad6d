import Equational.Proofs.AC.System
import Equational.Proofs.ExpAC.Flat

/-! Why a run fails. Flat states have a flat form for all that the rules do with them, and what they leave to the
combiner is combinations of variables and constants under one symbol, so the failures for which the engine has
no better name never come about: none is of an unsupported form, and none of a variable bound twice. -/

namespace Equational

open Search

section Syntactic

variable {s t : Term} {equations : List Equation} {failure : Failure}

private theorem isExpected_of_between (failed : Demand.between s t = .error failure) : failure.IsExpected := by
  have binds {v : Variable} {u : Term} (failed : Demand.bind v u = .error failure) : failure.IsExpected := by
    simp only [Demand.bind] at failed
    split at failed
    · cases failed
      trivial
    · split at failed <;> cases failed
      trivial
  simp only [Demand.between] at failed
  split at failed
  · cases failed
  · split at failed
    · exact binds failed
    · exact binds failed
    · cases failed
      trivial
    · cases failed
      trivial
    · cases failed
      trivial
    · split at failed
      · cases failed
        trivial
      · split at failed <;> cases failed
        trivial

private theorem isExpected_of_unifyAll (failed : unifyAll equations = .error failure) : failure.IsExpected := by
  obtain ⟨_, _, _, _, clash⟩ := Unifier.run_of_solve_error failed
  exact isExpected_of_between clash

end Syntactic

namespace AC

variable {f : FunctionSymbol} {id : FunctionId} {equations : List Equation} {e : Equation} {failure : Failure}

/-- A variable set equal to a combination, under a symbol of the number, of variables and constants. -/
structure IsSum (id : FunctionId) (e : Equation) : Prop where
  named : e.lhs.isVariable = true
  rooted : e.rhs.isRootedAt id = true
  shallow : e.rhs.IsShallow

private theorem IsSum.id_eq (sum : IsSum id e) (member : f ∈ combiners e.lhs ++ combiners e.rhs) : f.id = id := by
  obtain ⟨named, rooted, shallow⟩ := sum
  obtain ⟨lhs, rhs⟩ := e
  have leaf {t : Term} (simple : t.isSimple = true) : t.symbols = [] := by
    cases t with
    | var v | const c => rfl
    | node h args => cases simple
  rcases List.mem_append.mp member with left | right
  · have symbols := (mem_combiners.mp left).1
    rw [leaf (ExpAC.isSimple_of_isVariable named)] at symbols
    cases symbols
  · have symbols := (mem_combiners.mp right).1
    cases rhs with
    | var v | const c => cases rooted
    | node h args =>
      rcases Term.mem_symbols_node.mp symbols with rfl | ⟨arg, listed, inside⟩
      · simpa [Term.isRootedAt] using rooted
      · rw [leaf (shallow arg listed)] at inside
        cases inside

private theorem IsSum.isRooted (sum : IsSum f.id e) : isRooted f e = true := by
  simp [AC.isRooted, sum.rooted]

private theorem IsSum.isSimple_of_mem (sum : IsSum f.id e) : ∀ a ∈ membersOf f e, a.isSimple = true := by
  have left : e.lhs.isRootedAt f.id = false := by
    obtain ⟨v, same⟩ := Term.exists_of_isVariable sum.named
    rw [same]
    rfl
  have variable' := ExpAC.isSimple_of_isVariable sum.named
  simp only [membersOf, members, left, sum.rooted, Bool.false_eq_true, ↓reduceIte]
  exact List.forall_mem_append.mpr ⟨List.forall_mem_singleton.mpr variable', sum.shallow⟩

private theorem isExpected_of_checkSides (failed : checkSides f e = .error failure) : failure.IsExpected := by
  simp only [checkSides] at failed
  generalize (if e.lhs.isRootedAt f.id then (e.rhs, e.lhs) else (e.lhs, e.rhs)) = sides at failed
  split at failed
  · split at failed <;> cases failed
    trivial
  · cases failed
    trivial
  · split at failed <;> cases failed
    trivial

private theorem isExpected_of_checkAtom {a : Term} (simple : a.isSimple = true)
    (failed : checkAtom f a = .error failure) :
    failure.IsExpected := by
  simp only [checkAtom] at failed
  split at failed
  · cases failed
    trivial
  · split at failed
    · cases failed
    next open' =>
      refine absurd ?_ open'
      cases a with
      | var v => rfl
      | const c => rfl
      | node h args => cases simple

private theorem isExpected_of_failed {limits : Limits} {n : Nat} (sums : ∀ e ∈ equations, IsSum id e)
    (failed : Failed limits n equations failure) : failure.IsExpected := by
  have number {f : FunctionSymbol} (found : combiner? equations = .ok (some f)) : f.id = id := by
    obtain ⟨e, listed, member⟩ := mem_of_combiner? found
    exact (sums e listed).id_eq member
  -- Nothing is left aside when the symbol is at the root of a side of every equation.
  have all {f : FunctionSymbol} (found : combiner? equations = .ok (some f)) : unrooted f equations = [] := by
    obtain rfl := number found
    exact List.filter_eq_nil_iff.mpr fun e listed => by simp [(sums e listed).isRooted]
  cases failed with
  | combiner several =>
    rw [combiner?] at several
    split at several
    · cases several
    next f others shape =>
      have numbers : ∀ g ∈ f :: others, g.id = id := by
        intro g member
        rw [← shape] at member
        obtain ⟨e, listed, inside⟩ := List.mem_flatMap.mp member
        exact (sums e listed).id_eq inside
      obtain ⟨first, later⟩ := List.forall_mem_cons.mp numbers
      rw [if_pos (List.all_eq_true.mpr fun g member => by simp [first, later g member])] at several
      cases several
  | plain _ unsolved => exact isExpected_of_unifyAll unsolved
  | below combiner inside =>
    rw [all combiner] at inside
    cases inside
  | unrooted _ _ unsolved => exact isExpected_of_unifyAll unsolved
  | @rooted f base _ based unchecked =>
    obtain rfl := number based.combiner
    have solved := based.solved
    rw [all based.combiner, unifyAll_nil] at solved
    cases solved
    have sums' : ∀ e ∈ rootedUnder f .empty equations, IsSum f.id e := by
      intro e member
      obtain ⟨origin, listed, same⟩ := List.mem_map.mp (List.mem_of_mem_filter member)
      exact same ▸ sums origin (List.mem_of_mem_filter listed)
    rcases exists_of_check_error unchecked with ⟨e, _, sides⟩ | ⟨e, member, a, inside, atom⟩
    · exact isExpected_of_checkSides sides
    · exact isExpected_of_checkAtom ((sums' e member).isSimple_of_mem a inside) atom
  | basis _ unsolved =>
    obtain ⟨_, rfl⟩ := limitReached_of_solutionVectors unsolved
    trivial
  | combination => trivial

end AC

namespace ExpAC

open State

variable {P : Term → Prop} {setting : Setting} {signature : Signature} {limits : Limits} {problem : Problem}
  {interner : Interner} {state : State} {session : Session} {failure : Failure}

private theorem isExpected_of_isLimit (limit : failure.IsLimit) : failure.IsExpected := by
  obtain ⟨_, rfl⟩ := limit
  trivial

private theorem isExpected_of_validate (failed : state.validate limits signature = .error failure) :
    failure.IsExpected := by
  rw [State.validate] at failed
  dsimp only at failed
  split at failed
  · cases failed
    trivial
  · rcases exists_of_bind_eq_error failed with clash | ⟨_, _, cycle⟩
    · obtain ⟨p, _, found⟩ := exists_of_forM_error clash
      simp only [checkCompatible] at found
      split at found <;> (try split at found) <;> cases found <;> trivial
    · simp only [State.checkAcyclic] at cycle
      split at cycle <;> cases cycle
      trivial

private theorem isSum_of_mem_residual (flat : state.Flat P session.names) {e : Equation}
    (member : e ∈ state.residual signature) :
    AC.IsSum signature.f.id e := by
  obtain ⟨listed, rooted⟩ := List.mem_filter.mp (List.mem_of_mem_filter member)
  have naming := flat.neat.definitions e listed
  exact ⟨naming.named, rooted, naming.shallow⟩

private theorem ends_close_expected (flat : state.Flat P session.names) :
    (close setting state).Ends session (fun unifiers _ => unifiers ≠ [] ∧
      ∀ σ ∈ unifiers, True) Failure.IsExpected := by
  refine ends_closeAll (P := fun _ _ => True) trivial
    ((AC.ends_solve setting.limits (state.residual setting.signature)).mono (fun _ _ _ found => found)
    fun failure failed => ?_) ?_
  · exact AC.isExpected_of_failed (fun e member => isSum_of_mem_residual flat (List.mem_of_mem_filter member)) failed
  · refine fun thetas after _ _ θ _ => Except.gives_of (fun _ _ => trivial) fun failure failed => ?_
    rcases exists_of_bind_eq_error failed with unsolved | ⟨_, _, impossible⟩
    · exact isExpected_of_unifyAll unsolved
    · cases impossible

private theorem failing_expected (interned : ∀ v ∈ problem.vars, v.id.index < interner.variableCount) :
    Failing setting problem interner Failure.IsExpected := by
  have sides : EverySide (fun _ => True) problem.equations := fun _ _ => ⟨trivial, trivial⟩
  have flat {state : State} {session : Session} (reached : Reached setting problem interner state session) :
      state.Flat (fun _ => True) session.names := reached.flat interned sides steady_true
  refine ⟨?_, ⟨fun reached grown => reached.later grown, ?_, fun _ => isExpected_of_validate, isExpected_of_isLimit⟩,
    ?_, trivial⟩
  · exact (ends_purify_flat interned sides Term.byArity_true.flattenable _).mono (fun _ _ _ _ => trivial)
      fun _ failed => failed
  · intro state session reached valid rule
    exact (ends_apply_flat steady_true (flat reached) rule).ran.mono
      (fun _ _ _ applied _ same => .rule reached valid (same ▸ applied.1)) fun _ failed => failed
  · intro state session after alternatives failure reached listed member
    exact (ends_alternatives_flat steady_true (flat reached)).of_ok listed _ rfl _ member

end ExpAC

/-- Whatever the signature and the limits, every state of a run on a problem over known variables gives variables
shallow terms, and what it has eliminated occurs nowhere. So the run fails neither because of a form that is not
supported nor because of a variable bound twice. -/
theorem Problem.unifyExpAC_stays_flat (limits : Limits) (signature : ExpAC.Signature) (problem : Problem)
    (interner : Interner) (interned : ∀ v ∈ problem.vars, v.id.index < interner.variableCount) :
    (∀ state session, ExpAC.Reached ⟨limits, signature, problem.vars⟩ problem interner state session →
      (∀ e ∈ state.definitions.equations, e.lhs.isVariable = true ∧ e.rhs.IsShallow ∧
        ∀ v ∈ e.vars, v ∉ state.solved.domain) ∧
      ∀ t ∈ state.solved.range, ∀ v ∈ t.vars, v ∉ state.solved.domain) ∧
    ∀ failure, (problem.unifyExpAC limits signature interner).1 = .error failure →
      (∀ cause, failure ≠ .unsupported cause) ∧ ∀ v, failure ≠ .conflictingBinding v := by
  constructor
  · intro state session reached
    have flat := reached.flat interned (fun _ _ => ⟨trivial, trivial⟩) ExpAC.steady_true
    refine ⟨fun e listed => ?_, fun t member v occurs => ?_⟩
    · have naming := flat.neat.definitions e listed
      exact ⟨naming.named, naming.shallow, fun v occurs => (flat.proper.usable e listed v occurs).2⟩
    · obtain ⟨x, bound⟩ := Substitution.exists_of_mem_range member
      obtain ⟨y, rfl, usable⟩ := flat.neat.solved _ bound
      simp only [Term.vars, List.mem_singleton] at occurs
      exact occurs ▸ usable.2
  · intro failure failed
    have expected : failure.IsExpected :=
      (ExpAC.ends_solve_forall (P := fun _ _ => True) (ExpAC.failing_expected interned)
      (fun _ _ => trivial) fun handed =>
        ExpAC.ends_close_expected
          (handed.reached.flat interned (fun _ _ => ⟨trivial, trivial⟩) ExpAC.steady_true)).of_run_error failed
    constructor
    · rintro cause rfl
      exact expected
    · rintro v rfl
      exact expected

def Problem.constantPower : Problem :=
  let x : Variable := ⟨⟨0⟩, .default⟩
  let y : Variable := ⟨⟨1⟩, .default⟩
  let z : Variable := ⟨⟨2⟩, .default⟩
  let signature := ExpAC.Signature.binary
  ⟨[⟨.var z, .node signature.exp [.node signature.g [.var x, .const ⟨⟨0⟩, .default⟩], .var y]⟩,
    ⟨.var z, .const ⟨⟨0⟩, .default⟩⟩]⟩

theorem Problem.unifyExpAC_stays_flat_constantPower :
    let interner : Interner := { Interner.empty with variableTable := ⟨["x", "y", "z"]⟩ }
    (∃ state session, ExpAC.Reached ⟨{}, .binary, constantPower.vars⟩ constantPower interner state session ∧
      state.definitions.size = 3 ∧
      ∀ e ∈ state.definitions.equations, e.lhs.isVariable = true ∧ e.rhs.IsShallow ∧
        ∀ v ∈ e.vars, v ∉ state.solved.domain) ∧
    ∃ failure, (constantPower.unifyExpAC {} .binary interner).1 = .error failure ∧
      (∀ cause, failure ≠ .unsupported cause) ∧ ∀ v, failure ≠ .conflictingBinding v := by
  intro interner
  have interned : ∀ v ∈ constantPower.vars, v.id.index < interner.variableCount := by decide
  obtain ⟨flat, fails⟩ := unifyExpAC_stays_flat {} .binary constantPower interner interned
  constructor
  · have size : (match ExpAC.purify constantPower { interner, fresh := { stem := Limits.freshStem {} } } with
        | .ok state _ => state.definitions.size
        | .error _ _ => 0) = 3 := by cbv
    split at size
    next state session purified =>
      exact ⟨state, session, .start purified, size, (flat state session (.start purified)).1⟩
    next => cases size
  · have stuck : (constantPower.unifyExpAC {} .binary interner).1.isOk = false := by cbv
    cases failed : (constantPower.unifyExpAC {} .binary interner).1 with
    | error failure => exact ⟨failure, rfl, fails failure failed⟩
    | ok unifiers =>
      rw [failed] at stuck
      cases stuck

end Equational
