import Equational.Proofs.AC.Soundness
import Equational.Proofs.ExpAC.Branching
import Equational.Proofs.ExpAC.Flattening
import Equational.Proofs.ExpAC.Invariant

/-! Soundness of unification modulo exponentiation. From the problem to the states that are closed,
every state refines the one before it, on every branch. A closed state yields an assignment
under which it holds, so the problem holds there as well. -/

namespace Equational

namespace ExpAC

open Search State

variable {setting : Setting} {known : FunctionSymbol → Prop} {state : State} {session : Session}

section Saturation

theorem of_validate {limits : Limits} {signature : Signature} {result : Unit}
    (validated : state.validate limits signature = .ok result) :
    (∀ p ∈ state.pairs, checkCompatible signature p.1.rhs p.2.rhs = .ok ()) ∧ state.checkAcyclic = .ok () := by
  rw [State.validate] at validated
  dsimp only at validated
  split at validated
  · obtain ⟨_, impossible, _⟩ := exists_of_bind_eq_ok validated
    cases impossible
  · obtain ⟨_, compatible, acyclic⟩ := exists_of_bind_eq_ok validated
    exact ⟨of_forM_ok compatible, acyclic⟩

theorem acyclic_of_validate {limits : Limits} {signature : Signature} {result : Unit}
    (validated : state.validate limits signature = .ok result) : state.checkAcyclic = .ok () :=
  (of_validate validated).2

/-- Rules lead to states that refine the one they start from. -/
theorem invariant_refines (within : setting.signature.Within known) (state : State) :
    Invariant setting (fun next after => Refines setting.signature known after.names state next) (fun _ => True) where
  later refines grown := ⟨refines.proper.mono grown, refines.holds⟩
  rule refines valid rule := (ends_apply within refines.proper (acyclic_of_validate valid) rule).mono
    (fun _ _ _ later next same => refines.trans (later next same)) fun _ _ => trivial
  validation _ _ := trivial
  limit _ := trivial

end Saturation

section Closing

def Closes (setting : Setting) (state : State) (σ : Substitution) : Prop :=
  ∃ m, state.Holds setting.signature m ∧ ∀ v ∈ setting.scope, σ.image v = m v

/-- Closing definitions under a substitution gives a substitution for both. -/
theorem exists_of_closeWith {closing : List Equation} {θ σ : Substitution} (consistent : Consistent known)
    (formed : EverySide (Term.WellFormed known) closing) (range : ∀ t ∈ θ.range, t.WellFormed known)
    (closed : closeWith setting closing θ = .ok σ) : ∃ τ : Substitution, (∀ e ∈ closing, e.Holds τ.image) ∧
      (∀ e : Equation, e.lhs.isCanonical = true → e.rhs.isCanonical = true → e.Holds θ.image → e.Holds τ.image) ∧
      (∀ v ∈ setting.scope, σ.image v = τ.image v) ∧
      ∀ P, Term.Substitutive P → EverySide P closing → (∀ t ∈ θ.range, P t) → ∀ t ∈ τ.range, P t := by
  obtain ⟨σ', solved, result⟩ := exists_of_bind_eq_ok closed
  cases result
  have canonical : ∀ t ∈ θ.range, t.isCanonical = true := fun t member => (range t member).canonical
  have solution := AC.solution_unifyAll consistent
    (everySide_applyEquation (Term.hereditary_wellFormed known).substitutive range formed) solved
  refine ⟨θ.compose σ', ?_, ?_, fun v member => Substitution.image_restrict member,
    fun P substitutive sides range' => ?_⟩
  · intro e member
    exact (Substitution.holds_compose_iff canonical σ' e).mpr (solution.holds _ (List.mem_map_of_mem member))
  · intro e left right holds
    have equal : (θ.applyEquation e).isTrivial = true := (Substitution.holds_of_apply_eq left right).mpr holds
    exact (Substitution.holds_compose_iff canonical σ' e).mpr (AC.holds_of_isTrivial equal _)
  · have range'' := range_of_substitutive substitutive (everySide_applyEquation substitutive range' sides) solved
    exact Substitution.range_compose substitutive range' range''

private theorem ends_close (within : setting.signature.Within known) (proper : state.Proper known session.names) :
    (close setting state).Ends session (fun unifiers _ => ∀ σ ∈ unifiers, Closes setting state σ)
      (fun _ => True) := by
  have definitions : EverySide (Term.WellFormed known) state.definitions.equations :=
    EverySide.imp proper.definitions fun fits => fits.formed
  have formed : EverySide (Term.WellFormed known) (state.closing setting.signature) :=
    everySide_closing definitions _ fun p member =>
      ⟨(Term.hereditary_wellFormed known).var p.1, proper.range _ (List.mem_map_of_mem member)⟩
  have formed' : EverySide (Term.WellFormed known) (state.residual setting.signature) :=
    everySide_residual definitions _
  refine (ends_closeAll (P := fun _ => Closes setting state) trivial
    (AC.ends_solve_sound _ within.consistent formed') ?_).mono
    (fun _ _ _ closes => closes.2) fun _ _ => trivial
  intro thetas _ _ solutions θ member
  refine Except.gives_of (fun σ closed => ?_) fun _ _ => trivial
  obtain ⟨τ, holds, kept, agree, _⟩ := exists_of_closeWith within.consistent formed (solutions θ member).formed closed
  refine ⟨τ.image,
    holds_iff_holdsIn.mpr ((holdsIn_iff_parts (EqualModulo.congruence setting.signature) setting.signature).mpr
    ⟨fun e inside => (holds e inside).modulo, fun e inside => Equation.Holds.modulo ?_⟩), agree⟩
  exact kept e (formed' e inside).1.canonical (formed' e inside).2.canonical ((solutions θ member).holds e inside)

end Closing

section Branching

private theorem ends_closes_of_refines {n : Nat} {next : State} {run : Search (List Substitution)}
    (refines : Refines setting.signature known n state next)
    (ends : run.Ends session (fun unifiers _ => ∀ σ ∈ unifiers, Closes setting next σ) (fun _ => True)) :
    run.Ends session (fun unifiers _ => ∀ σ ∈ unifiers, Closes setting state σ) (fun _ => True) := by
  refine ends.mono ?_ fun _ _ => trivial
  intro unifiers _ _ closes σ member
  obtain ⟨m, holds, agree⟩ := closes σ member
  exact ⟨m, refines.holds m holds, agree⟩

variable (within : setting.signature.Within known)
include within

theorem ends_branch (proper : state.Proper known session.names) (fuel : Nat) :
    (branch setting fuel state).Ends session
    (fun unifiers _ => ∀ σ ∈ unifiers, Closes setting state σ) (fun _ => True) := by
  induction fuel generalizing state session with
  | zero => exact ends_throw trivial
  | succ fuel ih =>
    refine Ends.bind ((invariant_refines within state).ends_settle (.refl proper) _) ?_
    intro settled after _ settles
    have refines := settles.holds
    refine ends_closes_of_refines refines ?_
    refine (ends_alternatives within refines.proper).bind ?_
    intro result before grown alternatives
    have proper' := refines.proper.mono grown
    cases result with
    | none =>
      refine Ends.bind ((invariant_refines within settled).ends_exhaust (.refl proper') _) ?_
      intro last _ _ saturates
      exact ends_closes_of_refines saturates.holds (ends_close within saturates.holds.proper)
    | some alternatives' =>
      refine (ends_tryAll (P := fun _ => Closes setting settled) trivial trivial (fun _ closes => closes)
        (fun _ _ => trivial) ?_).mono
        (fun _ _ _ closes => closes.2) fun _ _ => trivial
      intro next listed during later
      have refines' := alternatives alternatives' rfl _ listed next rfl
      exact ends_closes_of_refines refines' (ih (refines'.proper.mono later))

private theorem ends_solve {problem : Problem} (stated : EverySide (Stated known session.names) problem.equations) :
    (solve setting problem).Ends session (fun unifiers _ => ∀ σ ∈ unifiers,
      ∃ m, (∀ e ∈ problem.equations, e.HoldsModulo setting.signature m) ∧ ∀ v ∈ setting.scope, σ.image v = m v)
      (fun _ => True) := by
  refine (ends_purify setting.signature (stated.imp Stated.given)).bind ?_
  intro flat during _ pure
  refine Ends.bind ((invariant_refines within flat).ends_prepare (.refl pure.1)) ?_
  intro prepared _ _ refines
  refine (ends_branch within refines.proper _).mono ?_ fun _ _ => trivial
  intro unifiers _ _ closes σ member
  obtain ⟨m, holds, agree⟩ := closes σ member
  exact ⟨m, pure.2 m (refines.holds m holds), agree⟩

end Branching

end ExpAC

def ExpAC.Signature.symbols (signature : ExpAC.Signature) : List FunctionSymbol :=
  [signature.exp, signature.g, signature.f]

/-- Over symbols that go by their numbers, and with all variables known to the interner, every
unifier makes the sides of every equation equal modulo the laws, whatever the limits. -/
theorem Problem.unifyExpAC_sound {limits : Limits} {signature : ExpAC.Signature} {problem : Problem}
    {interner : Interner} {unifiers : List Substitution} (laws : signature.f.theory = .associativeCommutative)
    (consistent : Consistent (· ∈ signature.symbols ++ problem.equations.flatMap Equation.symbols))
    (canonical : ∀ e ∈ problem.equations, e.lhs.isCanonical = true ∧ e.rhs.isCanonical = true)
    (interned : ∀ v ∈ problem.vars, v.id.index < interner.variableCount)
    (solved : (problem.unifyExpAC limits signature interner).1 = .ok unifiers) :
    ∀ σ ∈ unifiers, ∀ e ∈ problem.equations, ExpAC.EqualModulo signature (σ.apply e.lhs) (σ.apply e.rhs) := by
  have within : signature.Within (· ∈ signature.symbols ++ problem.equations.flatMap Equation.symbols) := by
    refine ⟨consistent, ?_, ?_, ?_, laws⟩ <;> simp [ExpAC.Signature.symbols]
  have mem_vars {e : Equation} (member : e ∈ problem.equations) {v : Variable} (occurs : v ∈ e.vars) :
      v ∈ problem.vars :=
    List.mem_eraseDups.mpr (List.mem_flatMap.mpr ⟨e, member, occurs⟩)
  have spelled : EverySide (Term.Over (· ∈ signature.symbols ++ problem.equations.flatMap Equation.symbols))
      problem.equations :=
    everySide_over_symbols fun f member => List.mem_append_right signature.symbols member
  have stated : EverySide (ExpAC.Stated (· ∈ signature.symbols ++ problem.equations.flatMap Equation.symbols)
      interner.variableCount) problem.equations := by
    intro e member
    have each := fun v occurs => interned v (mem_vars member occurs)
    exact ⟨⟨⟨(canonical e member).1, (spelled e member).1⟩, fun v occurs => each v (List.mem_append_left _ occurs)⟩,
      ⟨(canonical e member).2, (spelled e member).2⟩, fun v occurs => each v (List.mem_append_right _ occurs)⟩
  intro σ member e listed
  obtain ⟨_, solutions⟩ := Search.Ends.of_run (ExpAC.ends_solve within stated) solved
  obtain ⟨m, holds, agree⟩ := solutions σ member
  have side {t : Term} (canonical : t.isCanonical = true) (scope : ∀ v ∈ t.vars, v ∈ problem.vars) :
      ExpAC.EqualModulo signature (σ.apply t) (t.instantiate m) := by
    refine .of_shape ((σ.shape_apply canonical).trans (Term.instantiate_congr_left fun v occurs => ?_))
    rw [agree v (scope v occurs)]
  have left := side (canonical e listed).1 fun v occurs => mem_vars listed (List.mem_append_left _ occurs)
  have right := side (canonical e listed).2 fun v occurs => mem_vars listed (List.mem_append_right _ occurs)
  exact left.trans ((holds e listed).trans right.symm)

def ExpAC.Signature.binary : ExpAC.Signature where
  exp := ⟨⟨0⟩, 2, .free, .default, .default⟩
  g := ⟨⟨1⟩, 2, .free, .default, .default⟩
  f := ⟨⟨2⟩, 2, .associativeCommutative, .default, .default⟩

def Problem.equalPowers : Problem :=
  let x : Variable := ⟨⟨0⟩, .default⟩
  let y : Variable := ⟨⟨1⟩, .default⟩
  let z : Variable := ⟨⟨2⟩, .default⟩
  let w : Variable := ⟨⟨3⟩, .default⟩
  let exp := ExpAC.Signature.binary.exp
  ⟨[⟨.var z, .node exp [.var x, .var y]⟩, ⟨.var z, .node exp [.var x, .var w]⟩]⟩

theorem Problem.unifyExpAC_sound_equalPowers :
    let interner : Interner := { Interner.empty with variableTable := ⟨["x", "y", "z", "w"]⟩ }
    ∃ σ, (equalPowers.unifyExpAC {} .binary interner).1 = .ok [σ] ∧
      ∀ e ∈ equalPowers.equations, ExpAC.EqualModulo .binary (σ.apply e.lhs) (σ.apply e.rhs) := by
  intro interner
  have consistent :
      Consistent (· ∈ ExpAC.Signature.binary.symbols ++ equalPowers.equations.flatMap Equation.symbols) := by
    decide
  have canonical : ∀ e ∈ equalPowers.equations, e.lhs.isCanonical = true ∧ e.rhs.isCanonical = true := by decide
  have interned : ∀ v ∈ equalPowers.vars, v.id.index < interner.variableCount := by decide
  obtain ⟨σ, solved⟩ : ∃ σ, (equalPowers.unifyExpAC {} .binary interner).1 = .ok [σ] := ⟨_, by cbv⟩
  exact ⟨σ, solved, unifyExpAC_sound rfl consistent canonical interned solved σ (List.mem_singleton_self σ)⟩

end Equational
