import Equational.Proofs.Unification.MostGeneral

/-! Soundness of syntactic unification for symbols of every theory. The bindings found are applied
while the equations are solved, so that arguments are spliced in and collapse on the way. -/

namespace Equational

private theorem Substitution.apply_apply {σ : Substitution} (holds : σ.Holds σ.image)
    (canonical : ∀ t ∈ σ.range, t.isCanonical = true) (t : Term) : (σ.apply (σ.apply t) == σ.apply t) = true := by
  rcases σ.apply_eq_or t with rebuilt | ⟨none, kept⟩
  · have images (v : Variable) : (σ.image v).isCanonical = true :=
      image_hereditary Term.hereditary_isCanonical canonical v
    have whole : (σ.apply t).isCanonical = true := by
      rw [rebuilt]
      exact Term.isCanonical_instantiate fun v _ => images v
    rw [Term.beq_iff_shape]
    calc (σ.apply (σ.apply t)).shape = ((σ.apply t).instantiate σ.image).shape := σ.shape_apply whole
      _ = (t.instantiate σ.image).shape := holds.apply t
      _ = (σ.apply t).shape := by rw [rebuilt]
  · rw [kept, kept]
    exact BEq.rfl

/-- Over symbols that go by their numbers, whatever their theories, success on equations between
terms in canonical shape gives an idempotent unifier. -/
theorem unifyAll_sound {equations : List Equation} {σ : Substitution}
    (consistent : Consistent (· ∈ equations.flatMap Equation.symbols))
    (canonical : ∀ e ∈ equations, e.lhs.isCanonical = true ∧ e.rhs.isCanonical = true)
    (solved : unifyAll equations = .ok σ) :
    σ.Unifies equations ∧ σ.isIdempotent = true ∧ ∀ t, (σ.apply (σ.apply t) == σ.apply t) = true := by
  have spelled : EverySide (Term.Over (· ∈ equations.flatMap Equation.symbols)) equations :=
    everySide_over_symbols fun _ member => member
  have itself := holds_image_of_unifyAll canonical solved
  have range := range_of_unifyAll Term.hereditary_isCanonical canonical solved
  exact ⟨(Substitution.unifies_iff canonical).mpr (holds_of_unifyAll consistent spelled solved itself),
    Substitution.isIdempotent_of_solved (solved_of_unifyAll solved).1, Substitution.apply_apply itself range⟩

namespace Unifier

/-- Solving without the invariant of the worklist, in a bounded number of steps, to be evaluated. -/
def evaluate : Nat → Substitution → List Equation → Option (Except Failure Substitution)
  | 0, _, _ => none
  | _ + 1, σ, [] => some (.ok σ)
  | fuel + 1, σ, e :: rest =>
    match Demand.between (σ.apply e.lhs) (σ.apply e.rhs) with
    | .error failure => some (.error failure)
    | .ok .nothing => evaluate fuel σ rest
    | .ok (.binding v t) => if unbound : v ∉ σ.domain then evaluate fuel (σ.assign v t unbound) rest else none
    | .ok (.equations pending) => evaluate fuel σ (pending ++ rest)

private theorem exists_fuel {fuel : Nat} {σ : Substitution} {work : List Equation}
    {outcome : Except Failure Substitution}
    (evaluated : evaluate fuel σ work = some outcome) : ∃ less, fuel = less + 1 := by
  cases fuel with
  | zero => cases evaluated
  | succ less => exact ⟨less, rfl⟩

private theorem solve_eq_of_evaluate {scope : List Variable} {fuel : Nat} {σ : Substitution} {work : List Equation}
    {inv : Invariant scope σ work} {outcome : Except Failure Substitution}
    (evaluated : evaluate fuel σ work = some outcome) :
    solve scope σ work inv = outcome := by
  fun_induction solve scope σ work inv generalizing fuel with
  | case1 =>
    obtain ⟨fuel, rfl⟩ := exists_fuel evaluated
    exact Option.some.inj evaluated
  | case2 σ e rest inv failure found =>
    obtain ⟨fuel, rfl⟩ := exists_fuel evaluated
    rw [evaluate, found] at evaluated
    exact Option.some.inj evaluated
  | case3 σ e rest inv found _ ih =>
    obtain ⟨fuel, rfl⟩ := exists_fuel evaluated
    rw [evaluate, found] at evaluated
    exact ih evaluated
  | case4 σ e rest inv v t found facts _ ih =>
    obtain ⟨fuel, rfl⟩ := exists_fuel evaluated
    rw [evaluate, found] at evaluated
    simp only [facts.unbound, not_false_eq_true, ↓reduceDIte] at evaluated
    exact ih evaluated
  | case5 σ e rest inv pending found shape _ ih =>
    obtain ⟨fuel, rfl⟩ := exists_fuel evaluated
    rw [evaluate, found] at evaluated
    exact ih evaluated

end Unifier

theorem unifyAll_eq_of_evaluate {equations : List Equation} {outcome : Except Failure Substitution} (fuel : Nat)
    (evaluated : Unifier.evaluate fuel .empty equations = some outcome) : unifyAll equations = outcome :=
  Unifier.solve_eq_of_evaluate evaluated

/-- Symbols of all theories. `z` is spliced into a product, and `k(x, a)` collapses. -/
def mixedTheories : List Equation :=
  let h : FunctionSymbol := ⟨⟨0⟩, 2, .free, .default, .default⟩
  let times : FunctionSymbol := ⟨⟨1⟩, 2, .associative, .default, .default⟩
  let plus : FunctionSymbol := ⟨⟨2⟩, 2, .associativeCommutative, .default, .default⟩
  let meet : FunctionSymbol := ⟨⟨3⟩, 2, .commutative, .default, .default⟩
  let k : FunctionSymbol := ⟨⟨4⟩, 2, .idempotent, .default, .default⟩
  let a : Term := .const ⟨⟨0⟩, .default⟩
  let b : Term := .const ⟨⟨1⟩, .default⟩
  let x : Term := .var ⟨⟨0⟩, .default⟩
  let y : Term := .var ⟨⟨1⟩, .default⟩
  let z : Term := .var ⟨⟨2⟩, .default⟩
  let w : Term := .var ⟨⟨3⟩, .default⟩
  [⟨.node h [z, .node plus [a, w]], .node h [.node times [a, b], .node plus [a, .node meet [x, y]]]⟩,
    ⟨.node times [z, x], .node times [a, b, a]⟩, ⟨y, .node k [x, a]⟩]

theorem unifyAll_sound_mixedTheories :
    Consistent (· ∈ mixedTheories.flatMap Equation.symbols) ∧
    (∀ e ∈ mixedTheories, e.lhs.isCanonical = true ∧ e.rhs.isCanonical = true) ∧
    ∃ σ, unifyAll mixedTheories = .ok σ ∧ σ.Unifies mixedTheories ∧ σ.isIdempotent = true ∧
      ∀ t, (σ.apply (σ.apply t) == σ.apply t) = true := by
  have consistent : Consistent (· ∈ mixedTheories.flatMap Equation.symbols) := by decide
  have canonical : ∀ e ∈ mixedTheories, e.lhs.isCanonical = true ∧ e.rhs.isCanonical = true := by decide
  have succeeds : (Unifier.evaluate 20 .empty mixedTheories).any Except.isOk = true := by cbv
  cases evaluated : Unifier.evaluate 20 .empty mixedTheories with
  | none =>
    rw [evaluated] at succeeds
    cases succeeds
  | some outcome =>
    have solved := unifyAll_eq_of_evaluate 20 evaluated
    rw [evaluated] at succeeds
    cases outcome with
    | ok σ => exact ⟨consistent, canonical, σ, solved, unifyAll_sound consistent canonical solved⟩
    | error failure => cases succeeds

end Equational
