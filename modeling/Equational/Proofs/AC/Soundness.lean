import Equational.Proofs.AC.Atom
import Equational.Proofs.AC.Outcome
import Equational.Proofs.Unification.MostGeneral

/-! Soundness of unification modulo one associative-commutative symbol. Every combination of
solution vectors is tried out on the equations before it is returned, so nothing needs to be
known of the vectors here. -/

namespace Equational.AC

/-- The substitution makes the equations hold and keeps to terms in good order. -/
structure Solution (known : FunctionSymbol → Prop) (equations : List Equation) (σ : Substitution) : Prop where
  holds : ∀ e ∈ equations, e.Holds σ.image
  formed : ∀ t ∈ σ.range, t.WellFormed known

theorem holds_of_isTrivial {e : Equation} (trivial : e.isTrivial = true) (m : Variable → Term) : e.Holds m :=
  Term.instantiate_congr (Term.beq_iff_shape.mp trivial) m

section Shares

variable {known : FunctionSymbol → Prop} {f : FunctionSymbol} {atoms : List Term}

theorem mem_of_constantShares {vector : List Nat} {p : Term × Nat} (member : p ∈ constantShares atoms vector) :
    p.1 ∈ atoms :=
  (List.of_mem_zip (List.mem_of_mem_filter member)).1

private theorem Drawn.terms {P : Term → Prop} {n : Nat} {vectors : List (List Nat)} {shares : List Share}
    (drawn : Drawn f atoms n vectors shares) (each : ∀ atom ∈ atoms, P atom)
    (fresh : ∀ v : Variable, v.sort = f.domain → P (.var v)) :
    ∀ x ∈ shares, P x.term := by
  induction drawn with
  | nil => simp
  | @constant n vector vectors shares constant count others found _ ih =>
    have member : (constant, count) ∈ constantShares atoms vector := by simp [found]
    exact List.forall_mem_cons.mpr ⟨each _ (mem_of_constantShares member), ih⟩
  | fresh _ _ ih => exact List.forall_mem_cons.mpr ⟨fresh _ rfl, ih⟩

theorem mem_of_mem_choices {α : Type} {promising : List α → List α → Bool} {rest chosen final : List α}
    (member : final ∈ choices promising rest chosen) : ∀ x ∈ final, x ∈ rest ∨ x ∈ chosen := by
  induction rest generalizing chosen with
  | nil =>
    simp only [choices] at member
    split at member
    · rw [List.mem_singleton.mp member]
      exact fun x inside => .inr inside
    · cases member
  | cons y rest ih =>
    simp only [choices] at member
    split at member
    · intro x inside
      rcases List.mem_append.mp member with without | with'
      · exact (ih without x inside).imp_left (List.mem_cons_of_mem y)
      · rcases ih with' x inside with later | earlier
        · exact .inl (List.mem_cons_of_mem y later)
        · rcases List.mem_cons.mp earlier with rfl | old
          · exact .inl (List.mem_cons_self ..)
          · exact .inr old
    · cases member

theorem mem_received {chosen : List Share} {column : Nat} {t : Term} (member : t ∈ received chosen column) :
    ∃ x ∈ chosen, t = x.term := by
  obtain ⟨x, inside, copies⟩ := List.mem_flatMap.mp member
  exact ⟨x, inside, (List.mem_replicate.mp copies).2⟩

private theorem range_add {v : Variable} {t : Term} {θ θ' : Substitution} {P : Term → Prop} (old : ∀ u ∈ θ.range, P u)
    (new : P t)
    (added : θ.add v t = .ok θ') : ∀ u ∈ θ'.range, P u := by
  intro u member
  obtain ⟨w, bound⟩ := Substitution.exists_of_mem_range member
  rcases Substitution.mem_bindings_of_add added bound with earlier | ⟨_, rfl⟩
  · exact old u (Substitution.mem_range_of_mem earlier)
  · exact new

/-- A variable is bound to the one share that it receives, or to their combination. -/
theorem exists_of_assemble_var {chosen : List Share} {column : Nat} {v : Variable} {rest : List Term}
    {θ θ' : Substitution}
    (assembled : assemble f chosen column (.var v :: rest) θ = some θ') :
    ∃ t θ₁, (t ∈ received chosen column ∨ 2 ≤ (received chosen column).length ∧ t = .app f (received chosen column)) ∧
    θ.add v t = .ok θ₁ ∧
      assemble f chosen (column + 1) rest θ₁ = some θ' := by
  have step {t : Term} (bound : (θ.add v t).toOption.bind (assemble f chosen (column + 1) rest) = some θ') :
      ∃ θ₁, θ.add v t = .ok θ₁ ∧ assemble f chosen (column + 1) rest θ₁ = some θ' := by
    cases added : θ.add v t with
    | error failure =>
      rw [added] at bound
      cases bound
    | ok θ₁ =>
      rw [added] at bound
      exact ⟨θ₁, rfl, bound⟩
  simp only [assemble] at assembled
  split at assembled
  · cases assembled
  next t single =>
    obtain ⟨θ₁, added, later⟩ := step assembled
    exact ⟨t, θ₁, .inl (by simp [single]), added, later⟩
  next none single =>
    obtain ⟨θ₁, added, later⟩ := step assembled
    refine ⟨_, θ₁, .inr ⟨?_, rfl⟩, added, later⟩
    cases taken : received chosen column with
    | nil => exact absurd taken none
    | cons t rest =>
      cases rest with
      | nil => exact absurd taken (single t)
      | cons u rest => simp

theorem assemble_of_assemble_cons {chosen : List Share} {column : Nat} {atom : Term}
    (proper : atom.isVariable = false)
    {rest : List Term} {θ θ' : Substitution} (assembled : assemble f chosen column (atom :: rest) θ = some θ') :
    assemble f chosen (column + 1) rest θ = some θ' := by
  cases atom with
  | var v => cases proper
  | const c | node g args =>
    rw [assemble] at assembled
    · split at assembled
      · exact assembled
      · cases assembled
    · simp

theorem range_assemble {P : Term → Prop} {chosen : List Share}
    (app : ∀ args : List Term, 2 ≤ args.length → (∀ t ∈ args, P t) → P (.app f args))
    (formed : ∀ x ∈ chosen, P x.term) {column : Nat} {θ θ' : Substitution} (old : ∀ t ∈ θ.range, P t)
    (assembled : assemble f chosen column atoms θ = some θ') : ∀ t ∈ θ'.range, P t := by
  induction atoms generalizing column θ with
  | nil =>
    cases assembled
    exact old
  | cons atom rest ih =>
    cases atom with
    | const c => exact ih old (assemble_of_assemble_cons rfl assembled)
    | node g args => exact ih old (assemble_of_assemble_cons rfl assembled)
    | var v =>
      obtain ⟨t, θ₁, taken, added, later⟩ := exists_of_assemble_var assembled
      have each : ∀ t ∈ received chosen column, P t := by
        intro t member
        obtain ⟨x, inside, rfl⟩ := mem_received member
        exact formed x inside
      refine ih (range_add old ?_ added) later
      rcases taken with member | ⟨many, rfl⟩
      · exact each t member
      · exact app _ many each

end Shares

section Combine

variable {known : FunctionSymbol → Prop} {f : FunctionSymbol} {base : Substitution} {equations : List Equation}

/-- What a search is promised to return: solutions of the equations. -/
abbrev Sound (known : FunctionSymbol → Prop) (equations : List Equation) (unifiers : List Substitution) : Prop :=
  ∀ σ ∈ unifiers, Solution known equations σ

theorem holdsUnder_iff {e : Equation} {θ : Substitution} (left : e.lhs.isCanonical = true)
    (right : e.rhs.isCanonical = true) :
    holdsUnder θ e = true ↔ e.Holds θ.image :=
  Substitution.holds_of_apply_eq left right

private theorem range_combinations {P : Term → Prop} {shares : List Share} {rooted : List Equation}
    (substitutive : Term.Substitutive P)
    (app : ∀ args : List Term, 2 ≤ args.length → (∀ t ∈ args, P t) → P (.app f args)) (based : ∀ t ∈ base.range, P t)
    (drawn : ∀ x ∈ shares, P x.term) : ∀ σ ∈ combinations f base rooted shares, ∀ t ∈ σ.range, P t := by
  intro σ member
  obtain ⟨chosen, among, _, θ, assembled, _, rfl⟩ := mem_combinations.mp member
  have each : ∀ x ∈ chosen, P x.term := by
    intro x inside
    have origin := (mem_of_mem_choices among x inside).resolve_right List.not_mem_nil
    exact drawn x (List.mem_reverse.mp origin)
  have range : ∀ t ∈ θ.range, P t :=
    range_assemble app each (by simp [Substitution.empty, Substitution.range]) assembled
  exact Substitution.range_compose substitutive based range

private theorem sound_combinations {shares : List Share} {rooted : List Equation} (root : known f)
    (baseFormed : ∀ t ∈ base.range, t.WellFormed known) (formed : EverySide (Term.WellFormed known) rooted)
    (drawn : ∀ x ∈ shares, x.term.WellFormed known)
    (implied : ∀ e ∈ equations, (base.applyEquation e).isTrivial = true ∨ base.applyEquation e ∈ rooted) :
    Sound known equations (combinations f base rooted shares) := by
  intro σ member
  refine ⟨?_, range_combinations (Term.hereditary_wellFormed known).substitutive
    (fun _ _ => Term.wellFormed_app root) baseFormed
    drawn σ member⟩
  obtain ⟨_, _, _, θ, _, holds, rfl⟩ := mem_combinations.mp member
  have canonical : ∀ t ∈ base.range, t.isCanonical = true := fun t inside => (baseFormed t inside).canonical
  intro e inside
  refine (Substitution.holds_compose_iff canonical θ e).mpr ?_
  rcases implied e inside with trivial | kept
  · exact holds_of_isTrivial trivial _
  · exact (holdsUnder_iff (formed _ kept).1.canonical (formed _ kept).2.canonical).mp (holds _ kept)

end Combine

section Solve

variable {known : FunctionSymbol → Prop} {equations : List Equation} {session : Session}

theorem solution_unifyAll {σ : Substitution} (consistent : Consistent known)
    (formed : EverySide (Term.WellFormed known) equations)
    (solved : unifyAll equations = .ok σ) : Solution known equations σ where
  holds := holds_of_unifyAll consistent (formed.imp fun formed => formed.spelled) solved
    (holds_image_of_unifyAll (formed.imp fun formed => formed.canonical) solved)
  formed := range_of_unifyAll (Term.hereditary_wellFormed known) formed solved

/-- Equations that are solved but for the trivial ones are solved. -/
theorem Solution.of_filter {σ : Substitution} (solution : Solution known (equations.filter (!·.isTrivial)) σ) :
    Solution known equations σ where
  holds e member := by
    cases trivial : e.isTrivial with
    | true => exact holds_of_isTrivial trivial _
    | false => exact solution.holds e (List.mem_filter.mpr ⟨member, by simp [trivial]⟩)
  formed := solution.formed

private theorem known_of_combiner? {f : FunctionSymbol} (spelled : EverySide (Term.Over known) equations)
    (found : combiner? equations = .ok (some f)) : known f := by
  obtain ⟨e, member, applied⟩ := mem_of_combiner? found
  rcases List.mem_append.mp applied with left | right
  · exact (spelled e member).1 f (mem_combiners.mp left).1
  · exact (spelled e member).2 f (mem_combiners.mp right).1

private theorem mem_rootedUnder {f : FunctionSymbol} {base : Substitution} {e : Equation} (member : e ∈ equations)
    (rooted : isRooted f e = true) :
    (base.applyEquation e).isTrivial = true ∨ base.applyEquation e ∈ rootedUnder f base equations := by
  cases trivial : (base.applyEquation e).isTrivial with
  | true => exact .inl rfl
  | false =>
    refine .inr (List.mem_filter.mpr ⟨List.mem_map_of_mem (List.mem_filter.mpr ⟨member, rooted⟩), ?_⟩)
    rw [trivial]
    rfl

theorem everySide_rootedUnder {f : FunctionSymbol} {base : Substitution} {P : Term → Prop}
    (substitutive : Term.Substitutive P)
    (range : ∀ t ∈ base.range, P t) (sides : EverySide P equations) : EverySide P (rootedUnder f base equations) :=
  everySide_filter (everySide_applyEquation substitutive range (everySide_filter sides _)) _

/-- A property that substitutions keep, and that fresh variables and combinations have, passes from the equations to
every term that is bound. -/
theorem Found.range {P : Term → Prop} {limits : Limits} {n : Nat} {unifiers : List Substitution}
    (found : Found limits n equations unifiers) (substitutive : Term.Substitutive P) (sides : EverySide P equations)
    (app : ∀ f, combiner? equations = .ok (some f) → ∀ args : List Term, 2 ≤ args.length → (∀ t ∈ args, P t) →
      P (.app f args))
    (fresh : ∀ f, combiner? equations = .ok (some f) → ∀ v : Variable, v.sort = f.domain → P (.var v)) :
    ∀ σ ∈ unifiers, ∀ t ∈ σ.range, P t := by
  have range {f : FunctionSymbol} {base : Substitution} (based : Based equations f base) : ∀ t ∈ base.range, P t :=
    range_of_substitutive substitutive (everySide_filter sides _) based.solved
  cases found with
  | plain _ solved => exact List.forall_mem_singleton.mpr (range_of_substitutive substitutive sides solved)
  | based based _ => exact List.forall_mem_singleton.mpr (range based)
  | @combined f base shares prepared =>
    obtain ⟨vectors, _, drawn⟩ := prepared.drawn
    have combiner := prepared.based.combiner
    have rooted : EverySide P (rootedUnder f base equations) :=
      everySide_rootedUnder substitutive (range prepared.based) sides
    have shares := drawn.terms (everySide_activeAtoms substitutive rooted) (fresh f combiner)
    exact range_combinations substitutive (app f combiner) (range prepared.based) shares

theorem Found.isCanonical {limits : Limits} {n : Nat} {unifiers : List Substitution}
    (found : Found limits n equations unifiers)
    (sides : EverySide (fun t => t.isCanonical = true) equations) :
    ∀ σ ∈ unifiers, ∀ t ∈ σ.range, t.isCanonical = true :=
  found.range Term.hereditary_isCanonical.substitutive sides (fun f _ _ _ each => Term.isCanonical_app f each)
    fun _ _ _ _ => rfl

private theorem implied_rootedUnder {f : FunctionSymbol} {base : Substitution} (consistent : Consistent known)
    (formed : EverySide (Term.WellFormed known) equations) (solved : unifyAll (unrooted f equations) = .ok base) :
    ∀ e ∈ equations, (base.applyEquation e).isTrivial = true ∨
    base.applyEquation e ∈ rootedUnder f base equations := by
  intro e member
  cases rooted : isRooted f e with
  | true => exact mem_rootedUnder member rooted
  | false =>
    left
    have holds := (solution_unifyAll consistent (everySide_filter formed _) solved).holds e
      (List.mem_filter.mpr ⟨member, by simp [rooted]⟩)
    exact (Substitution.holds_of_apply_eq (formed e member).1.canonical (formed e member).2.canonical).mpr holds

theorem Found.sound {limits : Limits} {n : Nat} {unifiers : List Substitution}
    (found : Found limits n equations unifiers)
    (consistent : Consistent known) (formed : EverySide (Term.WellFormed known) equations) :
    Sound known equations unifiers := by
  cases found with
  | plain free solved => exact List.forall_mem_singleton.mpr (solution_unifyAll consistent formed solved)
  | @based f base based none =>
    have solution := solution_unifyAll consistent (everySide_filter formed _) based.solved
    refine List.forall_mem_singleton.mpr ⟨?_, solution.formed⟩
    intro e member
    have trivial := (implied_rootedUnder consistent formed based.solved e member).resolve_right (by simp [none])
    exact (Substitution.holds_of_apply_eq (formed e member).1.canonical (formed e member).2.canonical).mp trivial
  | @combined f base shares prepared =>
    obtain ⟨vectors, _, drawn⟩ := prepared.drawn
    have solution := solution_unifyAll consistent (everySide_filter formed _) prepared.based.solved
    have root := known_of_combiner? (formed.imp fun formed => formed.spelled) prepared.based.combiner
    have rooted : EverySide (Term.WellFormed known) (rootedUnder f base equations) :=
      everySide_rootedUnder (Term.hereditary_wellFormed known).substitutive solution.formed formed
    exact sound_combinations root solution.formed rooted
      (drawn.terms (everySide_activeAtoms (Term.hereditary_wellFormed known).substitutive rooted)
        fun v _ => (Term.hereditary_wellFormed known).var v)
      (implied_rootedUnder consistent formed prepared.based.solved)

/-- Every unifier found makes the sides of every equation equal. -/
theorem ends_solve_sound {session : Session} (limits : Limits) (consistent : Consistent known)
    (formed : EverySide (Term.WellFormed known) equations) :
    (solve limits equations).Ends session (fun unifiers _ => Sound known equations unifiers) (fun _ => True) := by
  refine (ends_solve limits equations).mono ?_ fun _ _ => trivial
  intro unifiers _ _ found σ member
  exact (found.sound consistent (everySide_filter formed _) σ member).of_filter

end Solve

end Equational.AC

namespace Equational.Problem

open AC

/-- Whatever the laws of the other symbols, every unifier found makes the sides of every equation
equal, also of those that were trivial, solved before or made trivial by what was solved before. -/
theorem unifyAC_sound {limits : Limits} {problem : Problem} {interner : Interner} {unifiers : List Substitution}
    (consistent : Consistent (· ∈ problem.equations.flatMap Equation.symbols))
    (canonical : EverySide (fun t => t.isCanonical = true) problem.equations)
    (solved : (problem.unifyAC limits interner).1 = .ok unifiers) : ∀ σ ∈ unifiers, σ.Unifies problem.equations := by
  have spelled : EverySide (Term.Over (· ∈ problem.equations.flatMap Equation.symbols)) problem.equations :=
    everySide_over_symbols fun _ occurs => occurs
  have formed : EverySide (Term.WellFormed (· ∈ problem.equations.flatMap Equation.symbols)) problem.equations :=
    fun e member => ⟨⟨(canonical e member).1, (spelled e member).1⟩, ⟨(canonical e member).2, (spelled e member).2⟩⟩
  obtain ⟨_, sound⟩ := (ends_solve_sound limits consistent formed).of_run solved
  intro σ member
  exact (Substitution.unifies_iff canonical).mpr (sound σ member).holds

/-- A trivial equation, one without the combiner, one that this makes trivial, and one that is left
for the combiner; the second makes a pair under an idempotent symbol collapse. -/
def collapsing (f i h : FunctionSymbol) (x y z w : Variable) (a b : Constant) : Problem :=
  ⟨[⟨.node f [.var y, .const a], .node f [.const a, .var y]⟩,
    ⟨.node h [.var x, .node i [.const a, .var x]], .node h [.const a, .var w]⟩,
    ⟨.node f [.var x, .const b], .node f [.const b, .var w]⟩,
    ⟨.node f [.var y, .var x], .node f [.var z, .node i [.const b, .const a]]⟩]⟩

theorem unifyAC_sound_collapsing :
    let f : FunctionSymbol := ⟨⟨0⟩, 2, .associativeCommutative, .default, .default⟩
    let i : FunctionSymbol := ⟨⟨1⟩, 2, .idempotent, .default, .default⟩
    let h : FunctionSymbol := ⟨⟨2⟩, 2, .free, .default, .default⟩
    let x : Variable := ⟨⟨0⟩, .default⟩
    let y : Variable := ⟨⟨1⟩, .default⟩
    let z : Variable := ⟨⟨2⟩, .default⟩
    let w : Variable := ⟨⟨3⟩, .default⟩
    let a : Constant := ⟨⟨0⟩, .default⟩
    let b : Constant := ⟨⟨1⟩, .default⟩
    let interner : Interner := { Interner.empty with variableTable := ⟨["x", "y", "z", "w"]⟩ }
    ∃ unifiers, ((collapsing f i h x y z w a b).unifyAC {} interner).1 = .ok unifiers ∧ unifiers.length = 2 ∧
      ∀ σ ∈ unifiers, σ.Unifies (collapsing f i h x y z w a b).equations := by
  intro f i h x y z w a b interner
  have consistent : Consistent (· ∈ (collapsing f i h x y z w a b).equations.flatMap Equation.symbols) := by decide
  have canonical : EverySide (fun t => t.isCanonical = true) (collapsing f i h x y z w a b).equations := by decide
  have number : ((collapsing f i h x y z w a b).unifyAC {} interner).1.map List.length = .ok 2 := by cbv
  cases solved : ((collapsing f i h x y z w a b).unifyAC {} interner).1 with
  | ok unifiers =>
    rw [solved, Except.map, Except.ok.injEq] at number
    exact ⟨unifiers, rfl, number, unifyAC_sound consistent canonical solved⟩
  | error failure =>
    rw [solved] at number
    cases number

end Equational.Problem
