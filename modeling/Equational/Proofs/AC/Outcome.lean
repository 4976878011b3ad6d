import Equational.AC.Unification
import Equational.Proofs.Search

/-! The ways in which unification modulo one associative-commutative symbol can end. They state
what the search computes without its session, of which only the number of the first fresh
variable remains. -/

namespace Equational.AC

open Search

variable {f : FunctionSymbol} {atoms : List Term} {base : Substitution} {equations : List Equation}
  {session : Session}

/-- Shares drawn for the vectors, the fresh variables numbered from the given number on. -/
inductive Drawn (f : FunctionSymbol) (atoms : List Term) : Nat → List (List Nat) → List Share → Prop where
  | nil {n : Nat} : Drawn f atoms n [] []
  | constant {n : Nat} {vector : List Nat} {vectors : List (List Nat)} {shares : List Share} {constant : Term}
      {count : Nat}
      {others : List (Term × Nat)} (found : constantShares atoms vector = (constant, count) :: others)
      (rest : Drawn f atoms n vectors shares) : Drawn f atoms n (vector :: vectors) (⟨vector, constant⟩ :: shares)
  | fresh {n : Nat} {vector : List Nat} {vectors : List (List Nat)} {shares : List Share}
      (found : constantShares atoms vector = []) (rest : Drawn f atoms (n + 1) vectors shares) :
      Drawn f atoms n (vector :: vectors) (⟨vector, .var ⟨⟨n⟩, f.domain⟩⟩ :: shares)

theorem isVariable_of_constantShares {vector : List Nat} {constant : Term} {count : Nat} {others : List (Term × Nat)}
    (found : constantShares atoms vector = (constant, count) :: others) : constant.isVariable = false := by
  have member : (constant, count) ∈ constantShares atoms vector := by simp [found]
  have passes := (List.mem_filter.mp member).2
  simp only [Bool.and_eq_true, Bool.not_eq_true'] at passes
  exact passes.1

private theorem ends_shares {fails : Failure → Prop} (vectors : List (List Nat)) :
    (vectors.mapM (share f atoms)).Ends session (fun shares after => Drawn f atoms session.names vectors shares ∧
      ∀ x ∈ shares, ∀ v, x.term = .var v → v.id.index < after.names) fails := by
  induction vectors generalizing session with
  | nil => exact ends_pure ⟨.nil, List.forall_mem_nil _⟩
  | cons vector vectors ih =>
    rw [List.mapM_cons]
    simp only [share]
    split
    next constant count others found =>
      refine (ends_pure (P := fun x after => x = ⟨vector, constant⟩ ∧ after = session) ⟨rfl, rfl⟩).bind ?_
      rintro x middle _ ⟨rfl, rfl⟩
      refine ih.bind fun shares after _ drawn => ends_pure ⟨.constant found drawn.1, ?_⟩
      refine List.forall_mem_cons.mpr ⟨fun v same => ?_, drawn.2⟩
      have proper := isVariable_of_constantShares found
      rw [show constant = .var v from same] at proper
      cases proper
    next found =>
      rw [bind_assoc]
      refine (ends_freshNamed f.domain).bind ?_
      rintro v middle _ ⟨rfl, names⟩
      rw [pure_bind]
      refine ih.bind fun shares after grown drawn => ends_pure ⟨.fresh found (names ▸ drawn.1), ?_⟩
      refine List.forall_mem_cons.mpr ⟨fun v same => ?_, drawn.2⟩
      cases same
      change session.names < after.names
      omega

def combination (f : FunctionSymbol) (base : Substitution) (equations : List Equation) (chosen : List Share) :
    Option Substitution := do
  if chosen.isEmpty then none
  let θ ← assemble f chosen 0 (activeAtoms f equations) .empty
  if equations.all (holdsUnder θ) then some (base.compose θ) else none

def combinations (f : FunctionSymbol) (base : Substitution) (equations : List Equation) (shares : List Share) :
    List Substitution :=
  (choices (isPromising (activeAtoms f equations)) shares.reverse []).filterMap (combination f base equations)

theorem combination_eq_some {chosen : List Share} {σ : Substitution} : combination f base equations chosen = some σ ↔
    chosen ≠ [] ∧ ∃ θ, assemble f chosen 0 (activeAtoms f equations) .empty = some θ ∧
      (∀ e ∈ equations, holdsUnder θ e = true) ∧ σ = base.compose θ := by
  cases chosen with
  | nil => simp [combination]
  | cons x chosen =>
    simp only [combination, List.isEmpty_cons, Bool.false_eq_true, ↓reduceIte, ne_eq, reduceCtorEq,
      not_false_eq_true, true_and]
    change (assemble f (x :: chosen) 0 (activeAtoms f equations) .empty).bind _ = some σ ↔ _
    rw [Option.bind_eq_some_iff]
    refine exists_congr fun θ => and_congr_right ?_
    intro _
    rw [← List.all_eq_true]
    split
    next all =>
      rw [Option.some.injEq, eq_comm]
      exact ⟨fun same => ⟨all, same⟩, And.right⟩
    next other => exact ⟨nofun, fun facts => absurd facts.1 other⟩

theorem mem_combinations {shares : List Share} {σ : Substitution} : σ ∈ combinations f base equations shares ↔
    ∃ chosen ∈ choices (isPromising (activeAtoms f equations)) shares.reverse [], chosen ≠ [] ∧
      ∃ θ, assemble f chosen 0 (activeAtoms f equations) .empty = some θ ∧ (∀ e ∈ equations, holdsUnder θ e = true) ∧
        σ = base.compose θ := by
  simp only [combinations, List.mem_filterMap, combination_eq_some]

def check (f : FunctionSymbol) (equations : List Equation) : Except Failure Unit := do
  equations.forM (checkSides f)
  (equations.flatMap (membersOf f)).forM (checkAtom f)

private theorem ends_combine {post : List Substitution → Session → Prop} {fails : Failure → Prop} (limits : Limits)
    (unchecked : ∀ failure, check f equations = .error failure → fails failure)
    (unsolved : ∀ failure, solutionVectors limits f equations (activeAtoms f equations) = .error failure →
      fails failure)
    (none : ∀ vectors shares, check f equations = .ok () →
      solutionVectors limits f equations (activeAtoms f equations) = .ok vectors →
      Drawn f (activeAtoms f equations) session.names vectors shares → combinations f base equations shares = [] →
      fails (.unsatisfiable .noCombination))
    (some : ∀ vectors shares after, check f equations = .ok () →
      solutionVectors limits f equations (activeAtoms f equations) = .ok vectors →
      Drawn f (activeAtoms f equations) session.names vectors shares →
      (∀ x ∈ shares, ∀ v, x.term = .var v → v.id.index < after.names) → combinations f base equations shares ≠ [] →
      post (combinations f base equations shares) after) :
    (combine limits f base equations).Ends session post fails := by
  simp only [combine]
  change Ends (Search.ofExcept (check f equations) >>= fun _ => _) session _ _
  refine ends_ofExcept_bind ?_ unchecked
  intro _ checked
  refine ends_ofExcept_bind ?_ unsolved
  intro vectors solved
  refine (ends_shares vectors).bind ?_
  intro shares after _ ⟨drawn, below⟩
  change Ends (if (combinations f base equations shares).isEmpty then
    throw (.unsatisfiable .noCombination) >>= fun _ => pure (combinations f base equations shares)
    else pure (combinations f base equations shares)) after _ _
  split
  next empty =>
    exact ends_throw_bind (none vectors shares checked solved drawn (List.isEmpty_iff.mp empty))
  next some' =>
    exact ends_pure (some vectors shares after checked solved drawn below fun empty =>
      some' (List.isEmpty_iff.mpr empty))

def unrooted (f : FunctionSymbol) (equations : List Equation) : List Equation :=
  equations.filter fun e => !isRooted f e

def rootedUnder (f : FunctionSymbol) (base : Substitution) (equations : List Equation) : List Equation :=
  ((equations.filter (isRooted f)).map base.applyEquation).filter (!·.isTrivial)

/-- The symbol is the combiner of the equations and is applied only where it is the root of a
side, and the base is what the other equations give. -/
structure Based (equations : List Equation) (f : FunctionSymbol) (base : Substitution) : Prop where
  combiner : combiner? equations = .ok (some f)
  apart : (unrooted f equations).any (occursIn f) = false
  solved : unifyAll (unrooted f equations) = .ok base

/-- There are instances of rooted equations, they have passed their checks, and shares have been
drawn for their solution vectors. -/
structure Prepared (limits : Limits) (n : Nat) (equations : List Equation) (f : FunctionSymbol) (base : Substitution)
    (shares : List Share) : Prop where
  based : Based equations f base
  some : rootedUnder f base equations ≠ []
  checked : check f (rootedUnder f base equations) = .ok ()
  drawn : ∃ vectors,
    solutionVectors limits f (rootedUnder f base equations) (activeAtoms f (rootedUnder f base equations)) =
        .ok vectors ∧
      Drawn f (activeAtoms f (rootedUnder f base equations)) n vectors shares

/-- The unifiers of equations none of which is trivial. -/
inductive Found (limits : Limits) (n : Nat) (equations : List Equation) : List Substitution → Prop where
  | plain {σ : Substitution} (free : combiner? equations = .ok none) (solved : unifyAll equations = .ok σ) :
      Found limits n equations [σ]
  | based {f : FunctionSymbol} {base : Substitution} (based : Based equations f base)
      (none : rootedUnder f base equations = []) : Found limits n equations [base]
  | combined {f : FunctionSymbol} {base : Substitution} {shares : List Share}
      (prepared : Prepared limits n equations f base shares) :
      Found limits n equations (combinations f base (rootedUnder f base equations) shares)

/-- The failures on equations none of which is trivial. -/
inductive Failed (limits : Limits) (n : Nat) (equations : List Equation) : Failure → Prop where
  | combiner {failure : Failure} (failed : combiner? equations = .error failure) : Failed limits n equations failure
  | plain {failure : Failure} (free : combiner? equations = .ok none) (failed : unifyAll equations = .error failure) :
      Failed limits n equations failure
  | below {f : FunctionSymbol} (combiner : combiner? equations = .ok (some f))
      (inside : (unrooted f equations).any (occursIn f) = true) :
      Failed limits n equations (.unsupported .combinerBelowOther)
  | unrooted {f : FunctionSymbol} {failure : Failure} (combiner : combiner? equations = .ok (some f))
      (apart : (unrooted f equations).any (occursIn f) = false)
      (failed : unifyAll (unrooted f equations) = .error failure) : Failed limits n equations failure
  | rooted {f : FunctionSymbol} {base : Substitution} {failure : Failure} (based : Based equations f base)
      (failed : check f (rootedUnder f base equations) = .error failure) : Failed limits n equations failure
  | basis {f : FunctionSymbol} {base : Substitution} {failure : Failure} (based : Based equations f base)
      (failed : solutionVectors limits f (rootedUnder f base equations)
      (activeAtoms f (rootedUnder f base equations)) =
        .error failure) : Failed limits n equations failure
  | combination {f : FunctionSymbol} {base : Substitution} {shares : List Share}
      (prepared : Prepared limits n equations f base shares)
      (none : combinations f base (rootedUnder f base equations) shares = []) :
      Failed limits n equations (.unsatisfiable .noCombination)

/-- The search ends in one of three ways, or fails. -/
theorem ends_outcome {post : List Substitution → Session → Prop} {fails : Failure → Prop} (limits : Limits)
    (plain : ∀ σ, combiner? (equations.filter (!·.isTrivial)) = .ok none →
      unifyAll (equations.filter (!·.isTrivial)) = .ok σ → post [σ] session)
    (based : ∀ f base, Based (equations.filter (!·.isTrivial)) f base →
      rootedUnder f base (equations.filter (!·.isTrivial)) = [] → post [base] session)
    (combined : ∀ f base shares after, Prepared limits session.names (equations.filter (!·.isTrivial)) f base shares →
      (∀ x ∈ shares, ∀ v, x.term = .var v → v.id.index < after.names) →
      combinations f base (rootedUnder f base (equations.filter (!·.isTrivial))) shares ≠ [] →
      post (combinations f base (rootedUnder f base (equations.filter (!·.isTrivial))) shares) after)
    (failed : ∀ failure, Failed limits session.names (equations.filter (!·.isTrivial)) failure → fails failure) :
    (solve limits equations).Ends session post fails := by
  simp only [solve]
  revert plain based combined failed
  generalize equations.filter (!·.isTrivial) = equations
  intro plain based combined failed
  refine ends_ofExcept_bind ?_ fun _ unclear => failed _ (.combiner unclear)
  intro combiner found
  cases combiner with
  | none =>
    exact ends_ofExcept_bind (fun σ solved => ends_pure (plain σ found solved)) fun _ unsolved =>
      failed _ (.plain found unsolved)
  | some f =>
    have later (apart : (unrooted f equations).any (occursIn f) = false) : Ends (do
        let base ← Search.ofExcept (unifyAll (unrooted f equations))
        if (rootedUnder f base equations).isEmpty then return [base]
        combine limits f base (rootedUnder f base equations)) session post fails := by
      refine ends_ofExcept_bind ?_ fun _ unsolved => failed _ (.unrooted found apart unsolved)
      intro base solved
      have based' : Based equations f base := ⟨found, apart, solved⟩
      split
      next none => exact ends_pure (based f base based' (List.isEmpty_iff.mp none))
      next some =>
        have rooted : rootedUnder f base equations ≠ [] := fun none => some (by rw [none]; rfl)
        exact ends_combine limits (fun _ unchecked => failed _ (.rooted based' unchecked))
          (fun _ unsolved => failed _ (.basis based' unsolved))
          (fun vectors _ checked basis drawn none => failed _
            (.combination ⟨based', rooted, checked, vectors, basis, drawn⟩ none))
          fun vectors _ _ checked basis drawn => combined _ _ _ _ ⟨based', rooted, checked, vectors, basis, drawn⟩
    simp only [List.partition_eq_filter_filter]
    split
    next inside => exact ends_throw_bind (failed _ (.below found inside))
    next apart => exact later (Bool.not_eq_true _ ▸ apart)

theorem ends_solve (limits : Limits) (equations : List Equation) : (solve limits equations).Ends session
    (fun unifiers _ => Found limits session.names (equations.filter (!·.isTrivial)) unifiers)
    (Failed limits session.names (equations.filter (!·.isTrivial))) :=
  ends_outcome limits (fun _ free solved => .plain free solved) (fun _ _ based none => .based based none)
    (fun _ _ _ _ prepared _ _ => .combined prepared) fun _ failed => failed

end Equational.AC
