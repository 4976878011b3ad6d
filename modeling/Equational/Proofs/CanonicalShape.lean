import Equational.Proofs.Dag.Terms
import Equational.Proofs.Rewriting
import Equational.Proofs.Unification.Answers

/-! Canonical shape. Building an application splices one level and compares one pair, which is enough
when the arguments are canonical, and every operation builds the applications above what it changes. So
from canonical terms nothing but canonical terms is made, whatever the laws of the symbols. -/

namespace Equational

def Substitution.IsCanonical (σ : Substitution) : Prop :=
  ∀ t ∈ σ.range, t.isCanonical = true

instance {σ : Substitution} : Decidable σ.IsCanonical :=
  inferInstanceAs (Decidable (∀ t ∈ σ.range, t.isCanonical = true))

variable {limits : Limits} {problem : Problem} {interner : Interner} {unifiers : List Substitution} {σ : Substitution}

private theorem isCanonical_of_unifyAll {equations : List Equation}
    (sides : EverySide (fun t => t.isCanonical = true) equations)
    (solved : unifyAll equations = .ok σ) : σ.IsCanonical :=
  range_of_unifyAll Term.hereditary_isCanonical sides solved

private theorem AC.ends_solve_isCanonical {equations : List Equation} {session : Session}
    (sides : EverySide (fun t => t.isCanonical = true) equations) :
    (AC.solve limits equations).Ends session (fun unifiers _ => ∀ σ ∈ unifiers, σ.IsCanonical) (fun _ => True) := by
  refine (AC.ends_solve limits equations).mono (fun unifiers _ _ found => ?_) fun _ _ => trivial
  exact found.isCanonical (everySide_filter sides _)

namespace ExpAC

open Search State

variable {setting : Setting} {state : State} {session : Session} {start : Nat}

private theorem kept_isCanonical (start : Nat) : Kept start fun _ t => t.isCanonical = true where
  later _ canonical := canonical
  fresh _ _ := rfl
  argument := Term.stable_isCanonical.argument
  rebuild := Term.stable_isCanonical.rebuild
  pair h _ _ left right :=
    Term.isCanonical_app h (List.forall_mem_cons.mpr ⟨left, List.forall_mem_singleton.mpr right⟩)

private theorem isCanonical_of_closeWith {closing : List Equation} {θ : Substitution}
    (sides : EverySide (fun t => t.isCanonical = true) closing)
    (canonical : θ.IsCanonical) (closed : closeWith setting closing θ = .ok σ) : σ.IsCanonical := by
  have substitutive := Term.hereditary_isCanonical.substitutive
  obtain ⟨σ', unified, result⟩ := exists_of_bind_eq_ok closed
  cases result
  have canonical' : σ'.IsCanonical :=
    isCanonical_of_unifyAll (everySide_applyEquation substitutive canonical sides) unified
  intro t member
  obtain ⟨v, bound⟩ := Substitution.exists_of_mem_range member
  exact Substitution.range_compose substitutive canonical canonical' t
    (Substitution.mem_range_of_mem (Substitution.mem_bindings_restrict bound).1)

private theorem ends_close_isCanonical (all : state.All start (fun _ t => t.isCanonical = true) session.names) :
    (close setting state).Ends session (fun unifiers _ => unifiers ≠ [] ∧ ∀ σ ∈ unifiers, σ.IsCanonical)
      (fun _ => True) :=
  ends_closeAll (P := fun _ => Substitution.IsCanonical) trivial
    (AC.ends_solve_isCanonical (everySide_residual all.sides setting.signature))
    fun _ _ _ found θ member => Except.gives_of (fun _ closed =>
      isCanonical_of_closeWith (everySide_closing all.sides setting.signature all.solved) (found θ member) closed)
        fun _ _ => trivial

private theorem ends_solve_isCanonical (sides : EverySide (fun t => t.isCanonical = true) problem.equations) :
    (solve setting problem).Ends { interner, fresh := { stem := setting.limits.freshStem } }
      (fun unifiers _ => unifiers ≠ [] ∧ ∀ σ ∈ unifiers, σ.IsCanonical) (fun _ => True) :=
  ends_solve_forall (P := fun _ => Substitution.IsCanonical) (failing_true ..) (fun _ canonical => canonical)
    fun handed => ends_close_isCanonical (handed.reached.all (kept_isCanonical _) sides)

end ExpAC

/-- Whatever the theory and the limits, an answer to a problem between canonical terms binds canonical terms. -/
theorem Problem.isCanonical_of_unifyModulo {theory : Theory}
    (sides : EverySide (fun t => t.isCanonical = true) problem.equations)
    (solved : (problem.unifyModulo limits theory interner).1 = .ok unifiers) : ∀ σ ∈ unifiers, σ.IsCanonical := by
  cases theory with
  | syntactic =>
    obtain ⟨σ, unified, rfl⟩ := exists_of_map_eq_ok solved
    exact List.forall_mem_singleton.mpr (isCanonical_of_unifyAll sides unified)
  | constrained constraints =>
    obtain ⟨σ, within, rfl⟩ := exists_of_map_eq_ok solved
    obtain ⟨σ', unified, rest⟩ := exists_of_bind_eq_ok within
    obtain ⟨_, _, same⟩ := exists_of_bind_eq_ok rest
    cases same
    exact List.forall_mem_singleton.mpr (isCanonical_of_unifyAll sides unified)
  | associativeCommutative =>
    obtain ⟨_, canonical⟩ := (AC.ends_solve_isCanonical sides).of_run solved
    exact canonical
  | expAC signature =>
    obtain ⟨_, _, canonical⟩ := (ExpAC.ends_solve_isCanonical sides).of_run solved
    exact canonical

/-- No operation leaves canonical shape: building, applying, replacing, composing, matching, rewriting,
normalising, reading a node of a graph and solving a problem modulo any theory make canonical terms of
canonical terms. -/
theorem Term.isCanonical_preserved :
    (∀ (f : FunctionSymbol) (args : List Term), (∀ arg ∈ args, arg.isCanonical = true) →
      (app f args).isCanonical = true) ∧
    (∀ (σ : Substitution) (t : Term), σ.IsCanonical → t.isCanonical = true → (σ.apply t).isCanonical = true) ∧
    (∀ (replacement : Term) (path : List Nat) (t u : Term), replacement.isCanonical = true → t.isCanonical = true →
      replaceAt replacement path t = some u → u.isCanonical = true) ∧
    (∀ σ τ : Substitution, σ.IsCanonical → τ.IsCanonical → (σ.compose τ).IsCanonical) ∧
    (∀ (pattern t : Term) (σ : Substitution), t.isCanonical = true → pattern.match? t = some σ → σ.IsCanonical) ∧
    (∀ (rule : RewriteRule) (t u : Term), rule.rhs.isCanonical = true → t.isCanonical = true →
      rule.rewrite? t = some u → u.isCanonical = true) ∧
    (∀ (system : RewriteSystem) (bound : Option Nat) (t u : Term),
      (∀ rule ∈ system.rules, rule.rhs.isCanonical = true) →
      t.isCanonical = true → system.normalize bound t = some (.ok u) → u.isCanonical = true) ∧
    (∀ (dag : Dag) (i : Nat) (t : Term), dag.toTerm? i = some t → t.isCanonical = true) ∧
    ∀ (limits : Limits) (theory : Theory) (problem : Problem) (interner : Interner) (unifiers : List Substitution),
      EverySide (fun t => t.isCanonical = true) problem.equations →
        (problem.unifyModulo limits theory interner).1 = .ok unifiers →
      ∀ σ ∈ unifiers, σ.IsCanonical := by
  have substitutive := hereditary_isCanonical.substitutive
  refine ⟨fun f _ => isCanonical_app f, ?applying, ?replacing, ?composing, ?matching, ?rewriting, ?normalising,
    ?reading, ?solving⟩
  case applying => exact fun σ t range canonical => substitutive.apply range canonical
  case replacing => exact fun _ _ _ _ new canonical replaced => stable_isCanonical.replaceAt new replaced canonical
  case composing => exact fun _ _ first second => Substitution.range_compose substitutive first second
  case matching => exact fun _ _ _ canonical matched => range_of_match? substitutive.argument matched canonical
  case rewriting =>
    exact fun rule _ _ right canonical rewritten =>
      (rule.keeps_of_rhs substitutive right).rewrite? stable_isCanonical rewritten canonical
  case normalising =>
    intro system bound t u rules canonical normal
    exact system.normalize_keeps stable_isCanonical
      (fun rule member => rule.keeps_of_rhs substitutive (rules rule member)) normal canonical
  case reading =>
    exact fun _ _ _ found => Dag.of_toTerm? (fun _ => rfl) (fun _ => rfl) (fun f _ => isCanonical_app f) found
  case solving => exact fun _ _ _ _ _ sides solved => Problem.isCanonical_of_unifyModulo sides solved

/-- Each operation puts a sum directly below a sum of the same symbol, or makes a pair collapse. -/
theorem Term.isCanonical_preserved_sums :
    let x : Variable := ⟨⟨0⟩, .default⟩
    let y : Variable := ⟨⟨1⟩, .default⟩
    let a : Term := .const ⟨⟨0⟩, .default⟩
    let b : Term := .const ⟨⟨1⟩, .default⟩
    let c : Term := .const ⟨⟨2⟩, .default⟩
    let f : FunctionSymbol := ⟨⟨0⟩, 2, .associativeCommutative, .default, .default⟩
    let i : FunctionSymbol := ⟨⟨1⟩, 2, .idempotent, .default, .default⟩
    let h : FunctionSymbol := ⟨⟨2⟩, 1, .free, .default, .default⟩
    let sum : Term := .node f [a, b]
    let above : Term := .node f [.node i [.var x, .var y], c]
    let rule : RewriteRule := ⟨.node h [.var x], .var x⟩
    let σ : Substitution := ⟨[(x, sum), (y, sum)], by decide⟩
    let interner : Interner := { Interner.empty with variableTable := ⟨["x", "y"]⟩ }
    (app f [sum, c]).isCanonical = true ∧ (σ.apply above == .node f [a, b, c]) = true ∧
      (σ.apply above).isCanonical = true ∧
      (∃ u, replaceAt sum [0] above = some u ∧ u.isCanonical = true) ∧
      ((Substitution.single x (.node f [.var y, c])).compose (.single y sum)).IsCanonical ∧
      (∃ ρ, (node h [.var x]).match? (.node h [sum]) = some ρ ∧ ρ.range ≠ [] ∧ ρ.IsCanonical) ∧
      (∃ u, rule.rewrite? (.node f [.node h [sum], c]) = some u ∧ u.isCanonical = true) ∧
      (∃ u, (RewriteSystem.ofList [rule]).normalize (some 2) (.node f [.node h [.node h [sum]], c]) = some (.ok u) ∧
        u.isCanonical = true) ∧
      (∃ u, (Dag.ofTerm (.node f [sum, c])).toTerm? (Dag.ofTerm (.node f [sum, c])).root = some u ∧
        u.isCanonical = true) ∧
      ∃ unifiers,
        ((⟨[⟨.node f [.var x, c], .node f [c, b, a]⟩]⟩ : Problem).unifyModulo {} .associativeCommutative interner).1 =
          .ok unifiers ∧
        unifiers.length = 1 ∧ ∀ ρ ∈ unifiers, ρ.IsCanonical := by
  intro x y a b c f i h sum above rule σ interner
  obtain ⟨building, applying, replacing, composing, matching, rewriting, normalising, reading, solving⟩ :=
    isCanonical_preserved
  have replaced : replaceAt sum [0] above = some (.node f [a, b, c]) := rfl
  have matched : (node h [.var x]).match? (.node h [sum]) = some (.single x sum) := rfl
  have rewritten : rule.rewrite? (.node f [.node h [sum], c]) = some (.node f [a, b, c]) := rfl
  have normal : (RewriteSystem.ofList [rule]).normalize (some 2) (.node f [.node h [.node h [sum]], c]) =
      some (.ok (.node f [a, b, c])) := rfl
  have read : (Dag.ofTerm (.node f [sum, c])).toTerm? (Dag.ofTerm (.node f [sum, c])).root =
      some (.node f [a, b, c]) := rfl
  have number : ((⟨[⟨.node f [.var x, c], .node f [c, b, a]⟩]⟩ : Problem).unifyModulo {} .associativeCommutative
      interner).1.map List.length = .ok 1 := by cbv
  refine ⟨building f [sum, c] (by decide), by decide, applying σ above (by decide) (by decide),
    ⟨_, replaced, replacing _ _ _ _ (by decide) (by decide) replaced⟩, composing _ _ (by decide) (by decide),
    ⟨_, matched, by simp [Substitution.single, Substitution.range], matching _ _ _ (by decide) matched⟩,
    ⟨_, rewritten, rewriting _ _ _ (by decide) (by decide) rewritten⟩,
      ⟨_, normal, normalising _ _ _ _ (by decide) (by decide) normal⟩,
    ⟨_, read, reading _ _ _ read⟩, ?_⟩
  cases solved :
    ((⟨[⟨.node f [.var x, c], .node f [c, b, a]⟩]⟩ : Problem).unifyModulo {} .associativeCommutative interner).1 with
  | ok unifiers =>
    rw [solved, Except.map, Except.ok.injEq] at number
    exact ⟨unifiers, rfl, number, solving _ _ _ _ _ (by decide) solved⟩
  | error failure =>
    rw [solved] at number
    cases number

end Equational
