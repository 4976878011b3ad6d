import Equational.Proofs.Rewriting
import Equational.Proofs.Rewriting.NormalForm
import Equational.Proofs.Term.Replacement

/-! Rewriting preserves meaning. A match is the subterm up to equality, and rebuilding the applications
above a replacement stays within every congruence, so a run relates its two ends in each congruence that
relates the two sides of all instances of the rules. -/

namespace Equational

def RewriteRule.IsCanonical (rule : RewriteRule) : Prop :=
  rule.lhs.isCanonical = true ∧ rule.rhs.isCanonical = true

instance RewriteRule.decidableIsCanonical {rule : RewriteRule} : Decidable rule.IsCanonical :=
  inferInstanceAs (Decidable (_ ∧ _))

namespace RewriteSystem

variable {system : RewriteSystem} {t u n : Term}

/-- The least congruence that contains equality and, for all substitutions that keep the sorts, the
instances of the rules. -/
inductive Equates (system : RewriteSystem) : Term → Term → Prop where
  | equal {s t : Term} (same : (s == t) = true) : Equates system s t
  | rule {rule : RewriteRule} (member : rule ∈ system.rules) {σ : Substitution} (sorted : σ.SortPreserving) :
      Equates system (σ.apply rule.lhs) (σ.apply rule.rhs)
  | symm {s t : Term} (other : Equates system s t) : Equates system t s
  | trans {s t u : Term} (first : Equates system s t) (second : Equates system t u) : Equates system s u
  | app (h : FunctionSymbol) {xs ys : List Term} (arguments : List.Forall₂ (Equates system) xs ys) :
      Equates system (.app h xs) (.app h ys)

private theorem Equates.congruence (system : RewriteSystem) : Term.Congruence system.Equates where
  of_shape same := .equal (Term.beq_iff_shape.mpr same)
  symm := .symm
  trans := .trans
  app h _ _ := .app h

private theorem equates_of_match? {rule : RewriteRule} {s : Term} {σ : Substitution} (member : rule ∈ system.rules)
    (left : rule.lhs.isCanonical = true) (canonical : s.isCanonical = true) (matched : rule.lhs.match? s = some σ) :
    system.Equates s (σ.apply rule.rhs) := by
  have same := Term.shape_apply_of_match? matched left canonical
  exact .trans (.equal (Term.beq_iff_shape.mpr same.symm)) (.rule member (Term.sortPreserving_of_match? matched))

section Canonical

variable (rules : ∀ rule ∈ system.rules, rule.IsCanonical)
include rules

private theorem Step.equates (step : system.Step t u) (canonical : t.isCanonical = true) : system.Equates t u := by
  obtain ⟨before, rule, after, split, _, path, ⟨s, σ, found, matched, replaced⟩, _⟩ := step
  have member : rule ∈ system.rules := by simp [split]
  have subterm : s.isCanonical = true :=
    Term.of_subtermAt (P := fun t => t.isCanonical = true) Term.stable_isCanonical.argument found canonical
  exact (Equates.congruence system).replaceAt canonical found replaced
    (equates_of_match? member (rules rule member).1 subterm matched)

private theorem Step.isCanonical (step : system.Step t u) (canonical : t.isCanonical = true) : u.isCanonical = true :=
  step?_keeps Term.stable_isCanonical
    (fun rule member => rule.keeps_of_rhs Term.hereditary_isCanonical.substitutive (rules rule member).2)
    (step?_eq_some_iff.mpr step) canonical

private theorem Steps.equates {k : Nat} (steps : system.Steps k t n) (canonical : t.isCanonical = true) :
    system.Equates t n := by
  induction steps with
  | refl t => exact (Equates.congruence system).refl t
  | head step _ ih => exact .trans (step.equates rules canonical) (ih (step.isCanonical rules canonical))

/-- A canonical term and the normal form that is computed for it, under whatever bound, are equal modulo the rules. -/
theorem equates_of_normalize {bound : Option Nat} (canonical : t.isCanonical = true)
    (normal : system.normalize bound t = some (.ok n)) :
    system.Equates t n := by
  obtain ⟨_, steps, _⟩ := exists_steps_of_normalize normal
  exact steps.equates rules canonical

end Canonical

/-- The match swaps the arguments of a commutative symbol, and what is put in place is absorbed by the sum above. -/
theorem equates_of_normalize_absorbed :
    let x : Variable := ⟨⟨0⟩, .default⟩
    let a : Term := .const ⟨⟨0⟩, .default⟩
    let b : Term := .const ⟨⟨1⟩, .default⟩
    let sum : FunctionSymbol := ⟨⟨0⟩, 2, .associativeCommutative, .default, .default⟩
    let pair : FunctionSymbol := ⟨⟨1⟩, 2, .commutative, .default, .default⟩
    let system := RewriteSystem.ofList [⟨.node pair [.var x, a], .node sum [.var x, .var x]⟩]
    let t : Term := .node sum [.node pair [a, b], a]
    system.normalize none t = some (.ok (.node sum [b, b, a])) ∧ (∀ rule ∈ system.rules, rule.IsCanonical) ∧
      t.isCanonical = true ∧
      system.Equates t (.node sum [b, b, a]) := by
  intro x a b sum pair system t
  have bounded : system.normalize (some 1) t = some (.ok (.node sum [b, b, a])) := rfl
  obtain ⟨k, _, reached⟩ := normalize_some_eq_ok_iff.mp bounded
  have normal : system.normalize none t = some (.ok (.node sum [b, b, a])) :=
    normalize_none_eq_ok_iff.mpr ⟨k, reached⟩
  have rules : ∀ rule ∈ system.rules, rule.IsCanonical := by decide
  have canonical : t.isCanonical = true := by decide
  exact ⟨normal, rules, canonical, equates_of_normalize rules canonical normal⟩

end RewriteSystem

end Equational
