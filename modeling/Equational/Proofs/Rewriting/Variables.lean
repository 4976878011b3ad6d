import Equational.Proofs.Rewriting
import Equational.Proofs.Rewriting.Renaming

/-! Rewriting brings in no variables. The variables on the right of a rule are on the left, and a match
makes each of them a subterm of the term that is matched, so what is put in place has only variables of
what was there. -/

namespace Equational

namespace Term

variable {known : Variable → Prop}

private theorem stable_within (known : Variable → Prop) : Stable (Within known) where
  argument := Within.argument
  rebuild _ _ each := .app _ each

private theorem Within.apply {σ : Substitution} {t : Term} (images : ∀ v ∈ t.vars, (σ.image v).Within known) :
    (σ.apply t).Within known := by
  intro v occurs
  obtain ⟨w, inside, image⟩ := Substitution.mem_vars_apply occurs
  exact images w inside v image

end Term

variable {t n : Term}

/-- A rule without variables of its own on the right puts nothing in place that has a variable of its own. -/
theorem RewriteRule.keeps_within {rule : RewriteRule} (bound : rule.rhs.vars ⊆ rule.lhs.vars)
    (known : Variable → Prop) :
    rule.Keeps (Term.Within known) := by
  intro s σ matched within
  refine .apply fun v right => ?_
  obtain ⟨path, found⟩ := Term.exists_subterm_of_match? matched v (bound right)
  exact Term.of_subtermAt Term.Within.argument found within

namespace RewriteSystem

variable {system : RewriteSystem} {bound : Option Nat}

private theorem vars_subset_of_normalize (closed : ∀ rule ∈ system.rules, rule.rhs.vars ⊆ rule.lhs.vars)
    (normal : system.normalize bound t = some (.ok n)) : n.vars ⊆ t.vars :=
  normalize_keeps (Term.stable_within (· ∈ t.vars)) (fun rule member => rule.keeps_within (closed rule member) _)
    normal fun _ => id

theorem isGround_of_normalize (closed : ∀ rule ∈ system.rules, rule.rhs.vars ⊆ rule.lhs.vars)
    (normal : system.normalize bound t = some (.ok n)) (ground : t.isGround = true) : n.isGround = true := by
  have none : t.vars = [] := List.isEmpty_iff.mp ground
  exact List.isEmpty_iff.mpr (List.subset_nil.mp (none ▸ vars_subset_of_normalize closed normal))

/-- Under rules that were accepted, every variable of the normal form occurs in the term, so a ground
term stays ground. -/
theorem normalize_brings_no_variables
    (accepted : ∀ rule ∈ system.rules, ∃ lhs rhs, RewriteRule.ofSides lhs rhs = .ok rule)
    (normal : system.normalize bound t = some (.ok n)) :
    n.vars ⊆ t.vars ∧ (t.isGround = true → n.isGround = true) := by
  have closed : ∀ rule ∈ system.rules, rule.rhs.vars ⊆ rule.lhs.vars := by
    intro rule member
    obtain ⟨lhs, rhs, made⟩ := accepted rule member
    obtain ⟨_, within, rfl⟩ := RewriteRule.ofSides_eq_ok_iff.mp made
    exact within
  exact ⟨vars_subset_of_normalize closed normal, isGround_of_normalize closed normal⟩

/-- The pair matches in the other order, with `y` standing for itself; the rule drops `z`, and what is
put in place is absorbed by the sum above. -/
theorem normalize_brings_no_variables_swapped :
    let x : Variable := ⟨⟨0⟩, .default⟩
    let y : Variable := ⟨⟨1⟩, .default⟩
    let z : Variable := ⟨⟨2⟩, .default⟩
    let a : Term := .const ⟨⟨0⟩, .default⟩
    let sum : FunctionSymbol := ⟨⟨0⟩, 2, .associativeCommutative, .default, .default⟩
    let pair : FunctionSymbol := ⟨⟨1⟩, 2, .commutative, .default, .default⟩
    let h : FunctionSymbol := ⟨⟨2⟩, 3, .free, .default, .default⟩
    let lhs : Term := .node h [.node pair [.var x, a], .var y, .var z]
    let rhs : Term := .node sum [.var y, .var x]
    let system := RewriteSystem.ofList [⟨lhs, rhs⟩]
    let t : Term := .node sum [.node h [.node pair [a, .node sum [.var x, a]], .var y, .var z], a]
    let n : Term := .node sum [.var y, .var x, a, a]
    (∀ rule ∈ system.rules, ∃ lhs rhs, RewriteRule.ofSides lhs rhs = .ok rule) ∧
      system.normalize (some 1) t = some (.ok n) ∧
      n.vars ⊆ t.vars := by
  intro x y z a sum pair h lhs rhs system t n
  have accepted : ∀ rule ∈ system.rules, ∃ lhs rhs, RewriteRule.ofSides lhs rhs = .ok rule :=
    List.forall_mem_singleton.mpr ⟨lhs, rhs, rfl⟩
  have normal : system.normalize (some 1) t = some (.ok n) := rfl
  exact ⟨accepted, normal, (normalize_brings_no_variables accepted normal).1⟩

end RewriteSystem

end Equational
