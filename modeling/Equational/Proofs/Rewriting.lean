import Equational.Proofs.Matching
import Equational.Proofs.Term.Position
import Equational.Proofs.Term.Stable
import Equational.Rewriting.System

/-! What rewriting keeps. A step puts an instance of the right side in place of one of the left side
and rebuilds the applications above it, so a stable property that the instances of the right sides
have is kept by every step, and by normalisation at any bound. -/

namespace Equational

variable {P : Term → Prop} {t u : Term}

theorem Term.Stable.replaceAt (stable : Stable P) {replacement : Term} (new : P replacement) {path : List Nat}
    (replaced : replaceAt replacement path t = some u) (holds : P t) : P u := by
  obtain ⟨s, found⟩ := exists_replaceAt_iff.mp ⟨u, replaced⟩
  refine related_of_replaceAt (E := fun t u => P t → P u) (fun {f args i arg child} place kept holds => ?_)
    found replaced
    (fun _ => new) holds
  have each := stable.argument holds
  refine stable.rebuild holds (List.length_set ..) fun other member => ?_
  rcases List.mem_or_eq_of_mem_set member with old | rfl
  · exact each other old
  · exact kept (each arg (List.mem_of_getElem? place))

namespace RewriteRule

variable {rule : RewriteRule}

def Keeps (P : Term → Prop) (rule : RewriteRule) : Prop :=
  ∀ s σ, rule.lhs.match? s = some σ → P s → P (σ.apply rule.rhs)

/-- The right side of a rule that keeps a property need only have the property itself. -/
theorem keeps_of_rhs (substitutive : Term.Substitutive P) (right : P rule.rhs) : rule.Keeps P :=
  fun _ _ matched holds => substitutive.apply (Term.range_of_match? substitutive.argument matched holds) right

variable (stable : Term.Stable P) (keeps : rule.Keeps P)
include stable keeps

private theorem Keeps.rewriteAt? {path : List Nat} (rewritten : rule.rewriteAt? t path = some u) (holds : P t) :
    P u := by
  obtain ⟨s, found, rest⟩ := Option.bind_eq_some_iff.mp rewritten
  obtain ⟨σ, matched, replaced⟩ := Option.bind_eq_some_iff.mp rest
  exact stable.replaceAt (keeps s σ matched (Term.of_subtermAt stable.argument found holds)) replaced holds

theorem Keeps.rewrite? (rewritten : rule.rewrite? t = some u) (holds : P t) : P u := by
  obtain ⟨path, _, rewritten'⟩ := List.exists_of_findSome?_eq_some rewritten
  exact keeps.rewriteAt? stable rewritten' holds

end RewriteRule

namespace RewriteSystem

variable {system : RewriteSystem} (stable : Term.Stable P) (keeps : ∀ rule ∈ system.rules, rule.Keeps P)
include stable keeps

theorem step?_keeps (stepped : system.step? t = some u) (holds : P t) : P u := by
  obtain ⟨rule, member, rewritten⟩ := List.exists_of_findSome?_eq_some stepped
  exact (keeps rule member).rewrite? stable rewritten holds

private theorem normalForm?_keeps {steps : Nat} (normal : system.normalForm? steps t = some u) (holds : P t) :
    P u := by
  induction steps generalizing t with
  | zero =>
    simp only [normalForm?] at normal
    split at normal
    · cases normal
      exact holds
    · cases normal
  | succ steps ih =>
    simp only [normalForm?] at normal
    split at normal
    next =>
      cases normal
      exact holds
    next next stepped => exact ih normal (step?_keeps stable keeps stepped holds)

private theorem exhaust?_keeps (normal : system.exhaust? t = some u) (holds : P t) : P u := by
  refine exhaust?.partial_correctness system (fun t u => P t → P u)
    (fun rec ih t u normal holds => ?_) t u normal holds
  split at normal
  next =>
    cases normal
    exact holds
  next next stepped => exact ih next u normal (step?_keeps stable keeps stepped holds)

theorem normalize_keeps {bound : Option Nat} (normal : system.normalize bound t = some (.ok u)) (holds : P t) :
    P u := by
  simp only [normalize] at normal
  split at normal
  · split at normal
    next reached =>
      cases normal
      exact normalForm?_keeps stable keeps reached holds
    next => cases normal
  · obtain ⟨_, reached, same⟩ := Option.map_eq_some_iff.mp normal
    cases same
    exact exhaust?_keeps stable keeps reached holds

end RewriteSystem

end Equational
