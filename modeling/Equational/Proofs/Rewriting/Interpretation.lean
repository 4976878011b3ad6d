import Equational.Proofs.Rewriting.NormalForm
import Equational.Proofs.Term.Interpretation
import Mathlib.Algebra.GroupWithZero.Nat
import Mathlib.Order.WellFounded

/-! Rewriting seen in an interpretation. Where the two sides of every rule are related under all
assignments, and the symbols pass the relation on from each argument, a step relates the values of the
two terms, wherever it happens. An equation that is passed on makes normalisation keep values; a weight
that decreases makes rewriting end. -/

namespace Equational

universe w

variable {α : Type w} {I : Interpretation α} {R : α → α → Prop} {t u n : Term} {path : List Nat}

namespace Interpretation

/-- Every symbol passes the relation on from each of its arguments, and the relation does not tell a
pair of equal arguments of an idempotent symbol from the one that it collapses to. -/
structure Respects (I : Interpretation α) (R : α → α → Prop) : Prop where
  argument : ∀ (f : FunctionSymbol) {a b : α}, R a b → ∀ xs ys : List α,
    R (I.ofFunction f (xs ++ a :: ys)) (I.ofFunction f (xs ++ b :: ys))
  collapse : ∀ {f : FunctionSymbol}, f.theory = .idempotent → ∀ {a b : α}, R a (I.ofFunction f [b, b]) → R a b

section Context

variable (lawful : I.Lawful) (respects : I.Respects R)
include lawful respects

private theorem related_app {f : FunctionSymbol} {args : List Term} {a : α}
    (related : R a (I.ofFunction f (args.map I.value))) :
    R a (I.value (.app f args)) := by
  rcases value_app_or lawful f args with whole | ⟨idempotent, pair⟩
  · rwa [whole]
  · rw [pair] at related
    exact respects.collapse idempotent related

private theorem related_replaceAt {s r : Term} (found : t.subtermAt path = some s)
    (replaced : Term.replaceAt r path t = some u)
    (related : R (I.value s) (I.value r)) : R (I.value t) (I.value u) := by
  refine Term.related_of_replaceAt (E := fun t u => R (I.value t) (I.value u))
    (fun {f args i arg child} place argument => ?_) found
    replaced related
  obtain ⟨bounded, rfl⟩ := List.getElem?_eq_some_iff.mp place
  obtain ⟨before, after, split, _, replacement⟩ := @List.exists_of_set _ i child args bounded
  generalize args[i] = arg at argument split
  refine related_app lawful respects ?_
  rw [replacement, value_node, split, List.map_append, List.map_cons, List.map_append, List.map_cons]
  exact respects.argument f argument _ _

end Context

end Interpretation

namespace RewriteRule

variable {rule : RewriteRule}

/-- The values of the two sides are related whatever the variables stand for, and on the right nothing collapses. -/
structure Relates (I : Interpretation α) (R : α → α → Prop) (rule : RewriteRule) : Prop where
  kept : rule.rhs.Over (·.theory ≠ .idempotent)
  sides : ∀ m : Variable → α, R ((I.assign m).value rule.lhs) ((I.assign m).value rule.rhs)

private theorem Relates.rewritesAt (relates : rule.Relates I R) (lawful : I.Lawful) (respects : I.Respects R)
    (rewrites : rule.RewritesAt t path u) : R (I.value t) (I.value u) := by
  obtain ⟨s, σ, found, matched, replaced⟩ := rewrites
  refine I.related_replaceAt lawful respects found replaced ?_
  have collapse : rule.rhs.Over I.Collapses := fun f occurs => .of_kept (relates.kept f occurs)
  rw [← Interpretation.value_of_match? lawful matched, Interpretation.value_apply lawful collapse]
  exact relates.sides _

end RewriteRule

namespace RewriteSystem

variable {system : RewriteSystem}

/-- Some rule rewrites the term at some position, whether or not it is the first rule and the first position. -/
def Reduces (system : RewriteSystem) (t u : Term) : Prop :=
  ∃ rule ∈ system.rules, ∃ path, rule.RewritesAt t path u

theorem Step.reduces (step : system.Step t u) : system.Reduces t u := by
  obtain ⟨before, rule, after, split, _, path, rewrites, _⟩ := step
  exact ⟨rule, by simp [split], path, rewrites⟩

section Relates

variable (lawful : I.Lawful) (respects : I.Respects R) (relates : ∀ rule ∈ system.rules, rule.Relates I R)
include lawful respects relates

theorem Reduces.related (reduces : system.Reduces t u) : R (I.value t) (I.value u) := by
  obtain ⟨rule, member, path, rewrites⟩ := reduces
  exact (relates rule member).rewritesAt lawful respects rewrites

theorem Steps.related (refl : ∀ a, R a a) (trans : ∀ {a b c}, R a b → R b c → R a c) {k : Nat}
    (steps : system.Steps k t n) :
    R (I.value t) (I.value n) := by
  induction steps with
  | refl t => exact refl _
  | head step _ ih => exact trans (step.reduces.related lawful respects relates) ih

theorem related_of_normalize (refl : ∀ a, R a a) (trans : ∀ {a b c}, R a b → R b c → R a c) {bound : Option Nat}
    (normal : system.normalize bound t = some (.ok n)) : R (I.value t) (I.value n) := by
  obtain ⟨_, steps, _⟩ := exists_steps_of_normalize normal
  exact steps.related lawful respects relates refl trans

end Relates

section Decreasing

variable {weight : Term → Nat} (decreases : ∀ {t u}, system.Reduces t u → weight u < weight t)
include decreases

theorem no_infinite_reduction : ¬ ∃ run : Nat → Term, ∀ i, system.Reduces (run i) (run (i + 1)) := by
  rintro ⟨run, reduces⟩
  obtain ⟨i, stuck⟩ := WellFounded.not_rel_apply_succ (r := (· < ·)) (weight ∘ run)
  exact stuck (decreases (reduces i))

/-- Every step costs weight, so after at most as many steps as the term weighs none is left. -/
theorem exists_steps_within (t : Term) : ∃ k ≤ weight t, ∃ n, system.Steps k t n ∧ system.Irreducible n := by
  induction weighs : weight t using Nat.strongRecOn generalizing t with
  | ind w ih =>
    cases stepped : system.step? t with
    | none => exact ⟨0, Nat.zero_le _, t, .refl t, step?_eq_none_iff.mp stepped⟩
    | some u =>
      have step := step?_eq_some_iff.mp stepped
      have lighter : weight u < w := weighs ▸ decreases step.reduces
      obtain ⟨k, within, n, steps, irreducible⟩ := ih _ lighter u rfl
      exact ⟨k + 1, by omega, n, .head step steps, irreducible⟩

end Decreasing

end RewriteSystem

/-- The weight of a term whose symbols weigh something by themselves and weigh their arguments several times over. -/
def Interpretation.linear (own factor : FunctionSymbol → Nat) : Interpretation Nat where
  ofVariable _ := 0
  ofConstant _ := 0
  ofFunction f weights := own f + factor f * weights.sum

namespace Interpretation

variable {own factor : FunctionSymbol → Nat}

/-- A symbol with laws must weigh no more than its arguments do. -/
theorem lawful_linear (plain : ∀ f : FunctionSymbol, f.theory ≠ .free → own f = 0 ∧ factor f = 1) :
    (linear own factor).Lawful :=
  .of_laws
    (fun laws xs ys zs => by
      obtain ⟨none, once⟩ := plain _ laws
      simp only [linear, none, once, List.sum_append, List.sum_cons]
      omega)
    (fun _ _ _ same => by simp only [linear, same.sum_nat])

theorem respects_linear (weighed : ∀ f, 0 < factor f) : (linear own factor).Respects (· > ·) where
  argument f a b lighter xs ys := by
    have less : (xs ++ b :: ys).sum < (xs ++ a :: ys).sum := by
      simp only [List.sum_append, List.sum_cons]
      omega
    exact Nat.add_lt_add_left (Nat.mul_lt_mul_of_pos_left less (weighed f)) _
  collapse {f} _ a b lighter := by
    have once := Nat.le_mul_of_pos_left (b + b) (weighed f)
    simp only [linear, List.sum_cons, List.sum_nil, Nat.add_zero] at lighter
    omega

end Interpretation

end Equational
