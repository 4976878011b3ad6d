import Equational.Proofs.Term.Interpretation
import Mathlib.Algebra.BigOperators.Group.Multiset.Basic
import Mathlib.Data.Finset.Union

/-! The variables of a term as values. Its occurrences are a sum in which every application adds up what its
arguments have, and its variables are a union. A sum takes no notice of nesting and order, so equal terms have the
same occurrences. A union takes no notice of repetition either, so it does not miss the one of two equal arguments
that an idempotent symbol drops, and what is put in for the variables of a term shows up, and nothing else does. -/

namespace Equational

namespace Interpretation

def occurrences : Interpretation (Multiset Variable) where
  ofVariable v := {v}
  ofConstant _ := 0
  ofFunction _ values := values.sum

private theorem lawful_occurrences : occurrences.Lawful where
  absorb _ xs ys zs := by simp [occurrences]
  permute _ _ _ same := same.sum_eq

private theorem value_occurrences (t : Term) : occurrences.value t = t.vars := by
  induction t with
  | var v => rfl
  | const c => rfl
  | node f args ih =>
    rw [value_node, List.map_congr_left ih, Term.vars]
    clear ih
    induction args with
    | nil => rfl
    | cons arg args rest =>
      rw [Term.varsList, ← Multiset.coe_add, ← rest]
      rfl

def support : Interpretation (Finset Variable) where
  ofVariable v := {v}
  ofConstant _ := ∅
  ofFunction _ values := values.foldr (· ∪ ·) ∅

private theorem foldr_union (values : List (Finset Variable)) (start : Finset Variable) :
    values.foldr (· ∪ ·) start = values.foldr (· ∪ ·) ∅ ∪ start := by
  induction values with
  | nil => simp
  | cons value values ih => rw [List.foldr_cons, ih, List.foldr_cons, Finset.union_assoc]

private theorem lawful_support : support.Lawful where
  absorb _ xs ys zs := by
    simp only [support, List.append_assoc, List.foldr_append, List.foldr_cons]
    rw [foldr_union ys (zs.foldr _ _)]
  permute _ _ _ same := same.foldr_eq _

private theorem collapses_support (f : FunctionSymbol) : support.Collapses f :=
  fun _ a => by simp [support]

private theorem value_support (images : Variable → Finset Variable) (t : Term) :
    (support.assign images).value t = t.vars.toFinset.biUnion images := by
  induction t with
  | var v => simp [Term.vars]
  | const c => rfl
  | node f args ih =>
    rw [value_node, List.map_congr_left ih, Term.vars]
    clear ih
    induction args with
    | nil => rfl
    | cons arg args rest =>
      rw [Term.varsList, List.toFinset_append, Finset.union_biUnion, ← rest]
      rfl

end Interpretation

open Interpretation

private theorem Term.vars_perm_of_beq {s t : Term} (same : (s == t) = true) : s.vars.Perm t.vars := by
  have values := value_congr lawful_occurrences (beq_iff_shape.mp same)
  rw [value_occurrences, value_occurrences] at values
  exact Multiset.coe_eq_coe.mp values

namespace Substitution

private theorem toFinset_vars_apply (σ : Substitution) (t : Term) :
    (σ.apply t).vars.toFinset = t.vars.toFinset.biUnion fun v => (σ.image v).vars.toFinset := by
  have value (u : Term) : support.value u = u.vars.toFinset := by
    have itself := value_support (fun v => {v}) u
    rwa [Finset.biUnion_singleton_eq_self] at itself
  rw [← value, value_apply lawful_support fun f _ => collapses_support f, value_support]
  simp only [value]

/-- The variables of a term under a substitution are those of the images of its variables, also where an application
collapses, and equal terms have the same variables, each as often as the other. -/
theorem apply_keeps_variables :
    (∀ (σ : Substitution) (t : Term),
      (σ.apply t).vars.toFinset = t.vars.toFinset.biUnion fun v => (σ.apply (.var v)).vars.toFinset) ∧
    ∀ s t : Term, (s == t) = true → s.vars.Perm t.vars := by
  refine ⟨fun σ t => ?_, fun s t same => Term.vars_perm_of_beq same⟩
  simp only [toFinset_vars_apply, apply_var]

/-- The pair of two sums collapses once `x` and `y` have their values. One of the sums goes with all its variables, and
they are those of the other. -/
theorem apply_keeps_variables_collapse :
    let x : Variable := ⟨⟨0⟩, .default⟩
    let y : Variable := ⟨⟨1⟩, .default⟩
    let z : Variable := ⟨⟨2⟩, .default⟩
    let w : Variable := ⟨⟨3⟩, .default⟩
    let f : FunctionSymbol := ⟨⟨0⟩, 2, .associativeCommutative, .default, .default⟩
    let i : FunctionSymbol := ⟨⟨1⟩, 2, .idempotent, .default, .default⟩
    let s : Term := .node f [.var z, .node f [.var x, .var z]]
    let t : Term := .node f [.node f [.var z, .var z], .var x]
    let σ : Substitution := ⟨[(x, .node f [.var z, .var w]), (y, .node f [.var w, .var z])], by decide⟩
    let pair : Term := .node i [.node f [.var x, .var z], .node f [.var z, .var y]]
    (s == t) = true ∧ s.vars.Perm t.vars ∧ (σ.apply pair == .node f [.var w, .var z, .var z]) = true ∧
      (σ.apply pair).vars.toFinset = pair.vars.toFinset.biUnion fun v => (σ.apply (.var v)).vars.toFinset := by
  intro x y z w f i s t σ pair
  have same : (s == t) = true := by decide
  exact ⟨same, apply_keeps_variables.2 s t same, by decide, apply_keeps_variables.1 σ pair⟩

end Substitution

end Equational
