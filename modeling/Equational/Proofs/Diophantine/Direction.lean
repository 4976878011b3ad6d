import Equational.Diophantine.Completion
import Mathlib.Algebra.BigOperators.Fin
import Mathlib.Algebra.Order.BigOperators.Group.Finset
import Mathlib.Data.DFinsupp.WellFounded
import Mathlib.Data.List.OfFn
import Mathlib.Order.Minimal
import Mathlib.Tactic.Linarith
import Mathlib.Tactic.Ring

/-! Solution vectors as functions from columns to naturals. Below every solution that a candidate
has not reached there is a direction that the scalar product admits, because the defect of the
candidate and the defect still missing cancel out. -/

namespace Equational.HomogeneousSystem

variable {n : Nat}

def value (row : List Int) (v : Fin n → Nat) : Int :=
  ∑ j : Fin n, row.getD j 0 * (v j : Int)

/-- A non-zero vector that brings every row to zero. -/
def Solves (rows : List (List Int)) (v : Fin n → Nat) : Prop :=
  v ≠ 0 ∧ ∀ row ∈ rows, value row v = 0

theorem rowValue_cons (a : Int) (row : List Int) (x : Nat) (v : List Nat) :
    rowValue .unbounded (a :: row) (x :: v) = a * x + rowValue .unbounded row v := rfl

theorem dot_cons (a b : Int) (as bs : List Int) :
    dot .unbounded (a :: as) (b :: bs) = a * b + dot .unbounded as bs := rfl

theorem rowValue_ofFn (row : List Int) (v : Fin n → Nat) : rowValue .unbounded row (List.ofFn v) = value row v := by
  induction n generalizing row with
  | zero => cases row <;> simp [rowValue, value]
  | succ n ih =>
    cases row with
    | nil => simp [rowValue, value]
    | cons a row =>
      rw [List.ofFn_succ, rowValue_cons, ih, value, value, Fin.sum_univ_succ]
      simp

theorem isSolution_ofFn (system : HomogeneousSystem) (v : Fin n → Nat) :
    system.isSolution .unbounded (List.ofFn v) = true ↔ Solves system.rows v := by
  simp only [isSolution, defect, Bool.and_eq_true, List.any_eq_true, List.all_eq_true, List.mem_map,
    List.mem_ofFn, decide_eq_true_eq, beq_iff_eq, forall_exists_index, and_imp, forall_apply_eq_imp_iff₂,
    rowValue_ofFn]
  refine and_congr_left ?_
  intro _
  rw [Function.ne_iff]
  constructor
  · intro ⟨x, inside, positive⟩
    obtain ⟨j, rfl⟩ := inside
    exact ⟨j, positive.ne'⟩
  · intro ⟨j, other⟩
    exact ⟨v j, ⟨j, rfl⟩, Nat.pos_of_ne_zero other⟩

theorem dominates_ofFn (v w : Fin n → Nat) : dominates (List.ofFn v) (List.ofFn w) = true ↔ w ≤ v := by
  induction n with
  | zero => simp [dominates]
  | succ n ih =>
    rw [List.ofFn_succ, List.ofFn_succ, dominates, Bool.and_eq_true, ih, Pi.le_def, Pi.le_def, Fin.forall_fin_succ]
    simp

theorem modify_ofFn (v : Fin n → Nat) (j : Fin n) :
    (List.ofFn v).modify j (· + 1) = List.ofFn (v + Pi.single j 1) := by
  refine List.ext_getElem (by simp) ?_
  intro i inside _
  rw [List.getElem_modify, List.getElem_ofFn, List.getElem_ofFn, Pi.add_apply, Pi.single_apply]
  by_cases same : j.val = i
  · subst same
    simp
  · rw [if_neg same, if_neg fun equal => same (congrArg Fin.val equal).symm, Nat.add_zero]

theorem unit_ofFn (j : Fin n) : unit n j = List.ofFn (Pi.single j 1) := by
  refine List.ext_getElem (by simp [unit]) ?_
  intro i inside _
  rw [List.getElem_ofFn, Pi.single_apply]
  simp only [unit, List.getElem_set, List.getElem_replicate]
  by_cases same : j.val = i
  · subst same
    simp
  · rw [if_neg same, if_neg fun equal => same (congrArg Fin.val equal).symm]

private theorem dot_columns (defect : List Int) (rows : List (List Int)) (v : Fin n → Nat) :
    ∑ j : Fin n, (v j : Int) * dot .unbounded defect (rows.map (·.getD j 0)) = dot .unbounded defect
      (rows.map (value · v)) := by
  induction rows generalizing defect with
  | nil => cases defect <;> simp [dot]
  | cons row rows ih =>
    cases defect with
    | nil => simp [dot]
    | cons a defect =>
      simp only [List.map_cons, dot_cons]
      rw [← ih defect, value, Finset.mul_sum, ← Finset.sum_add_distrib]
      refine Finset.sum_congr rfl ?_
      intro j _
      ring

private theorem dot_zeros (defect : List Int) {values : List Int} (zeros : ∀ x ∈ values, x = 0) :
    dot .unbounded defect values = 0 := by
  induction values generalizing defect with
  | nil => cases defect <;> rfl
  | cons x values ih =>
    cases defect with
    | nil => rfl
    | cons a defect =>
      rw [dot_cons, zeros x (by simp), ih defect fun y later => zeros y (List.mem_cons_of_mem _ later),
        mul_zero, add_zero]

private theorem dot_self_nonneg (values : List Int) : 0 ≤ dot .unbounded values values := by
  induction values with
  | nil => exact Int.le_refl 0
  | cons x values ih => exact Int.add_nonneg (mul_self_nonneg x) ih

private theorem dot_self_pos {values : List Int} (nonzero : ∃ x ∈ values, x ≠ 0) :
    0 < dot .unbounded values values := by
  induction values with
  | nil => simp at nonzero
  | cons x values ih =>
    have head := mul_self_nonneg x
    have tail := dot_self_nonneg values
    rw [dot_cons]
    by_cases zero : x = 0
    · have later : ∃ y ∈ values, y ≠ 0 := by simpa [zero] using nonzero
      linarith [ih later]
    · have positive := mul_self_pos.mpr zero
      linarith

/-- A candidate below a solution that is no solution itself can grow towards it. -/
theorem exists_direction {rows : List (List Int)} {u s : Fin n → Nat} (below : u ≤ s)
    (target : ∀ row ∈ rows, value row s = 0) (unsolved : ∃ row ∈ rows, value row u ≠ 0) :
    ∃ j, u j < s j ∧ dot .unbounded (rows.map (value · u)) (rows.map (·.getD j 0)) < 0 := by
  by_contra none
  push Not at none
  have grows : ∑ j, (u j : Int) * dot .unbounded (rows.map (value · u)) (rows.map (·.getD j 0)) ≤
      ∑ j, (s j : Int) * dot .unbounded (rows.map (value · u)) (rows.map (·.getD j 0)) := by
    refine Finset.sum_le_sum ?_
    intro j _
    rcases Nat.lt_or_ge (u j) (s j) with less | reached
    · exact mul_le_mul_of_nonneg_right (by exact_mod_cast below j) (none j less)
    · rw [Nat.le_antisymm (below j) reached]
  have zero : dot .unbounded (rows.map (value · u)) (rows.map (value · s)) = 0 :=
    dot_zeros _ (by simpa using target)
  have positive : 0 < dot .unbounded (rows.map (value · u)) (rows.map (value · u)) := by
    refine dot_self_pos ?_
    obtain ⟨row, member, nonzero⟩ := unsolved
    exact ⟨_, List.mem_map_of_mem member, nonzero⟩
  rw [dot_columns, dot_columns, zero] at grows
  exact absurd positive (not_lt.mpr grows)

end Equational.HomogeneousSystem
