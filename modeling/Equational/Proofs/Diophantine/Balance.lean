import Mathlib.Algebra.Order.Ring.Int
import Mathlib.Algebra.Module.BigOperators
import Mathlib.Data.Matrix.Mul
import Mathlib.LinearAlgebra.Matrix.DotProduct
import Mathlib.Tactic.Linarith
import Mathlib.Tactic.Ring

/-! An alternative for finitely many integer columns: either some of them cancel out with natural
weights, or all of them point into one open half-space. -/

namespace Equational.HomogeneousSystem

open Finset

variable {ι κ : Type*}

/-- Natural weights on the chosen columns, not all zero, under which the columns cancel out. -/
def Balanced (column : ι → κ → ℤ) (chosen : Finset ι) : Prop :=
  ∃ weight : ι → ℕ, (∃ j ∈ chosen, weight j ≠ 0) ∧ ∑ j ∈ chosen, (weight j : ℤ) • column j = 0

/-- A direction into which every chosen column points. -/
def Directed [Fintype κ] (column : ι → κ → ℤ) (chosen : Finset ι) : Prop :=
  ∃ y : κ → ℤ, ∀ j ∈ chosen, 0 < y ⬝ᵥ column j

variable [DecidableEq ι] {column : ι → κ → ℤ} {chosen : Finset ι} {k : ι}

private theorem Balanced.insert (new : k ∉ chosen) (balanced : Balanced column chosen) :
    Balanced column (insert k chosen) := by
  obtain ⟨weight, ⟨j, member, positive⟩, cancel⟩ := balanced
  have apart (i : ι) (old : i ∈ chosen) : i ≠ k := fun same => new (same ▸ old)
  refine ⟨Function.update weight k 0, ⟨j, mem_insert_of_mem member, ?_⟩, ?_⟩
  · rwa [Function.update_of_ne (apart j member)]
  · rw [sum_insert new, Function.update_self, Nat.cast_zero, zero_smul, zero_add, ← cancel]
    refine sum_congr rfl ?_
    intro i old
    rw [Function.update_of_ne (apart i old)]

private theorem balanced_of_zero (member : k ∈ chosen) (zero : column k = 0) : Balanced column chosen := by
  refine ⟨Pi.single k 1, ⟨k, member, by simp⟩, ?_⟩
  refine sum_eq_zero ?_
  intro j _
  rcases eq_or_ne j k with same | other
  · rw [same, zero, smul_zero]
  · rw [Pi.single_eq_of_ne other, Nat.cast_zero, zero_smul]

variable [Fintype κ] {y : κ → ℤ}

theorem square_nonneg (x : κ → ℤ) : 0 ≤ x ⬝ᵥ x :=
  sum_nonneg fun i _ => mul_self_nonneg (x i)

/-- The chosen columns, moved along `column k` onto the plane across the direction `y`. -/
def projected (column : ι → κ → ℤ) (y : κ → ℤ) (k j : ι) : κ → ℤ :=
  (y ⬝ᵥ column j) • column k - (y ⬝ᵥ column k) • column j

/-- Weights that cancel the projected columns cancel the columns themselves, together with `column k`. -/
theorem Balanced.of_projected (new : k ∉ chosen) (points : ∀ j ∈ chosen, 0 < y ⬝ᵥ column j) (away : y ⬝ᵥ column k ≤ 0)
    (balanced : Balanced (projected column y k) chosen) : Balanced column (Insert.insert k chosen) := by
  obtain ⟨weight, ⟨i, member, positive⟩, cancel⟩ := balanced
  have apart (j : ι) (old : j ∈ chosen) : j ≠ k := fun same => new (same ▸ old)
  have share : 0 < ∑ j ∈ chosen, (weight j : ℤ) * (y ⬝ᵥ column j) := by
    refine sum_pos' (fun j old => mul_nonneg (Int.natCast_nonneg _) (points j old).le) ⟨i, member, ?_⟩
    exact mul_pos (by exact_mod_cast Nat.pos_of_ne_zero positive) (points i member)
  obtain ⟨total, totalEq⟩ := Int.eq_ofNat_of_zero_le share.le
  obtain ⟨back, backEq⟩ := Int.eq_ofNat_of_zero_le (neg_nonneg.mpr away)
  refine ⟨Function.update (fun j => back * weight j) k total, ⟨k, mem_insert_self k chosen, ?_⟩, ?_⟩
  · rw [Function.update_self]
    rintro rfl
    rw [totalEq] at share
    exact absurd share (lt_irrefl 0)
  · have spread : ∑ j ∈ chosen, (weight j : ℤ) • projected column y k j =
        (total : ℤ) • column k + ∑ j ∈ chosen, ((back * weight j : ℕ) : ℤ) • column j := by
      rw [← totalEq, Finset.sum_smul, ← sum_add_distrib]
      refine sum_congr rfl ?_
      intro j _
      rw [projected, Nat.cast_mul, ← backEq, smul_sub, smul_smul, smul_smul, sub_eq_add_neg, ← neg_smul]
      congr 2
      ring
    rw [sum_insert new, Function.update_self, ← cancel, spread]
    congr 1
    refine sum_congr rfl ?_
    intro j old
    rw [Function.update_of_ne (apart j old)]

/-- A direction for the projected columns becomes one across `column k`; bent a little towards
`column k` it is a direction for all of them. -/
theorem Directed.of_projected (nonzero : column k ≠ 0) (directed : Directed (projected column y k) chosen) :
    Directed column (Insert.insert k chosen) := by
  obtain ⟨z, points⟩ := directed
  have square : 0 < column k ⬝ᵥ column k :=
    (square_nonneg (column k)).lt_of_ne fun zero => nonzero (dotProduct_self_eq_zero.mp zero.symm)
  let across : κ → ℤ := (z ⬝ᵥ column k) • y - (y ⬝ᵥ column k) • z
  have first : across ⬝ᵥ column k = 0 := by
    simp only [across, sub_dotProduct, smul_dotProduct, smul_eq_mul]
    ring
  have others : ∀ j ∈ chosen, 0 < across ⬝ᵥ column j := by
    intro j member
    have moved := points j member
    simp only [projected, dotProduct_sub, dotProduct_smul, smul_eq_mul] at moved
    simp only [across, sub_dotProduct, smul_dotProduct, smul_eq_mul]
    linarith
  let steep : ℤ := 1 + ∑ j ∈ chosen, |column k ⬝ᵥ column j|
  refine ⟨steep • across + column k, ?_⟩
  intro j member
  rw [add_dotProduct, smul_dotProduct, smul_eq_mul]
  rcases mem_insert.mp member with same | old
  · rw [same, first, mul_zero, zero_add]
    exact square
  · have bounded : |column k ⬝ᵥ column j| ≤ ∑ i ∈ chosen, |column k ⬝ᵥ column i| :=
      single_le_sum (f := fun i => |column k ⬝ᵥ column i|) (fun i _ => abs_nonneg _) old
    have below := neg_abs_le (column k ⬝ᵥ column j)
    have far : steep ≤ steep * (across ⬝ᵥ column j) :=
      le_mul_of_one_le_right (by linarith [abs_nonneg (column k ⬝ᵥ column j)]) (others j old)
    linarith

/-- Either some of the chosen columns cancel out or there is a direction into which all of them point. -/
theorem balanced_or_directed (column : ι → κ → ℤ) (chosen : Finset ι) :
    Balanced column chosen ∨ Directed column chosen := by
  induction chosen using Finset.induction_on generalizing column with
  | empty => exact .inr ⟨0, by simp⟩
  | insert k chosen new ih =>
    by_cases zero : column k = 0
    · exact .inl (balanced_of_zero (mem_insert_self k chosen) zero)
    · rcases ih column with balanced | ⟨y, points⟩
      · exact .inl (balanced.insert new)
      · rcases lt_or_ge 0 (y ⬝ᵥ column k) with along | away
        · exact .inr ⟨y, (forall_mem_insert ..).mpr ⟨along, points⟩⟩
        · exact (ih (projected column y k)).imp (.of_projected new points away) (.of_projected zero)

end Equational.HomogeneousSystem
