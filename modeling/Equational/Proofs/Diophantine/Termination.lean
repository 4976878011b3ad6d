import Equational.Proofs.Diophantine.Balance
import Equational.Proofs.Diophantine.MinimalSolutions
import Mathlib.Algebra.Order.BigOperators.Ring.Finset
import Mathlib.Order.WellQuasiOrder

/-! Completion reaches an empty frontier. A new unit points away from the defect, so the square of
the defect grows at most linearly with the rounds, while the candidates of a round are as large as
its number. In an endless run some candidates would form an increasing sequence. If the columns
that grow without bound cancel out, a minimal solution lies below a candidate, which the rounds
exclude. Otherwise they all point into one direction, and then the defect itself grows linearly. -/

namespace Equational.HomogeneousSystem

open Finset

variable (system : HomogeneousSystem)

def column (j : Fin system.columns) (i : Fin system.rows.length) : ℤ := system.rows[i].getD j 0

def excess (u : Fin system.columns → Nat) (i : Fin system.rows.length) : ℤ := value system.rows[i] u

private theorem excess_eq_sum (u : Fin system.columns → Nat) :
    system.excess u = ∑ j, (u j : ℤ) • system.column j := by
  funext i
  rw [excess, value, Finset.sum_apply]
  refine sum_congr rfl ?_
  intro j _
  exact mul_comm _ _

private theorem excess_unit (j : Fin system.columns) : system.excess (Pi.single j 1) = system.column j := by
  rw [excess_eq_sum, Finset.sum_eq_single j]
  · rw [Pi.single_eq_same, Nat.cast_one, one_smul]
  · intro i _ other
    rw [Pi.single_eq_of_ne other, Nat.cast_zero, zero_smul]
  · intro absent
    exact absurd (mem_univ j) absent

private theorem excess_add (u v : Fin system.columns → Nat) :
    system.excess (u + v) = system.excess u + system.excess v :=
  funext fun i => value_add system.rows[i] u v

private theorem dotProduct_excess (y : Fin system.rows.length → ℤ) (u : Fin system.columns → Nat) :
    y ⬝ᵥ system.excess u = ∑ j, (u j : ℤ) * (y ⬝ᵥ system.column j) := by
  rw [excess_eq_sum, dotProduct_sum]
  refine sum_congr rfl ?_
  intro j _
  rw [dotProduct_smul, smul_eq_mul]

theorem dot_map (rows : List (List Int)) (g h : List Int → ℤ) :
    dot .unbounded (rows.map g) (rows.map h) = ∑ i : Fin rows.length, g rows[i] * h rows[i] := by
  induction rows with
  | nil => rfl
  | cons row rows ih =>
    rw [List.map_cons, List.map_cons, dot_cons, ih]
    exact (Fin.sum_univ_succ fun i : Fin (row :: rows).length => g (row :: rows)[i] * h (row :: rows)[i]).symm

private theorem dot_defect (u : Fin system.columns → Nat) (j : Fin system.columns) :
    dot .unbounded (system.defect .unbounded (List.ofFn u)) (system.rows.map (·.getD j 0)) =
      system.excess u ⬝ᵥ system.column j := by
  simp only [defect, rowValue_ofFn]
  exact dot_map system.rows (value · u) (·.getD j 0)

/-- More than the square of every column. -/
def growth : ℤ := ∑ j, system.column j ⬝ᵥ system.column j

private theorem column_le_growth (j : Fin system.columns) : system.column j ⬝ᵥ system.column j ≤ system.growth :=
  single_le_sum (f := fun i => system.column i ⬝ᵥ system.column i) (fun _ _ => square_nonneg _) (mem_univ j)

/-- The squared defects of all candidates of a round. -/
def Slow (size : Nat) (state : Completion) : Prop :=
  ∀ u, List.ofFn u ∈ state.frontier → system.excess u ⬝ᵥ system.excess u ≤ system.growth * size

private theorem slow_start : system.Slow 1 system.start := by
  intro u member
  obtain ⟨j, inside, same⟩ : ∃ j < system.columns, unit system.columns j =
      List.ofFn u := by simpa [start] using member
  have vector : u = Pi.single ⟨j, inside⟩ 1 := List.ofFn_injective (same.symm.trans (unit_ofFn ⟨j, inside⟩))
  rw [vector, excess_unit, Nat.cast_one, mul_one]
  exact system.column_le_growth ⟨j, inside⟩

variable {system} {size : Nat} {state : Completion}

/-- The scalar product of a new unit with the defect is negative, so only the square of its column is added. -/
theorem Slow.round (slow : system.Slow size state) (progress : Progress system size state) :
    system.Slow (size + 1) (system.round .unbounded state) := by
  intro w member
  obtain ⟨⟨v, candidate, _, grown⟩, _⟩ := mem_frontier_round.mp member
  obtain ⟨j, inside, points, same⟩ := mem_successors.mp grown
  obtain ⟨u, rfl⟩ := exists_ofFn (progress.vectors v (List.mem_append_right _ candidate))
  have vector : w = u + Pi.single ⟨j, inside⟩ 1 := List.ofFn_injective (same.trans (modify_ofFn u ⟨j, inside⟩))
  have before := slow u candidate
  have added := system.column_le_growth ⟨j, inside⟩
  have toward : system.excess u ⬝ᵥ system.column ⟨j, inside⟩ < 0 := by rwa [← dot_defect]
  have square : system.excess w ⬝ᵥ system.excess w = system.excess u ⬝ᵥ system.excess u +
      2 * (system.excess u ⬝ᵥ system.column ⟨j, inside⟩) + system.column ⟨j, inside⟩ ⬝ᵥ system.column
      ⟨j, inside⟩ := by
    rw [vector, excess_add, excess_unit, add_dotProduct, dotProduct_add, dotProduct_add,
      dotProduct_comm (system.column ⟨j, inside⟩) (system.excess u)]
    ring
  rw [square]
  push_cast
  linarith

def after (system : HomogeneousSystem) (arithmetic : Arithmetic) (rounds : Nat) : Completion :=
  (system.round arithmetic)^[rounds] system.start

theorem after_succ (arithmetic : Arithmetic) (rounds : Nat) :
    system.after arithmetic (rounds + 1) = system.round arithmetic (system.after arithmetic rounds) :=
  Function.iterate_succ_apply' ..

private theorem progress_after (rounds : Nat) : Progress system (rounds + 1) (system.after .unbounded rounds) := by
  induction rounds with
  | zero => exact progress_start system
  | succ rounds ih =>
    rw [after_succ]
    exact ih.round (Nat.succ_pos rounds)

private theorem slow_after (rounds : Nat) : system.Slow (rounds + 1) (system.after .unbounded rounds) := by
  induction rounds with
  | zero => exact slow_start system
  | succ rounds ih =>
    rw [after_succ]
    exact ih.round (progress_after rounds)

private theorem not_le_candidate {s u : Fin system.columns → Nat} {rounds : Nat} (minimal : system.IsMinimal s)
    (candidate : List.ofFn u ∈ (system.after .unbounded rounds).frontier) (small : ∑ j, s j ≤ rounds) : ¬ s ≤ u := by
  intro below
  have progress : Progress system (rounds + 1) (system.after .unbounded rounds) := progress_after rounds
  rcases progress.covered s minimal with found | ⟨w, belowS, known⟩
  · have dominated := (dominates_ofFn u s).mpr below
    rw [progress.apart _ candidate _ found] at dominated
    cases dominated
  · have sizes := progress.sizes _ known
    rw [List.sum_ofFn] at sizes
    have smaller : ∑ j, w j ≤ ∑ j, s j := sum_le_sum fun j _ => belowS j
    omega

/-- An increasing sequence of candidates of ever later rounds. -/
structure Ascent (system : HomogeneousSystem) (rounds : Nat → Nat) (u : Nat → Fin system.columns → Nat) : Prop where
  later : StrictMono rounds
  mono : Monotone u
  candidate : ∀ m, List.ofFn (u m) ∈ (system.after .unbounded (rounds m)).frontier

/-- Componentwise order is a well-quasi-order on vectors, so an endless run has such a sequence. -/
theorem exists_ascent (endless : ∀ rounds, (system.after .unbounded rounds).frontier ≠ []) :
    ∃ rounds u, Ascent system rounds u := by
  have candidates (rounds : Nat) : ∃ u : Fin system.columns →
      Nat, List.ofFn u ∈ (system.after .unbounded rounds).frontier := by
    obtain ⟨v, member⟩ := List.exists_mem_of_ne_nil _ (endless rounds)
    obtain ⟨u, rfl⟩ := exists_ofFn ((progress_after rounds).vectors v (List.mem_append_right _ member))
    exact ⟨u, member⟩
  choose u candidate using candidates
  obtain ⟨rounds, mono⟩ := wellQuasiOrdered_le.exists_monotone_subseq u
  exact ⟨rounds, u ∘ rounds, rounds.strictMono, fun m n order => mono m n order, fun m => candidate (rounds m)⟩

variable {rounds : Nat → Nat} {u : Nat → Fin system.columns → Nat}

private theorem Ascent.sum_eq (ascent : Ascent system rounds u) (m : Nat) : ∑ j, u m j = rounds m + 1 := by
  have size := (progress_after (rounds m)).sizes _ (ascent.candidate m)
  rwa [List.sum_ofFn] at size

private theorem Ascent.exists_le (ascent : Ascent system rounds u) {w : Fin system.columns → Nat}
    (reached : ∀ j, ∃ m, w j ≤ u m j) : ∃ m, w ≤ u m := by
  choose m above using reached
  refine ⟨univ.sup m, ?_⟩
  intro j
  exact (above j).trans (ascent.mono (le_sup (mem_univ j)) j)

/-- Columns that grow without bound cannot cancel out: a minimal solution would lie below a candidate. -/
theorem Ascent.not_balanced (ascent : Ascent system rounds u) {growing : Finset (Fin system.columns)}
    (unbounded : ∀ j ∈ growing, ∀ b, ∃ m, b ≤ u m j) : ¬ Balanced system.column growing := by
  intro ⟨weight, ⟨k, chosen, positive⟩, cancel⟩
  let w : Fin system.columns → Nat := fun j => if j ∈ growing then weight j else 0
  have zero : system.excess w = 0 := by
    rw [excess_eq_sum, ← cancel, ← Finset.sum_subset (subset_univ growing)]
    · refine sum_congr rfl ?_
      intro j member
      simp only [w, if_pos member]
    · intro j _ absent
      simp only [w, if_neg absent, Nat.cast_zero, zero_smul]
  have solves : Solves system.rows w := by
    refine ⟨fun null => positive ?_, fun row member => ?_⟩
    · simpa [w, chosen] using congrFun null k
    · obtain ⟨i, inside, rfl⟩ := List.getElem_of_mem member
      exact congrFun zero ⟨i, inside⟩
  obtain ⟨s, below, minimal⟩ := exists_minimal_le_of_wellFoundedLT (Solves system.rows) w solves
  have reached (j : Fin system.columns) : ∃ m, w j ≤ u m j := by
    by_cases member : j ∈ growing
    · exact unbounded j member (w j)
    · exact ⟨0, by simp only [w, if_neg member, Nat.zero_le]⟩
  obtain ⟨m, above⟩ := ascent.exists_le reached
  have belowU := below.trans above
  have small : ∑ j, s j ≤ rounds (m + 1) := by
    have sizes : ∑ j, s j ≤ ∑ j, u m j := sum_le_sum fun j _ => belowU j
    rw [ascent.sum_eq] at sizes
    exact sizes.trans (ascent.later (Nat.lt_add_one m))
  exact not_le_candidate minimal (ascent.candidate (m + 1)) small (belowU.trans (ascent.mono (Nat.le_succ m)))

private theorem Ascent.exists_linear (ascent : Ascent system rounds u) {growing : Finset (Fin system.columns)}
    {bound : Fin system.columns → Nat} (bounded : ∀ j ∉ growing, ∀ m, u m j ≤ bound j)
    {y : Fin system.rows.length → ℤ} (points : ∀ j ∈ growing, 0 < y ⬝ᵥ system.column j) :
    ∃ lost : ℤ, 0 ≤ lost ∧ ∀ m, (rounds m + 1 : ℤ) - lost ≤ y ⬝ᵥ system.excess (u m) := by
  let share (j : Fin system.columns) : ℤ := bound j * (1 + |y ⬝ᵥ system.column j|)
  have shareNonneg (j : Fin system.columns) : 0 ≤ share j :=
    mul_nonneg (Int.natCast_nonneg _) (by linarith [abs_nonneg (y ⬝ᵥ system.column j)])
  refine ⟨∑ j, share j, sum_nonneg fun j _ => shareNonneg j, ?_⟩
  intro m
  have total : (rounds m + 1 : ℤ) = ∑ j, (u m j : ℤ) := by exact_mod_cast (ascent.sum_eq m).symm
  rw [dotProduct_excess, total, ← Finset.sum_sub_distrib]
  refine sum_le_sum ?_
  intro j _
  by_cases member : j ∈ growing
  · have one : (u m j : ℤ) ≤ u m j * (y ⬝ᵥ system.column j) :=
      le_mul_of_one_le_right (Int.natCast_nonneg _) (points j member)
    linarith [shareNonneg j]
  · have few : (u m j : ℤ) ≤ bound j := by exact_mod_cast bounded j member m
    have back : -((bound j : ℤ) * |y ⬝ᵥ system.column j|) ≤ u m j * (y ⬝ᵥ system.column j) := by
      have size := mul_le_mul_of_nonneg_right few (abs_nonneg (y ⬝ᵥ system.column j))
      have below := mul_le_mul_of_nonneg_left (neg_abs_le (y ⬝ᵥ system.column j)) (Int.natCast_nonneg (u m j))
      linarith
    simp only [share]
    linarith

/-- Columns that grow without bound cannot all point into one direction either: the square of the
defect would outgrow what the rounds add to it. -/
theorem Ascent.not_directed (ascent : Ascent system rounds u) {growing : Finset (Fin system.columns)}
    {bound : Fin system.columns → Nat} (bounded : ∀ j ∉ growing, ∀ m, u m j ≤ bound j) :
    ¬ Directed system.column growing := by
  intro ⟨y, points⟩
  obtain ⟨lost, lostNonneg, linear⟩ := ascent.exists_linear bounded points
  have growthNonneg : 0 ≤ (y ⬝ᵥ y) * system.growth :=
    mul_nonneg (square_nonneg y) (sum_nonneg fun j _ => square_nonneg (system.column j))
  -- After so many rounds the linear bound has overtaken the square root.
  obtain ⟨m, late⟩ : ∃ m : ℕ, (m : ℤ) = 2 * lost + 4 * ((y ⬝ᵥ y) * system.growth) :=
    ⟨_, Int.toNat_of_nonneg (by linarith)⟩
  have enough : (m : ℤ) ≤ rounds m := by exact_mod_cast ascent.later.id_le m
  have along := linear m
  have slow := slow_after (rounds m) (u m) (ascent.candidate m)
  have schwarz : (y ⬝ᵥ system.excess (u m)) ^ 2 ≤ (y ⬝ᵥ y) * (system.excess (u m) ⬝ᵥ system.excess (u m)) := by
    simpa only [dotProduct, ← sq] using sum_mul_sq_le_sq_mul_sq univ y (system.excess (u m))
  have square := schwarz.trans (mul_le_mul_of_nonneg_left slow (square_nonneg y))
  push_cast at square
  nlinarith

variable (system)

/-- Some round leaves no candidate. -/
theorem exists_frontier_empty : ∃ rounds, (system.after .unbounded rounds).frontier = [] := by
  by_contra endless
  push Not at endless
  obtain ⟨rounds, u, ascent⟩ := exists_ascent endless
  classical
  let growing : Finset (Fin system.columns) := univ.filter fun j => ∀ b, ∃ m, b ≤ u m j
  have bounded (j : Fin system.columns) : ∃ b, j ∉ growing → ∀ m, u m j ≤ b := by
    by_cases member : j ∈ growing
    · exact ⟨0, fun absent => absurd member absent⟩
    · obtain ⟨b, below⟩ : ∃ b, ∀ m, u m j < b := by simpa [growing] using member
      exact ⟨b, fun _ m => (below m).le⟩
  choose bound bounded using bounded
  rcases balanced_or_directed system.column growing with balanced | directed
  · exact ascent.not_balanced (fun j member => (mem_filter.mp member).2) balanced
  · exact ascent.not_directed bounded directed

variable {system}

private theorem exists_ends_of_frontier_empty {arithmetic : Arithmetic} {last rounds : Nat}
    (none : (system.after arithmetic last).frontier = []) (maxFrontier : Nat) (before : rounds ≤ last) :
    ∃ outcome, system.Ends arithmetic maxFrontier (system.after arithmetic rounds) outcome := by
  obtain ⟨more, rfl⟩ := Nat.exists_eq_add_of_le before
  induction more generalizing rounds with
  | zero => exact ⟨_, .done none⟩
  | succ more ih =>
    by_cases empty : (system.after arithmetic rounds).frontier = []
    · exact ⟨_, .done empty⟩
    · rcases Nat.lt_or_ge maxFrontier (system.round arithmetic (system.after arithmetic rounds)).frontier.length
        with many | few
      · exact ⟨_, .limit empty many⟩
      · obtain ⟨outcome, later⟩ := @ih (rounds + 1) (by rwa [Nat.add_right_comm]) (Nat.le_add_right ..)
        rw [after_succ] at later
        exact ⟨outcome, .round empty few later⟩

variable (system)

theorem exists_ends (maxFrontier : Nat) : ∃ outcome, system.Ends .unbounded maxFrontier system.start outcome := by
  obtain ⟨last, none⟩ := exists_frontier_empty system
  exact exists_ends_of_frontier_empty none maxFrontier (Nat.zero_le last)

variable {system} {maxFrontier : Nat}

/-- What completion finds are the minimal solutions, each once. -/
theorem mem_minimalSolutions {basis : List (List Nat)}
    (solved : system.minimalSolutions .unbounded maxFrontier = .ok basis) :
    basis.Nodup ∧ (∀ b ∈ basis, b.length = system.columns) ∧ ∀ s, List.ofFn s ∈ basis ↔ system.IsMinimal s := by
  obtain ⟨outcome, ends⟩ := exists_ends system maxFrontier
  rw [minimalSolutions, ends.complete_eq] at solved
  rcases (progress_start system).of_ends Nat.one_pos ends with ⟨last, found, same, progress⟩ | limited
  · obtain rfl : basis = found := by rwa [same, Except.ok.injEq, eq_comm] at solved
    refine ⟨progress.distinctBasis, fun b member => progress.vectors b (List.mem_append_left _ member), ?_⟩
    intro s
    refine ⟨progress.minimal s, fun minimal => (progress.covered s minimal).resolve_right ?_⟩
    intro ⟨u, _, candidate⟩
    cases candidate
  · rw [limited] at solved
    cases solved

/-- Completion fails only at the limit. -/
theorem limitReached_of_minimalSolutions {failure : Failure}
    (failed : system.minimalSolutions .unbounded maxFrontier = .error failure) :
    failure = .limitReached (.frontier maxFrontier) := by
  obtain ⟨outcome, ends⟩ := exists_ends system maxFrontier
  rw [minimalSolutions, ends.complete_eq] at failed
  rcases (progress_start system).of_ends Nat.one_pos ends with ⟨_, _, found, _⟩ | limited
  · rw [found] at failed
    cases failed
  · rw [limited] at failed
    exact (Except.error.inj failed).symm

/-- What is found for a system that was built from rows are the minimal solutions of these rows. -/
theorem mem_minimalSolutions_of_rows {rows : List (List Int)} {grown : HomogeneousSystem} {basis : List (List Nat)}
    (empty : system.rows = []) (added : rows.foldlM addRow system = .ok grown)
    (solved : grown.minimalSolutions .unbounded maxFrontier = .ok basis) :
    basis.Nodup ∧ (∀ b ∈ basis, b.length = system.columns) ∧
      ∀ v : Fin system.columns → Nat, List.ofFn v ∈ basis ↔ Minimal (Solves rows) v := by
  obtain ⟨width, solutions⟩ := rows_of_foldlM added
  rw [← width]
  obtain ⟨distinct, lengths, minimal⟩ := mem_minimalSolutions solved
  refine ⟨distinct, lengths, ?_⟩
  intro v
  have same (w : Fin grown.columns → Nat) : Solves grown.rows w ↔ Solves rows w :=
    and_congr_right fun _ => by simpa [empty] using solutions w
  rw [minimal v]
  exact minimal_iff_minimal_of_imp_of_forall (fun w holds => (same w).mpr holds)
    fun w holds => ⟨w, le_rfl, (same w).mp holds⟩

end Equational.HomogeneousSystem
