import Equational.Proofs.Diophantine.Termination
import Mathlib

/-! Completion in machine words. A sum of products of words is a word of the sum of the products, so
as long as what a round computes fits into words the round is the one that computes with numbers of
any size. Up to the first number that does not fit the loop is therefore exact. After it minimal
solutions may be lost, and the loop need not end. -/

namespace Equational.HomogeneousSystem

private theorem coefficient_words (a : Int) : Arithmetic.words.coefficient a = a.bmod (2 ^ 64) :=
  Int64.toInt_ofInt

private theorem rowValue_words (row : List Int) (v : List Nat) :
    rowValue .words row v = (rowValue .unbounded row v).bmod (2 ^ 64) := by
  induction row generalizing v with
  | nil => simp [rowValue]
  | cons a row ih =>
    cases v with
    | nil => simp [rowValue]
    | cons x v =>
      rw [rowValue, coefficient_words, coefficient_words, ih, rowValue_cons, ← Int.add_bmod, Int.ofNat_eq_natCast]

private theorem dot_words (as bs : List Int) : dot .words as bs = (dot .unbounded as bs).bmod (2 ^ 64) := by
  induction as generalizing bs with
  | nil => simp [dot]
  | cons a as ih =>
    cases bs with
    | nil => simp [dot]
    | cons b bs => rw [dot, coefficient_words, coefficient_words, ih, dot_cons, ← Int.add_bmod]

def IsWord (a : Int) : Prop :=
  -2 ^ 63 ≤ a ∧ a < 2 ^ 63

instance (a : Int) : Decidable (IsWord a) :=
  inferInstanceAs (Decidable (_ ∧ _))

private theorem IsWord.bmod_eq {a : Int} (word : IsWord a) : a.bmod (2 ^ 64) = a := by
  obtain ⟨low, high⟩ := word
  apply Int.bmod_eq_of_le <;> omega

/-- What a round computes for a candidate fits into words. -/
structure InRange (system : HomogeneousSystem) (v : List Nat) : Prop where
  defect : ∀ d ∈ system.defect .unbounded v, IsWord d
  products : ∀ p ∈ system.unitDefects, IsWord (dot .unbounded (system.defect .unbounded v) p.2)
  components : ∀ w ∈ system.successors .unbounded system.unitDefects v, ∀ x ∈ w, x < 2 ^ 32

instance (system : HomogeneousSystem) (v : List Nat) : Decidable (system.InRange v) :=
  decidable_of_iff ((∀ d ∈ system.defect .unbounded v, IsWord d) ∧
      (∀ p ∈ system.unitDefects, IsWord (dot .unbounded (system.defect .unbounded v) p.2)) ∧
      ∀ w ∈ system.successors .unbounded system.unitDefects v, ∀ x ∈ w, x < 2 ^ 32)
    ⟨fun ⟨defect, products, components⟩ => ⟨defect, products, components⟩,
     fun ⟨defect, products, components⟩ => ⟨defect, products, components⟩⟩

section Round

variable {system : HomogeneousSystem} {v : List Nat}

private theorem InRange.defect_words (inRange : system.InRange v) :
    system.defect .words v = system.defect .unbounded v := by
  refine List.map_congr_left fun row member => ?_
  rw [rowValue_words]
  exact (inRange.defect _ (List.mem_map_of_mem (f := (rowValue .unbounded · v)) member)).bmod_eq

private theorem InRange.isSolution_words (inRange : system.InRange v) :
    system.isSolution .words v = system.isSolution .unbounded v := by
  rw [isSolution, isSolution, inRange.defect_words]

private theorem modify_words {j : Nat} (fits : ∀ x ∈ v.modify j (· + 1), x < 2 ^ 32) :
    (v.modify j fun x => Arithmetic.words.component (x + 1)) = v.modify j (· + 1) := by
  refine List.ext_getElem (by simp) fun i inside inside' => ?_
  have word := fits _ (List.getElem_mem inside')
  rw [List.getElem_modify] at word ⊢
  rw [List.getElem_modify]
  split
  next same =>
    rw [if_pos same] at word
    exact Nat.mod_eq_of_lt word
  next => rfl

private theorem InRange.successors_words (inRange : system.InRange v) :
    system.successors .words system.unitDefects v = system.successors .unbounded system.unitDefects v := by
  refine List.filterMap_congr fun p member => ?_
  have product : dot .words (system.defect .words v) p.2 = dot .unbounded (system.defect .unbounded v) p.2 := by
    rw [inRange.defect_words, dot_words, (inRange.products p member).bmod_eq]
  simp only [product]
  split
  next points =>
    rw [modify_words]
    · rfl
    · refine inRange.components _ (List.mem_filterMap.mpr ⟨p, member, ?_⟩)
      exact if_pos points
  next => rfl

private theorem round_words {state : Completion} (inRange : ∀ v ∈ state.frontier, system.InRange v) :
    system.round .words state = system.round .unbounded state := by
  have solutions : state.frontier.filter (system.isSolution .words) =
      state.frontier.filter (system.isSolution .unbounded) :=
    List.filter_congr fun v member => (inRange v member).isSolution_words
  have unsolved : state.frontier.filter (fun v => !system.isSolution .words v) =
      state.frontier.filter fun v => !system.isSolution .unbounded v :=
    List.filter_congr fun v member => by rw [(inRange v member).isSolution_words]
  have grown :
      (state.frontier.filter fun v => !system.isSolution .unbounded v).flatMap
          (system.successors .words system.unitDefects) =
        (state.frontier.filter fun v => !system.isSolution .unbounded v).flatMap
          (system.successors .unbounded system.unitDefects) :=
    List.flatMap_congr fun v member => (inRange v (List.mem_of_mem_filter member)).successors_words
  simp only [round, List.partition_eq_filter_filter, Function.comp_def, solutions, unsolved, grown]

end Round

/-- In a round that the loop comes to some number does not fit. -/
def Overflows (system : HomogeneousSystem) (maxFrontier : Nat) : Prop :=
  ∃ rounds, (∀ k < rounds, (system.after .words (k + 1)).frontier.length ≤ maxFrontier) ∧
    ∃ v ∈ (system.after .words rounds).frontier, ¬ system.InRange v

section Run

variable {system : HomogeneousSystem} {maxFrontier rounds : Nat}

private theorem frontier_after_add {arithmetic : Arithmetic} (none : (system.after arithmetic rounds).frontier = [])
    (more : Nat) :
    (system.after arithmetic (rounds + more)).frontier = [] := by
  induction more with
  | zero => exact none
  | succ more ih =>
    refine List.eq_nil_iff_forall_not_mem.mpr fun w member => ?_
    rw [← Nat.add_assoc, after_succ] at member
    obtain ⟨⟨v, candidate, _⟩, _⟩ := mem_frontier_round.mp member
    rw [ih] at candidate
    cases candidate

private theorem not_overflows_of_frontier_empty (rounds : Nat) (none : (system.after .words rounds).frontier = [])
    (inRange : ∀ k < rounds, ∀ v ∈ (system.after .words k).frontier, system.InRange v) :
    ¬ system.Overflows maxFrontier := by
  intro ⟨k, _, v, member, out⟩
  rcases Nat.lt_or_ge k rounds with before | after
  · exact out (inRange k before v member)
  · obtain ⟨more, rfl⟩ := Nat.exists_eq_add_of_le after
    rw [frontier_after_add none] at member
    cases member

variable (fits : ¬ system.Overflows maxFrontier)
include fits

private theorem inRange_of_not_overflows
    (few : ∀ k < rounds, (system.after .words (k + 1)).frontier.length ≤ maxFrontier) :
    ∀ v ∈ (system.after .words rounds).frontier, system.InRange v := by
  intro v member
  by_contra out
  exact fits ⟨rounds, few, v, member, out⟩

private theorem round_after_words (few : ∀ k < rounds, (system.after .words (k + 1)).frontier.length ≤ maxFrontier) :
    system.round .words (system.after .words rounds) = system.round .unbounded (system.after .words rounds) :=
  round_words (inRange_of_not_overflows fits few)

/-- The loop ends as it does with numbers of any size. -/
theorem Ends.words {state : Completion} {outcome : Except Failure (List (List Nat))}
    (few : ∀ k < rounds, (system.after .words (k + 1)).frontier.length ≤ maxFrontier)
    (reached : system.after .words rounds = state) (ends : system.Ends .unbounded maxFrontier state outcome) :
    system.Ends .words maxFrontier state outcome := by
  induction ends generalizing rounds with
  | done none => exact .done none
  | limit some many =>
    have same := round_after_words fits few
    rw [reached] at same
    exact .limit some (same ▸ many)
  | round some less later ih =>
    have same := round_after_words fits few
    rw [reached] at same
    have next := (after_succ Arithmetic.words rounds).trans ((congrArg _ reached).trans same)
    refine .round some (same ▸ less) ?_
    rw [same]
    refine ih (fun k before => ?_) next
    rcases Nat.lt_succ_iff_lt_or_eq.mp before with earlier | rfl
    · exact few k earlier
    · rwa [next]

private theorem exists_ends_words : ∃ outcome, system.Ends .words maxFrontier system.start outcome ∧
    system.Ends .unbounded maxFrontier system.start outcome := by
  obtain ⟨outcome, ends⟩ := exists_ends system maxFrontier
  exact ⟨outcome, ends.words fits (fun _ before => absurd before (Nat.not_lt_zero _)) rfl, ends⟩

/-- Unless it overflows, completion in words finds what completion with numbers of any size finds. -/
theorem minimalSolutions_words :
    system.minimalSolutions .words maxFrontier = system.minimalSolutions .unbounded maxFrontier := by
  obtain ⟨outcome, words, unbounded⟩ := exists_ends_words fits
  rw [minimalSolutions, minimalSolutions, words.complete_eq, unbounded.complete_eq]

end Run

section Chain

variable {system : HomogeneousSystem}

/-- An endless chain of candidates that starts in the frontier of some round: each is a successor of
the one before and lies above no solution found by then. -/
structure Chain (system : HomogeneousSystem) (arithmetic : Arithmetic) (first : Nat) (chain : Nat → List Nat) :
    Prop where
  start : chain 0 ∈ (system.after arithmetic first).frontier
  grows : ∀ k, chain (k + 1) ∈ system.successors arithmetic system.unitDefects (chain k)
  apart : ∀ k, ∀ b ∈ (system.after arithmetic (first + (k + 1))).basis, dominates (chain (k + 1)) b = false

private theorem unsolved_of_mem_successors {v w : List Nat}
    (grown : w ∈ system.successors .unbounded system.unitDefects v) :
    system.isSolution .unbounded v = false := by
  obtain ⟨j, _, points, _⟩ := mem_successors.mp grown
  by_contra solution
  rw [Bool.not_eq_false, isSolution, Bool.and_eq_true, List.all_eq_true] at solution
  have zero : dot .unbounded (system.defect .unbounded v) (system.rows.map (·.getD j 0)) = 0 := by
    rw [defect, dot_map]
    refine Finset.sum_eq_zero ?_
    intro i _
    have entry := solution.2 _ (List.mem_map_of_mem (f := (rowValue .unbounded · v)) (List.getElem_mem i.isLt))
    rw [beq_iff_eq] at entry
    rw [Fin.getElem_fin, entry, zero_mul]
  omega

variable (fits : ∀ maxFrontier, ¬ system.Overflows maxFrontier)
include fits

private theorem inRange_after (rounds : Nat) : ∀ v ∈ (system.after .words rounds).frontier, system.InRange v := by
  refine inRange_of_not_overflows
    (fits ((Finset.range rounds).sup fun k => (system.after .words (k + 1)).frontier.length)) fun k before => ?_
  exact Finset.le_sup (f := fun k => (system.after .words (k + 1)).frontier.length) (Finset.mem_range.mpr before)

private theorem after_words (rounds : Nat) : system.after .words rounds = system.after .unbounded rounds := by
  induction rounds with
  | zero => rfl
  | succ rounds ih => rw [after_succ, after_succ, round_words (inRange_after fits rounds), ih]

private theorem Chain.candidate {first : Nat} {chain : Nat → List Nat}
    (endless : system.Chain .words first chain) (k : Nat) :
    chain k ∈ (system.after .words (first + k)).frontier := by
  induction k with
  | zero => exact endless.start
  | succ k ih =>
    have inRange := inRange_after fits _ _ ih
    have grown := endless.grows k
    rw [inRange.successors_words] at grown
    have unsolved := unsolved_of_mem_successors grown
    rw [← inRange.isSolution_words] at unsolved
    have apart := endless.apart k
    rw [← Nat.add_assoc, after_succ] at apart ⊢
    exact mem_frontier_round.mpr ⟨⟨_, ih, unsolved, endless.grows k⟩, apart⟩

private theorem not_chain (first : Nat) (chain : Nat → List Nat) : ¬ system.Chain .words first chain := by
  intro endless
  obtain ⟨last, none⟩ := exists_frontier_empty system
  rw [← after_words fits] at none
  have member := endless.candidate fits last
  rw [Nat.add_comm, frontier_after_add none first] at member
  cases member

end Chain

/-- In words completion is exact unless it overflows: without repetition it lists the minimal
elements, in the componentwise order, of the non-zero solutions of the rows. -/
theorem minimalSolutions_exact {columns maxFrontier : Nat} {rows : List (List Int)} {system : HomogeneousSystem}
    {basis : List (List Nat)} (added : rows.foldlM addRow { columns } = .ok system)
    (fits : ¬ system.Overflows maxFrontier) (solved : system.minimalSolutions .words maxFrontier = .ok basis) :
    basis.Nodup ∧ (∀ b ∈ basis, b.length = columns) ∧ ∀ v : Fin columns → Nat,
      List.ofFn v ∈ basis ↔
        Minimal (fun w : Fin columns → Nat =>
          w ≠ 0 ∧ ∀ row ∈ rows, ∑ j : Fin columns, row.getD j 0 * (w j : Int) = 0) v := by
  rw [minimalSolutions_words fits] at solved
  obtain ⟨distinct, lengths, minimal⟩ := mem_minimalSolutions_of_rows rfl added solved
  exact ⟨distinct, lengths, fun v => minimal v⟩

theorem minimalSolutions_exact_weighted :
    let system : HomogeneousSystem := { columns := 3, rows := [[2, -1, -1]] }
    [[2, -1, -1]].foldlM addRow { columns := 3 } = .ok system ∧ ¬ system.Overflows 1000 ∧
      system.minimalSolutions .words 1000 = .ok [[1, 2, 0], [1, 1, 1], [1, 0, 2]] ∧
      ∀ v : Fin 3 → Nat, List.ofFn v ∈ [[1, 2, 0], [1, 1, 1], [1, 0, 2]] ↔
        Minimal (fun w : Fin 3 → Nat =>
          w ≠ 0 ∧ ∀ row ∈ [[2, -1, -1]], ∑ j : Fin 3, row.getD j 0 * (w j : Int) = 0) v := by
  intro system
  have added : [[2, -1, -1]].foldlM addRow { columns := 3 } = .ok system := rfl
  have fits : ¬ system.Overflows 1000 := not_overflows_of_frontier_empty 4 (by decide) (by decide)
  have solved : system.minimalSolutions .words 1000 = .ok [[1, 2, 0], [1, 1, 1], [1, 0, 2]] := by cbv
  exact ⟨added, fits, solved, (minimalSolutions_exact added fits solved).2.2⟩

/-- The product of `2 ^ 32` with itself leaves nothing of a word, so no candidate grows and the one
minimal solution is missed. -/
theorem minimalSolutions_misses :
    let system : HomogeneousSystem := { columns := 2, rows := [[2 ^ 32, -2 ^ 32]] }
    [[2 ^ 32, -2 ^ 32]].foldlM addRow { columns := 2 } = .ok system ∧ system.minimalSolutions .words 100000 = .ok [] ∧
      Minimal (fun w : Fin 2 → Nat =>
        w ≠ 0 ∧ ∀ row ∈ [[2 ^ 32, -2 ^ 32]], ∑ j : Fin 2, row.getD j 0 * (w j : Int) = 0) ![1, 1] := by
  refine ⟨rfl, by cbv, ⟨by simp, by simp⟩, ?_⟩
  intro w solves below j
  obtain ⟨nonzero, equal⟩ := solves
  have same : (w 0 : Int) = w 1 := by
    have row := equal _ (List.mem_singleton_self _)
    simp [Fin.sum_univ_two] at row
    omega
  have some : w 0 ≠ 0 := fun zero => nonzero (funext fun i => by fin_cases i <;> simp <;> omega)
  fin_cases j <;> simp <;> omega

/-- Unless it overflows completion ends, whatever the limit, and no chain of candidates goes on for
ever. -/
theorem completion_terminates (system : HomogeneousSystem) :
    (∀ maxFrontier, system.Overflows maxFrontier ∨ ∃ outcome, system.Ends .words maxFrontier system.start outcome) ∧
      ∀ first chain, (∃ maxFrontier, system.Overflows maxFrontier) ∨ ¬ system.Chain .words first chain := by
  refine ⟨fun maxFrontier => ?_, fun first chain => ?_⟩
  · refine Classical.or_iff_not_imp_left.mpr fun fits => ?_
    obtain ⟨outcome, ends, _⟩ := exists_ends_words fits
    exact ⟨outcome, ends⟩
  · refine Classical.or_iff_not_imp_left.mpr fun fits => ?_
    exact not_chain (not_exists.mp fits) first chain

section Endless

/-- Half of the first coefficient in the second column: of the products only the parity of the first
component is left. -/
def halves : HomogeneousSystem where
  columns := 2
  rows := [[2 ^ 32, 2 ^ 31]]

private theorem successors_halves (x y : Nat) : halves.successors .words halves.unitDefects [x, y] =
    (if dot .words (halves.defect .words [x, y]) [2 ^ 32] < 0 then [[(x + 1) % 2 ^ 32, y]] else []) ++
      if dot .words (halves.defect .words [x, y]) [2 ^ 31] < 0 then [[x, (y + 1) % 2 ^ 32]] else [] := by
  have units : halves.unitDefects = [(0, [2 ^ 32]), (1, [2 ^ 31])] := rfl
  rw [successors, units]
  by_cases first : dot .words (halves.defect .words [x, y]) [2 ^ 32] < 0 <;>
    by_cases second : dot .words (halves.defect .words [x, y]) [2 ^ 31] < 0 <;>
    simp only [List.filterMap_cons, List.filterMap_nil, first, second, if_true, if_false] <;> rfl

private theorem rowValue_halves (x y : Nat) :
    rowValue .words [2 ^ 32, 2 ^ 31] [x, y] = (2 ^ 32 * x + 2 ^ 31 * y : Int).bmod (2 ^ 64) := by
  rw [rowValue_words, rowValue_cons, rowValue_cons]
  exact congrArg (Int.bmod · (2 ^ 64)) (congrArg _ (add_zero _))

private theorem dot_halves (x y : Nat) (c : Int) :
    dot .words (halves.defect .words [x, y]) [c] = ((2 ^ 32 * x + 2 ^ 31 * y) * c).bmod (2 ^ 64) := by
  have defects : halves.defect .words [x, y] = [(2 ^ 32 * x + 2 ^ 31 * y : Int).bmod (2 ^ 64)] := by
    rw [← rowValue_halves]
    rfl
  have product (a : Int) : dot .unbounded [a] [c] = a * c := add_zero _
  rw [defects, dot_words, product, Int.bmod_mul_bmod]

private theorem successors_one (x : Nat) : halves.successors .words halves.unitDefects [x, 1] =
    [(x + 1) % 2 ^ 32, 1] :: if x % 2 = 1 then [[x, 2]] else [] := by
  have first : dot .words (halves.defect .words [x, 1]) [2 ^ 32] = -2 ^ 63 := by
    rw [dot_halves, Int.bmod_eq_iff (by decide)]
    omega
  have second : dot .words (halves.defect .words [x, 1]) [2 ^ 31] = if x % 2 = 1 then -2 ^ 62 else 2 ^ 62 := by
    rw [dot_halves, Int.bmod_eq_iff (by decide)]
    split <;> omega
  rw [successors_halves, first, second, if_pos (by decide)]
  by_cases odd : x % 2 = 1
  · rw [if_pos odd, if_pos odd]
    rfl
  · rw [if_neg odd, if_neg odd]
    rfl

private theorem successors_two {x : Nat} (odd : x % 2 = 1) :
    halves.successors .words halves.unitDefects [x, 2] = [] := by
  have first : dot .words (halves.defect .words [x, 2]) [2 ^ 32] = 0 := by
    rw [dot_halves, Int.bmod_eq_iff (by decide)]
    omega
  have second : dot .words (halves.defect .words [x, 2]) [2 ^ 31] = 0 := by
    rw [dot_halves, Int.bmod_eq_iff (by decide)]
    omega
  rw [successors_halves, first, second]
  rfl

/-- The second candidate, where there is one, has no successor, and no solution is below the first. -/
structure Endless (x : Nat) (state : Completion) : Prop where
  frontier : state.frontier = [[x, 1]] ∨ ∃ y, y % 2 = 1 ∧ state.frontier = [[x, 1], [y, 2]]
  basis : ∀ b ∈ state.basis, ∃ y, b = [y, 2]

private theorem isSolution_one (x : Nat) : halves.isSolution .words [x, 1] = false := by
  by_contra solution
  rw [Bool.not_eq_false, isSolution, Bool.and_eq_true, List.all_eq_true] at solution
  have zero := solution.2 _ (List.mem_map_of_mem (List.mem_singleton_self _))
  rw [beq_iff_eq, rowValue_halves, Int.bmod_eq_iff (by decide)] at zero
  omega

private theorem Endless.solutions {x : Nat} {state : Completion} (endless : Endless x state) :
    ∀ b ∈ (halves.round .words state).basis, ∃ y, b = [y, 2] := by
  rw [basis_round]
  intro b member
  rcases List.mem_append.mp member with known | found
  · exact endless.basis b known
  · obtain ⟨candidate, solution⟩ := List.mem_filter.mp found
    rcases endless.frontier with alone | ⟨y, _, both⟩
    · rw [alone, List.mem_singleton] at candidate
      rw [candidate, isSolution_one] at solution
      cases solution
    · rw [both, List.mem_cons, List.mem_singleton] at candidate
      rcases candidate with rfl | rfl
      · rw [isSolution_one] at solution
        cases solution
      · exact ⟨y, rfl⟩

private theorem Endless.grown {x : Nat} {state : Completion} (endless : Endless x state) :
    (state.frontier.filter fun v => !halves.isSolution .words v).flatMap
      (halves.successors .words halves.unitDefects) =
        [(x + 1) % 2 ^ 32, 1] :: if x % 2 = 1 then [[x, 2]] else [] := by
  rcases endless.frontier with alone | ⟨y, odd, both⟩
  · rw [alone, List.filter_cons_of_pos (by simp [isSolution_one]), List.filter_nil, List.flatMap_singleton,
      successors_one]
  · have dead : ([[y, 2]].filter fun v => !halves.isSolution .words v).flatMap
        (halves.successors .words halves.unitDefects) = [] :=
      List.flatMap_eq_nil_iff.mpr fun v member => by
        rw [List.mem_singleton.mp (List.mem_of_mem_filter member), successors_two odd]
    rw [both, List.filter_cons_of_pos (by simp [isSolution_one]), List.flatMap_cons, successors_one, dead,
      List.append_nil]

private theorem Endless.round {x : Nat} {state : Completion} (endless : Endless x state) :
    Endless ((x + 1) % 2 ^ 32) (halves.round .words state) := by
  have free : ((halves.round .words state).basis.any (dominates [(x + 1) % 2 ^ 32, 1])) = false := by
    refine List.any_eq_false.mpr fun b member => ?_
    obtain ⟨y, rfl⟩ := endless.solutions b member
    simp [dominates]
  refine ⟨?_, endless.solutions⟩
  rw [frontier_round, endless.grown, List.filter_cons_of_pos (by rw [free]; rfl)]
  by_cases odd : x % 2 = 1
  · rw [if_pos odd]
    cases dominated : (halves.round .words state).basis.any (dominates [x, 2]) with
    | true => exact .inl (by simp [dominated, distinct, VectorSet.contains_empty])
    | false =>
      refine .inr ⟨x, odd, ?_⟩
      simp [dominated, distinct, VectorSet.contains_empty, VectorSet.contains_insert]
  · rw [if_neg odd]
    exact .inl (by simp [distinct, VectorSet.contains_empty])

private theorem Endless.not_ends {x maxFrontier : Nat} {state : Completion}
    {outcome : Except Failure (List (List Nat))}
    (endless : Endless x state) (two : 2 ≤ maxFrontier) : ¬ halves.Ends .words maxFrontier state outcome := by
  intro ends
  induction ends generalizing x with
  | done none =>
    rcases endless.frontier with alone | ⟨_, _, both⟩
    · cases alone.symm.trans none
    · cases both.symm.trans none
  | limit _ many =>
    rcases endless.round.frontier with alone | ⟨_, _, both⟩
    · rw [alone, List.length_singleton] at many
      omega
    · rw [both, List.length_cons, List.length_singleton] at many
      omega
  | round _ _ _ ih => exact ih endless.round

private theorem endless_after (rounds : Nat) :
    Endless ((rounds + 1) % 2 ^ 32) (halves.after .words (rounds + 1)) := by
  induction rounds with
  | zero =>
    have none : (halves.after .words 1).basis = [] := by decide
    exact ⟨.inl (by decide), fun b known => absurd (none ▸ known) List.not_mem_nil⟩
  | succ rounds ih =>
    rw [after_succ, ← Nat.mod_add_mod]
    exact ih.round

/-- The first component of a candidate wraps around and starts again from zero, so the loop does not
end, although there is no solution to be found. -/
theorem completion_goes_on :
    [[2 ^ 32, 2 ^ 31]].foldlM addRow { columns := 2 } = .ok halves ∧
      halves.minimalSolutions .unbounded 100000 = .ok [] ∧
      (¬ ∃ outcome, halves.Ends .words 100000 halves.start outcome) ∧
        halves.Chain .words 1 fun k => [(k + 1) % 2 ^ 32, 1] := by
  refine ⟨rfl, by cbv, fun ⟨outcome, ends⟩ => ?_, ?chain⟩
  · cases ends with
    | done none => exact absurd none (by decide)
    | limit _ many => exact absurd many (by decide)
    | round _ _ later => exact (endless_after 0).not_ends (by decide) later
  case chain =>
    refine ⟨by decide, fun k => ?_, fun k b known => ?_⟩
    · rw [successors_one, Nat.mod_add_mod]
      exact List.mem_cons_self ..
    · rw [Nat.add_comm] at known
      obtain ⟨y, rfl⟩ := (endless_after _).basis b known
      simp [dominates]

end Endless

end Equational.HomogeneousSystem
