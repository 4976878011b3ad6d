import Equational.Proofs.Diophantine.Direction
import Equational.Proofs.Failure
import Mathlib.Data.List.GetD

/-! Completion finds exactly the minimal solutions. All candidates of a round have the same sum and
none lies above a solution found, so a candidate that solves the system is minimal. Below every
minimal solution that is not yet found there is a candidate, and none can be left when the
frontier is empty. -/

namespace Equational.HomogeneousSystem

private theorem mem_distinct {seen : VectorSet} {v : List Nat} {vs : List (List Nat)} :
    v ∈ distinct seen vs ↔ v ∈ vs ∧ seen.contains v = false := by
  induction vs generalizing seen with
  | nil => simp [distinct]
  | cons w vs ih =>
    simp only [distinct]
    split
    next known =>
      rw [ih, List.mem_cons]
      refine and_congr_left fun new => ⟨.inr, fun member => member.resolve_left ?_⟩
      intro same
      rw [same, known] at new
      cases new
    next unknown =>
      rw [List.mem_cons, List.mem_cons, ih, VectorSet.contains_insert, Bool.or_eq_false_iff, beq_eq_false_iff_ne]
      by_cases same : v = w
      · subst same
        simpa using unknown
      · simp [same]

private theorem nodup_distinct (seen : VectorSet) (vs : List (List Nat)) : (distinct seen vs).Nodup := by
  induction vs generalizing seen with
  | nil => exact List.nodup_nil
  | cons w vs ih =>
    simp only [distinct]
    split
    · exact ih seen
    · refine List.nodup_cons.mpr ⟨fun member => ?_, ih _⟩
      have absent := (mem_distinct.mp member).2
      simp [VectorSet.contains_insert] at absent

theorem mem_successors {system : HomogeneousSystem} {v w : List Nat} :
    w ∈ system.successors .unbounded system.unitDefects v ↔
      ∃ j < system.columns, dot .unbounded (system.defect .unbounded v) (system.rows.map (·.getD j 0)) < 0 ∧
      w = v.modify j (· + 1) := by
  simp only [successors, unitDefects, List.mem_filterMap, List.mem_map, List.mem_range, Option.ite_none_right_eq_some,
    Option.some.injEq]
  constructor
  · intro ⟨direction, known, points, grown⟩
    obtain ⟨j, inside, rfl⟩ := known
    exact ⟨j, inside, points, grown.symm⟩
  · intro ⟨j, inside, points, grown⟩
    subst grown
    exact ⟨_, ⟨j, inside, rfl⟩, points, rfl⟩

theorem basis_round (system : HomogeneousSystem) (arithmetic : Arithmetic) (state : Completion) :
    (system.round arithmetic state).basis = state.basis ++ state.frontier.filter (system.isSolution arithmetic) := by
  simp [round, List.partition_eq_filter_filter]

theorem frontier_round (system : HomogeneousSystem) (arithmetic : Arithmetic) (state : Completion) :
    (system.round arithmetic state).frontier = distinct .empty
      (((state.frontier.filter fun v => !system.isSolution arithmetic v).flatMap
        (system.successors arithmetic system.unitDefects)).filter fun v =>
          !(system.round arithmetic state).basis.any (dominates v)) := by
  rw [basis_round]
  simp only [round, List.partition_eq_filter_filter, Function.comp_def]

theorem mem_frontier_round {system : HomogeneousSystem} {arithmetic : Arithmetic} {state : Completion}
    {w : List Nat} :
    w ∈ (system.round arithmetic state).frontier ↔
      (∃ v ∈ state.frontier, system.isSolution arithmetic v = false ∧
        w ∈ system.successors arithmetic system.unitDefects v) ∧
        ∀ b ∈ (system.round arithmetic state).basis, dominates w b = false := by
  rw [frontier_round, mem_distinct, List.mem_filter]
  simp [VectorSet.contains_empty, and_assoc]

abbrev IsMinimal (system : HomogeneousSystem) (s : Fin system.columns → Nat) : Prop :=
  Minimal (Solves system.rows) s

/-- What holds after every round. The candidates are as large as the number of the round. -/
structure Progress (system : HomogeneousSystem) (size : Nat) (state : Completion) : Prop where
  vectors : ∀ v ∈ state.basis ++ state.frontier, v.length = system.columns
  sizes : ∀ v ∈ state.frontier, v.sum = size
  distinctBasis : state.basis.Nodup
  distinctFrontier : state.frontier.Nodup
  apart : ∀ v ∈ state.frontier, ∀ b ∈ state.basis, dominates v b = false
  minimal : ∀ s, List.ofFn s ∈ state.basis → system.IsMinimal s
  covered : ∀ s, system.IsMinimal s → List.ofFn s ∈ state.basis ∨ ∃ u ≤ s, List.ofFn u ∈ state.frontier

theorem exists_ofFn {n : Nat} {v : List Nat} (length : v.length = n) : ∃ u : Fin n → Nat, v = List.ofFn u := by
  subst length
  exact ⟨v.get, (List.ofFn_get v).symm⟩

private theorem exists_unit_le {n : Nat} {s : Fin n → Nat} (nonzero : s ≠ 0) : ∃ j, Pi.single j 1 ≤ s := by
  obtain ⟨j, other⟩ := Function.ne_iff.mp nonzero
  refine ⟨j, ?_⟩
  intro i
  rw [Pi.single_apply]
  split
  next same => exact same ▸ Nat.pos_of_ne_zero other
  next => exact Nat.zero_le _

private theorem sum_grown {n : Nat} (u : Fin n → Nat) (j : Fin n) : (List.ofFn (u + Pi.single j 1)).sum =
    (List.ofFn u).sum + 1 := by
  rw [List.sum_ofFn, List.sum_ofFn]
  simp [Finset.sum_add_distrib]

/-- A solution that is as large as every candidate and lies above no solution found is minimal. -/
theorem Progress.minimal_candidate {system : HomogeneousSystem} {size : Nat} {state : Completion}
    (progress : Progress system size state) {u : Fin system.columns → Nat} (candidate : List.ofFn u ∈ state.frontier)
    (solves : Solves system.rows u) : system.IsMinimal u := by
  refine ⟨solves, ?_⟩
  intro w other below
  obtain ⟨s, belowW, minimal⟩ := exists_minimal_le_of_wellFoundedLT (Solves system.rows) w other
  rcases progress.covered s minimal with found | ⟨p, belowS, inFrontier⟩
  · have dominated := (dominates_ofFn u s).mpr (belowW.trans below)
    rw [progress.apart _ candidate _ found] at dominated
    cases dominated
  · have belowU : p ≤ u := belowS.trans (belowW.trans below)
    have sizes : ∑ j, p j = ∑ j, u j := by
      rw [← List.sum_ofFn, ← List.sum_ofFn, progress.sizes _ inFrontier, progress.sizes _ candidate]
    have same : p = u := by
      funext j
      exact (Finset.sum_eq_sum_iff_of_le fun j _ => belowU j).mp sizes j (Finset.mem_univ j)
    exact same ▸ belowS.trans belowW

private theorem Progress.minimal_round {system : HomogeneousSystem} {size : Nat} {state : Completion}
    (progress : Progress system size state) {s : Fin system.columns → Nat}
    (member : List.ofFn s ∈ (system.round .unbounded state).basis) : system.IsMinimal s := by
  rw [basis_round, List.mem_append, List.mem_filter] at member
  rcases member with found | ⟨candidate, solution⟩
  · exact progress.minimal s found
  · exact progress.minimal_candidate candidate ((isSolution_ofFn system s).mp solution)

private theorem Progress.exists_ofFn_basis {system : HomogeneousSystem} {size : Nat} {state : Completion}
    (progress : Progress system size state) {b : List Nat} (member : b ∈ (system.round .unbounded state).basis) :
    ∃ t : Fin system.columns → Nat, b = List.ofFn t := by
  rw [basis_round, List.mem_append, List.mem_filter] at member
  refine exists_ofFn (progress.vectors b (List.mem_append.mpr ?_))
  exact member.imp id And.left

private theorem Progress.exists_ofFn_frontier {system : HomogeneousSystem} {size : Nat} {state : Completion}
    (progress : Progress system size state) {w : List Nat} (member : w ∈ (system.round .unbounded state).frontier) :
    ∃ (u : Fin system.columns → Nat) (j : Fin system.columns),
      List.ofFn u ∈ state.frontier ∧ w = List.ofFn (u + Pi.single j 1) := by
  obtain ⟨⟨v, candidate, _, grown⟩, _⟩ := mem_frontier_round.mp member
  obtain ⟨j, inside, _, rfl⟩ := mem_successors.mp grown
  obtain ⟨u, rfl⟩ := exists_ofFn (progress.vectors v (List.mem_append_right _ candidate))
  exact ⟨u, ⟨j, inside⟩, candidate, modify_ofFn u ⟨j, inside⟩⟩

/-- A minimal solution above a candidate is found in this round or stays above a candidate. -/
theorem Progress.covered_round {system : HomogeneousSystem} {size : Nat} {state : Completion}
    (progress : Progress system size state) {s u : Fin system.columns → Nat} (minimal : system.IsMinimal s)
    (below : u ≤ s) (candidate : List.ofFn u ∈ state.frontier) (positive : u ≠ 0) :
    List.ofFn s ∈ (system.round .unbounded state).basis ∨ ∃ w ≤ s,
      List.ofFn w ∈ (system.round .unbounded state).frontier := by
  cases solution : system.isSolution .unbounded (List.ofFn u) with
  | true =>
    have equal : u = s := le_antisymm below (minimal.2 ((isSolution_ofFn system u).mp solution) below)
    left
    rw [basis_round]
    exact List.mem_append_right _ (List.mem_filter.mpr ⟨equal ▸ candidate, equal ▸ solution⟩)
  | false =>
    have unsolved : ∃ row ∈ system.rows, value row u ≠ 0 := by
      by_contra none
      push Not at none
      rw [(isSolution_ofFn system u).mpr ⟨positive, none⟩] at solution
      cases solution
    obtain ⟨j, room, points⟩ := exists_direction below minimal.1.2 unsolved
    have grown : u + Pi.single j 1 ≤ s := by
      intro i
      rw [Pi.add_apply, Pi.single_apply]
      split
      next same => exact same ▸ room
      next => exact below i
    by_cases found : List.ofFn s ∈ (system.round .unbounded state).basis
    · exact .inl found
    · refine .inr ⟨_, grown, mem_frontier_round.mpr ⟨⟨_, candidate, solution, mem_successors.mpr ?_⟩,
        fun b known => ?_⟩⟩
      · refine ⟨j, j.isLt, ?_, (modify_ofFn u j).symm⟩
        simpa only [defect, rowValue_ofFn] using points
      · -- A solution below the grown candidate lies below `s`, so it is `s` and was found.
        by_contra dominated
        rw [Bool.not_eq_false] at dominated
        obtain ⟨t, rfl⟩ := progress.exists_ofFn_basis known
        have belowS := ((dominates_ofFn _ t).mp dominated).trans grown
        have same : t = s := le_antisymm belowS (minimal.2 (progress.minimal_round known).1 belowS)
        exact found (same ▸ known)

theorem Progress.round {system : HomogeneousSystem} {size : Nat} {state : Completion}
    (progress : Progress system size state) (positive : 0 < size) :
    Progress system (size + 1) (system.round .unbounded state) where
  vectors v member := by
    rcases List.mem_append.mp member with known | candidate
    · obtain ⟨t, rfl⟩ := progress.exists_ofFn_basis known
      exact List.length_ofFn
    · obtain ⟨u, j, _, rfl⟩ := progress.exists_ofFn_frontier candidate
      exact List.length_ofFn
  sizes v member := by
    obtain ⟨u, j, candidate, rfl⟩ := progress.exists_ofFn_frontier member
    rw [sum_grown, progress.sizes _ candidate]
  distinctBasis := by
    rw [basis_round, List.nodup_append]
    refine ⟨progress.distinctBasis, progress.distinctFrontier.filter _, ?_⟩
    intro b found v candidate same
    subst same
    have inFrontier := (List.mem_filter.mp candidate).1
    obtain ⟨u, rfl⟩ := exists_ofFn (progress.vectors b (List.mem_append_left _ found))
    have itself := (dominates_ofFn u u).mpr le_rfl
    rw [progress.apart _ inFrontier _ found] at itself
    cases itself
  distinctFrontier := nodup_distinct ..
  apart v member := (mem_frontier_round.mp member).2
  minimal _ member := progress.minimal_round member
  covered s minimal := by
    rcases progress.covered s minimal with found | ⟨u, below, candidate⟩
    · left
      rw [basis_round]
      exact List.mem_append_left _ found
    · refine progress.covered_round minimal below candidate ?_
      intro zero
      rw [zero] at candidate
      have sum := progress.sizes _ candidate
      rw [List.sum_ofFn] at sum
      simp at sum
      omega

theorem progress_start (system : HomogeneousSystem) : Progress system 1 system.start where
  vectors v member := by
    obtain ⟨j, _, rfl⟩ : ∃ j < system.columns, unit system.columns j = v := by simpa [start] using member
    simp [unit]
  sizes v member := by
    obtain ⟨j, inside, rfl⟩ : ∃ j < system.columns, unit system.columns j = v := by simpa [start] using member
    rw [show unit system.columns j = _ from unit_ofFn ⟨j, inside⟩, List.sum_ofFn]
    simp
  distinctBasis := List.nodup_nil
  distinctFrontier := by
    refine List.Nodup.map_on (fun i first j second same => ?_) List.nodup_range
    have left := unit_ofFn (⟨i, List.mem_range.mp first⟩ : Fin system.columns)
    have right := unit_ofFn (⟨j, List.mem_range.mp second⟩ : Fin system.columns)
    have vectors := List.ofFn_injective (left.symm.trans (same.trans right))
    have value := congrFun vectors ⟨i, List.mem_range.mp first⟩
    simpa [Pi.single_apply] using value
  apart _ _ _ found := by cases found
  minimal _ found := by cases found
  covered s minimal := by
    obtain ⟨j, below⟩ := exists_unit_le minimal.1.1
    refine .inr ⟨_, below, ?_⟩
    rw [← unit_ofFn]
    exact List.mem_map_of_mem (List.mem_range.mpr j.isLt)

/-- How the loop ends from a state: no candidate is left, or a round leaves too many. -/
inductive Ends (system : HomogeneousSystem) (arithmetic : Arithmetic) (maxFrontier : Nat) :
    Completion → Except Failure (List (List Nat)) → Prop where
  | done {state : Completion} (none : state.frontier = []) :
      Ends system arithmetic maxFrontier state (.ok state.basis)
  | limit {state : Completion} (some : state.frontier ≠ [])
      (many : maxFrontier < (system.round arithmetic state).frontier.length) :
      Ends system arithmetic maxFrontier state (.error (.limitReached (.frontier maxFrontier)))
  | round {state : Completion} {outcome : Except Failure (List (List Nat))} (some : state.frontier ≠ [])
      (few : (system.round arithmetic state).frontier.length ≤ maxFrontier)
      (later : Ends system arithmetic maxFrontier (system.round arithmetic state) outcome) :
      Ends system arithmetic maxFrontier state outcome

theorem Ends.complete_eq {system : HomogeneousSystem} {arithmetic : Arithmetic} {maxFrontier : Nat}
    {state : Completion}
    {outcome : Except Failure (List (List Nat))} (ends : system.Ends arithmetic maxFrontier state outcome) :
    system.complete arithmetic maxFrontier state = outcome := by
  induction ends with
  | done none => rw [complete, if_pos (List.isEmpty_iff.mpr none)]
  | limit some many => rw [complete, if_neg (mt List.isEmpty_iff.mp some), if_pos many]
  | round some few _ ih => rw [complete, if_neg (mt List.isEmpty_iff.mp some), if_neg (Nat.not_lt.mpr few), ih]

/-- A run that ends leaves no candidate, and with it the facts of the last round. -/
theorem Progress.of_ends {system : HomogeneousSystem} {maxFrontier size : Nat} {state : Completion}
    {outcome : Except Failure (List (List Nat))} (progress : Progress system size state) (positive : 0 < size)
    (ends : system.Ends .unbounded maxFrontier state outcome) :
    (∃ last basis, outcome = .ok basis ∧ Progress system last { basis, frontier := [] }) ∨
      outcome = .error (.limitReached (.frontier maxFrontier)) := by
  induction ends generalizing size with
  | @done state none => exact .inl ⟨size, state.basis, rfl, by rwa [← none]⟩
  | limit => exact .inr rfl
  | round _ _ _ ih => exact ih (progress.round positive) (Nat.succ_pos size)

private theorem value_padded (row : List Int) (k : Nat) {n : Nat} (v : Fin n → Nat) :
    value (row ++ List.replicate k 0) v = value row v := by
  refine Finset.sum_congr rfl ?_
  intro j _
  congr 1
  rcases Nat.lt_or_ge j row.length with inside | beyond
  · rw [List.getD_append _ _ _ _ inside]
  · rw [List.getD_append_right _ _ _ _ beyond, List.getD_eq_default _ _ beyond, List.getD_eq_getElem?_getD,
      List.getElem?_getD_replicate_default_eq]

private theorem value_zeros {row : List Int} (zeros : ∀ a ∈ row, a = 0) {n : Nat} (v : Fin n → Nat) :
    value row v = 0 := by
  refine Finset.sum_eq_zero ?_
  intro j _
  have entry : row.getD j 0 = 0 := by
    rcases Nat.lt_or_ge j row.length with inside | beyond
    · rw [List.getD_eq_getElem _ _ inside]
      exact zeros _ (List.getElem_mem inside)
    · exact List.getD_eq_default _ _ beyond
  rw [entry, zero_mul]

private theorem addRow_rows {system grown : HomogeneousSystem} {row : List Int}
    (added : system.addRow row = .ok grown) :
    grown.columns = system.columns ∧ ∀ {n : Nat} (v : Fin n → Nat),
      (∀ r ∈ grown.rows, value r v = 0) ↔ (∀ r ∈ system.rows, value r v = 0) ∧ value row v = 0 := by
  simp only [addRow] at added
  split at added
  · cases added
  · split at added
    next zeros =>
      cases added
      have entries : ∀ a ∈ row, a = 0 := by simpa using zeros
      exact ⟨rfl, fun v => by simp [value_zeros entries v]⟩
    next =>
      cases added
      refine ⟨rfl, ?_⟩
      intro n v
      rw [List.forall_mem_append, List.forall_mem_singleton, value_padded]

theorem rows_of_foldlM {rows : List (List Int)} {system grown : HomogeneousSystem}
    (added : rows.foldlM addRow system = .ok grown) :
    grown.columns = system.columns ∧ ∀ {n : Nat} (v : Fin n → Nat),
      (∀ r ∈ grown.rows, value r v = 0) ↔ (∀ r ∈ system.rows, value r v = 0) ∧ ∀ r ∈ rows, value r v = 0 := by
  induction rows generalizing system with
  | nil =>
    cases added
    exact ⟨rfl, fun v => by simp⟩
  | cons row rows ih =>
    rw [List.foldlM_cons] at added
    obtain ⟨next, first, later⟩ := exists_of_bind_eq_ok added
    obtain ⟨columns, solutions⟩ := addRow_rows first
    obtain ⟨columns', solutions'⟩ := ih later
    refine ⟨columns'.trans columns, ?_⟩
    intro n v
    rw [solutions' v, solutions v, and_assoc, List.forall_mem_cons]

theorem exists_foldlM_addRow {rows : List (List Int)} {system : HomogeneousSystem}
    (fits : ∀ row ∈ rows, row.length ≤ system.columns) : ∃ grown, rows.foldlM addRow system = .ok grown := by
  induction rows generalizing system with
  | nil => exact ⟨system, rfl⟩
  | cons row rows ih =>
    obtain ⟨first, rest⟩ := List.forall_mem_cons.mp fits
    obtain ⟨next, added⟩ : ∃ next, system.addRow row = .ok next := by
      rw [addRow, if_neg (Nat.not_lt.mpr first)]
      split
      · exact ⟨_, rfl⟩
      · exact ⟨_, rfl⟩
    rw [← (addRow_rows added).1] at rest
    obtain ⟨grown, later⟩ := ih rest
    exact ⟨grown, by rw [List.foldlM_cons, added]; exact later⟩

theorem value_add {n : Nat} (row : List Int) (u v : Fin n → Nat) : value row (u + v) = value row u + value row v := by
  simp only [value]
  rw [← Finset.sum_add_distrib]
  refine Finset.sum_congr rfl ?_
  intro j _
  rw [Pi.add_apply, Nat.cast_add, mul_add]

/-- Every vector that brings the rows to zero is a sum of minimal solutions. -/
theorem exists_sum_minimal {n : Nat} {rows : List (List Int)} (w : Fin n → Nat)
    (zero : ∀ row ∈ rows, value row w = 0) :
    ∃ parts : List (Fin n → Nat), (∀ b ∈ parts, Minimal (Solves rows) b) ∧ parts.sum = w := by
  induction w using WellFoundedLT.induction with
  | ind w ih =>
    by_cases null : w = 0
    · exact ⟨[], by simp, null.symm⟩
    · obtain ⟨b, below, minimal⟩ := exists_minimal_le_of_wellFoundedLT (Solves rows) w ⟨null, zero⟩
      obtain ⟨rest, split⟩ := le_iff_exists_add.mp below
      have zero' : ∀ row ∈ rows, value row rest = 0 := by
        intro row member
        have both := zero row member
        rwa [split, value_add, minimal.1.2 row member, zero_add] at both
      have smaller : rest < w := by
        rw [split]
        exact lt_add_of_pos_left rest (pos_iff_ne_zero.mpr minimal.1.1)
      obtain ⟨parts, each, sum⟩ := ih rest smaller zero'
      exact ⟨b :: parts, List.forall_mem_cons.mpr ⟨minimal, each⟩, by rw [List.sum_cons, sum, split]⟩

end Equational.HomogeneousSystem
