import Equational.AC.Unification
import Equational.Proofs.AC.Atom
import Equational.Proofs.Diophantine.Termination
import Mathlib.Algebra.BigOperators.Fin
import Mathlib.Algebra.Module.BigOperators
import Mathlib.Algebra.Order.Group.Multiset

/-! Equations of multisets as a linear system. Whatever the atoms are given, the two sides of
every equation come to the same exactly when each of the things given solves the rows of
balances. So every such assignment is put together from minimal solutions, each of which
hands out one thing. -/

namespace List

/-- When only one element passes a test, the sum over those that pass it is that of the one. -/
theorem sum_map_ite_of_pairwise {ι M : Type} [AddCommMonoid M] {test : ι → Prop} [DecidablePred test] {l : List ι}
    (alone : l.Pairwise fun a b => test a → ¬ test b) {i : ι} (member : i ∈ l) (passes : test i) (g : ι → M) :
    (l.map fun a => if test a then g a else 0).sum = g i := by
  induction alone with
  | nil => cases member
  | @cons x l first _ ih =>
    rw [map_cons, sum_cons]
    rcases mem_cons.mp member with rfl | later
    · have others : ∀ n ∈ l.map fun a => if test a then g a else 0, n = 0 := by
        intro n inside
        obtain ⟨a, present, rfl⟩ := mem_map.mp inside
        exact if_neg (first a present passes)
      rw [if_pos passes, sum_eq_zero others, add_zero]
    · rw [if_neg fun holds => first i later holds passes, zero_add, ih later]

end List

namespace Equational.AC

open HomogeneousSystem

variable {f : FunctionSymbol} {equations : List Equation}

/-- One row of balances for each equation, one column for each active atom. -/
def rows (f : FunctionSymbol) (equations : List Equation) : List (List Int) :=
  equations.map fun e => (activeAtoms f equations).map (balance f e)

section Counting

variable {c : Term → Int} (congr : ∀ s t : Term, (s == t) = true → c s = c t)
include congr

private theorem sum_eq_sum_count {reps : List Term} (apart : reps.Pairwise fun a b => (b == a) = false)
    {l : List Term} (covered : ∀ a ∈ l, ∃ r ∈ reps, (a == r) = true) :
    (l.map c).sum = (reps.map fun r => (l.count r : Int) * c r).sum := by
  induction l with
  | nil => simp
  | cons a l ih =>
    obtain ⟨first, rest⟩ := List.forall_mem_cons.mp covered
    obtain ⟨r, kept, same⟩ := first
    have alone : reps.Pairwise fun x y => (a == x) = true → ¬ (a == y) = true := by
      refine apart.imp ?_
      intro x y different left right
      rw [BEq.trans (BEq.symm right) left] at different
      cases different
    have split : (reps.map fun r => ((a :: l).count r : Int) * c r) =
        reps.map fun r => (if (a == r) = true then c r else 0) + (l.count r : Int) * c r := by
      refine List.map_congr_left ?_
      intro r _
      rw [List.count_cons]
      split
      · push_cast
        ring
      · simp
    rw [List.map_cons, List.sum_cons, ih rest, split, List.sum_map_add, List.sum_map_ite_of_pairwise alone kept same,
      congr a r same]

/-- The sides of an equation come to the same when the balances of the active atoms cancel out. -/
theorem sum_members_eq_iff {e : Equation} (member : e ∈ equations) :
    ((members f e.lhs).map c).sum = ((members f e.rhs).map c).sum ↔
      ((activeAtoms f equations).map fun a => balance f e a * c a).sum = 0 := by
  have apart := List.pairwise_eraseDups (equations.flatMap (membersOf f))
  have covered {side : Term} (which : side = e.lhs ∨ side = e.rhs) :
      ∀ a ∈ members f side, ∃ r ∈ (equations.flatMap (membersOf f)).eraseDups, (a == r) = true := by
    intro a inside
    refine List.exists_mem_eraseDups (List.mem_flatMap.mpr ⟨e, member, List.mem_append.mpr ?_⟩)
    rcases which with rfl | rfl
    · exact .inl inside
    · exact .inr inside
  have balances : ((members f e.lhs).map c).sum = ((members f e.rhs).map c).sum +
      ((equations.flatMap (membersOf f)).eraseDups.map fun a => balance f e a * c a).sum := by
    rw [sum_eq_sum_count congr apart (covered (.inl rfl)), sum_eq_sum_count congr apart (covered (.inr rfl)),
      ← List.sum_map_add]
    refine congrArg List.sum (List.map_congr_left fun a _ => ?_)
    simp only [balance]
    simp only [Int.ofNat_eq_natCast]
    ring
  have active : ((equations.flatMap (membersOf f)).eraseDups.map fun a => balance f e a * c a).sum =
      ((activeAtoms f equations).map fun a => balance f e a * c a).sum := by
    simp only [activeAtoms]
    generalize (equations.flatMap (membersOf f)).eraseDups = atoms
    induction atoms with
    | nil => rfl
    | cons a atoms ih =>
      rw [List.map_cons, List.sum_cons, ih, List.filter_cons]
      split
      · rw [List.map_cons, List.sum_cons]
      next idle =>
        have null : balance f e a = 0 := by
          simp only [List.any_eq_true, bne_iff_ne, not_exists, not_and, not_not] at idle
          exact idle e member
        rw [null, zero_mul, zero_add]
  rw [balances, active, add_eq_left]

end Counting

private theorem value_map_getElem {atoms : List Term} (g : Term → Int) (c : Term → Nat) :
    value (atoms.map g) (fun j : Fin atoms.length => c (atoms.get j)) = (atoms.map fun a => g a * c a).sum := by
  rw [value, ← Fin.sum_univ_fun_getElem]
  refine Finset.sum_congr rfl ?_
  intro j _
  rw [List.getD_eq_getElem _ _ (by simp), List.getElem_map]
  rfl

section Bags

variable {α : Type} [DecidableEq α]

theorem count_sum_map {ι : Type} (s : α) (l : List ι) (bags : ι → Multiset α) :
    (l.map bags).sum.count s = (l.map fun i => (bags i).count s).sum := by
  rw [← Multiset.coe_countAddMonoidHom, map_list_sum, List.map_map]
  rfl

/-- Atoms that are given multisets satisfy the equations when every element solves the rows. -/
theorem sum_bags_eq_iff (bags : Term → Multiset α) (congr : ∀ s t : Term, (s == t) = true → bags s = bags t) :
    (∀ e ∈ equations, ((members f e.lhs).map bags).sum = ((members f e.rhs).map bags).sum) ↔
      ∀ s, ∀ row ∈ rows f equations,
        value row (fun j : Fin (activeAtoms f equations).length => (bags ((activeAtoms f equations).get j)).count s) =
          0 := by
  have single (s : α) {e : Equation} (member : e ∈ equations) :
      ((members f e.lhs).map bags).sum.count s = ((members f e.rhs).map bags).sum.count s ↔
        value ((activeAtoms f equations).map (balance f e))
          (fun j : Fin (activeAtoms f equations).length => (bags ((activeAtoms f equations).get j)).count s) = 0 := by
    have respects (t u : Term) (same : (t == u) = true) : ((bags t).count s : Int) = (bags u).count s := by
      rw [congr t u same]
    rw [value_map_getElem _ fun a => (bags a).count s, ← sum_members_eq_iff respects member, count_sum_map,
      count_sum_map, ← Nat.cast_inj (R := Int)]
    simp [Nat.cast_list_sum, List.map_map, Function.comp_def]
  simp only [rows, List.forall_mem_map, Multiset.ext]
  exact ⟨fun all s e member => (single s member).mp (all e member s),
    fun all e member s => (single s member).mpr (all s e member)⟩

variable {n : Nat} {system : List (List Int)}

private theorem value_zero (row : List Int) : value row (0 : Fin n → Nat) = 0 := by
  simp [value]

private theorem value_smul (row : List Int) (k : Nat) (v : Fin n → Nat) : value row (k • v) = k * value row v := by
  rw [value, value, Finset.mul_sum]
  refine Finset.sum_congr rfl ?_
  intro j _
  rw [Pi.smul_apply, smul_eq_mul, Nat.cast_mul]
  ring

/-- Solutions that hand out multisets give the columns what satisfies the rows. -/
theorem value_of_handed {ι : Type} (l : List ι) (solution : ι → Fin n → Nat) (handed : ι → Multiset α)
    {row : List Int}
    (zero : ∀ i ∈ l, value row (solution i) = 0) (s : α) :
    value row (fun j => (l.map fun i => solution i j • handed i).sum.count s) = 0 := by
  induction l with
  | nil => exact value_zero row
  | cons i l ih =>
    obtain ⟨first, rest⟩ := List.forall_mem_cons.mp zero
    have split : (fun j => ((i :: l).map fun i => solution i j • handed i).sum.count s) =
        (handed i).count s • solution i + fun j => (l.map fun i => solution i j • handed i).sum.count s := by
      funext j
      rw [List.map_cons, List.sum_cons, Multiset.count_add, Multiset.count_nsmul, Pi.add_apply, Pi.smul_apply,
        smul_eq_mul, mul_comm]
    rw [split, value_add, value_smul, first, ih rest, mul_zero, add_zero]

/-- What satisfies the rows has been handed out by minimal solutions, one thing by each. -/
theorem exists_handed (given : Fin n → Multiset α)
    (zero : ∀ s, ∀ row ∈ system, value row (fun j => (given j).count s) = 0) :
    ∃ parts : List (α × (Fin n → Nat)), (∀ p ∈ parts, Minimal (Solves system) p.2) ∧
      ∀ j, given j = (parts.map fun p => p.2 j • {p.1}).sum := by
  choose solutions minimal sums using fun s => exists_sum_minimal (fun j => (given j).count s) (zero s)
  refine ⟨(∑ j, given j).toFinset.toList.flatMap fun s => (solutions s).map fun b => (s, b), fun p member => ?_,
    fun j => ?_⟩
  · obtain ⟨s, _, inside⟩ := List.mem_flatMap.mp member
    obtain ⟨b, found, rfl⟩ := List.mem_map.mp inside
    exact minimal s b found
  · have copies (s : α) : ((solutions s).map fun b => b j • ({s} : Multiset α)).sum = (given j).count s • {s} := by
      have total : ((solutions s).map fun b => b j).sum = (given j).count s := by
        rw [← congrFun (sums s) j]
        exact (map_list_sum (Pi.evalAddMonoidHom (fun _ : Fin n => Nat) j) (solutions s)).symm
      rw [← total, List.sum_smul, List.map_map]
      rfl
    have support : (given j).toFinset ⊆ (∑ j, given j).toFinset := by
      intro s member
      rw [Multiset.mem_toFinset, Multiset.mem_sum] at *
      exact ⟨j, Finset.mem_univ j, member⟩
    rw [List.map_flatMap, List.flatMap, List.sum_flatten, List.map_map]
    simp only [Function.comp_def, List.map_map, copies]
    rw [Finset.sum_map_toList, ← Finset.sum_subset support, Multiset.toFinset_sum_count_nsmul_eq]
    intro s _ absent
    rw [Multiset.count_eq_zero_of_notMem (mt Multiset.mem_toFinset.mpr absent), zero_nsmul]

end Bags

section SolutionVectors

variable {limits : Limits}

private theorem exists_solutionVectors_eq (limits : Limits) (f : FunctionSymbol) (equations : List Equation) :
    ∃ system limit, (rows f equations).foldlM addRow { columns := (activeAtoms f equations).length } = .ok system ∧
      solutionVectors limits f equations (activeAtoms f equations) =
        (system.minimalSolutions .unbounded limits.acMaxFrontier).bind fun basis =>
          let vectors := basis.filter (isUsable (activeAtoms f equations))
          if vectors.length > limit then .error (.limitReached (.basis vectors.length limit)) else .ok vectors := by
  have fits : ∀ row ∈ rows f equations, row.length ≤ (activeAtoms f equations).length := by
    intro row member
    obtain ⟨e, _, rfl⟩ := List.mem_map.mp member
    rw [List.length_map]
  obtain ⟨system, added⟩ : ∃ system,
      (rows f equations).foldlM addRow { columns := (activeAtoms f equations).length } = .ok system :=
    exists_foldlM_addRow fits
  refine ⟨system, min limits.acMaxBasis maxVectors, added, ?_⟩
  rw [rows, List.foldlM_map] at added
  rw [solutionVectors]
  rw [added]
  change (system.minimalSolutions .unbounded limits.acMaxFrontier).bind _ =
    (system.minimalSolutions .unbounded limits.acMaxFrontier).bind _
  refine congrArg (Except.bind _) (funext fun basis => ?_)
  dsimp only
  split <;> rfl

/-- The vectors are the usable ones of the minimal solutions. -/
theorem mem_solutionVectors {vectors : List (List Nat)}
    (solved : solutionVectors limits f equations (activeAtoms f equations) = .ok vectors) :
    vectors.Nodup ∧ (∀ w ∈ vectors, w.length = (activeAtoms f equations).length) ∧
      ∀ v : Fin (activeAtoms f equations).length → Nat, List.ofFn v ∈ vectors ↔
        Minimal (Solves (rows f equations)) v ∧ isUsable (activeAtoms f equations) (List.ofFn v) = true := by
  obtain ⟨system, limit, added, equal⟩ := exists_solutionVectors_eq limits f equations
  rw [equal] at solved
  obtain ⟨basis, found, result⟩ := exists_of_bind_eq_ok solved
  dsimp only at result
  split at result
  · cases result
  · cases result
    obtain ⟨distinct, lengths, minimal⟩ := mem_minimalSolutions_of_rows rfl added found
    refine ⟨distinct.filter _, fun w member => lengths w (List.mem_of_mem_filter member), ?_⟩
    intro v
    rw [List.mem_filter, minimal v]

theorem limitReached_of_solutionVectors {failure : Failure}
    (failed : solutionVectors limits f equations (activeAtoms f equations) = .error failure) :
    ∃ limit, failure = .limitReached limit := by
  obtain ⟨system, limit, _, equal⟩ := exists_solutionVectors_eq limits f equations
  rw [equal] at failed
  rcases exists_of_bind_eq_error failed with found | ⟨basis, _, result⟩
  · exact ⟨_, limitReached_of_minimalSolutions found⟩
  · dsimp only at result
    split at result
    · cases result
      exact ⟨_, rfl⟩
    · cases result

end SolutionVectors

end Equational.AC
