import Equational.Proofs.Congruence

/-! Problems are lists of equations without repetition. Inserting equations brings in nothing else and
leaves out only what is there already, and erasing takes out one equation. The solved form of a
substitution is a problem that leaves nothing out. -/

namespace Equational

namespace Problem

variable {problem : Problem} {e d : Equation} {added : List Equation} {m : Variable → Term}

theorem mem_insert (member : d ∈ (problem.insert e).equations) : d ∈ problem.equations ∨ d = e := by
  simp only [insert] at member
  split at member
  · exact .inl member
  · simpa using member

theorem mem_insertAll (member : d ∈ (problem.insertAll added).equations) : d ∈ problem.equations ∨ d ∈ added := by
  induction added generalizing problem with
  | nil => exact .inl member
  | cons e added ih =>
    rcases ih member with earlier | later
    · refine (mem_insert earlier).imp id ?_
      intro same
      exact same ▸ List.mem_cons_self ..
    · exact .inr (List.mem_cons_of_mem e later)

theorem mem_ofList (member : d ∈ (ofList added).equations) : d ∈ added :=
  (mem_insertAll member).resolve_left List.not_mem_nil

theorem pairwise_insert (apart : problem.equations.Pairwise fun e d => (e == d) = false) :
    (problem.insert e).equations.Pairwise fun e d => (e == d) = false := by
  simp only [insert]
  split
  next => exact apart
  next absent =>
    refine List.pairwise_append.mpr ⟨apart, List.pairwise_singleton .., fun d member c new => ?_⟩
    rw [List.mem_singleton.mp new]
    by_contra same
    exact absent (List.contains_iff_exists_mem_beq.mpr ⟨d, member, BEq.symm (Bool.not_eq_false _ ▸ same)⟩)

theorem pairwise_insertAll (apart : problem.equations.Pairwise fun e d => (e == d) = false) :
    (problem.insertAll added).equations.Pairwise fun e d => (e == d) = false := by
  induction added generalizing problem with
  | nil => exact apart
  | cons e added ih => exact ih (pairwise_insert apart)

private theorem insertAll_of_pairwise (apart : (problem.equations ++ added).Pairwise fun e d => (e == d) = false) :
    (problem.insertAll added).equations = problem.equations ++ added := by
  induction added generalizing problem with
  | nil => exact (List.append_nil _).symm
  | cons e added ih =>
    have absent : ¬ problem.contains e = true := by
      intro found
      obtain ⟨d, member, same⟩ := List.contains_iff_exists_mem_beq.mp found
      have different := (List.pairwise_append.mp apart).2.2 d member e (List.mem_cons_self ..)
      rw [BEq.symm same] at different
      cases different
    have inserted : (problem.insert e).equations = problem.equations ++ [e] := by rw [insert, if_neg absent]
    have rest : ((problem.insert e).insertAll added).equations = (problem.insert e).equations ++ added :=
      ih (by rwa [inserted, List.append_assoc])
    rwa [inserted, List.append_assoc] at rest

theorem mem_erase_or (member : d ∈ problem.equations) (e : Equation) :
    d ∈ (problem.erase e).equations ∨ (d == e) = true := by
  change d ∈ problem.equations.erase e ∨ _
  rw [List.erase_eq_eraseP']
  by_cases same : (d == e) = true
  · exact .inr same
  · exact .inl ((List.mem_eraseP_of_neg (p := (· == e)) same).mpr member)

theorem mem_of_mem_erase (member : d ∈ (problem.erase e).equations) : d ∈ problem.equations :=
  List.erase_sublist.subset member

/-- Taking out the first of two equations leaves the second. -/
theorem mem_erase_first (pair : [e, d].Sublist problem.equations) : d ∈ (problem.erase e).equations := by
  simp only [erase]
  generalize problem.equations = l at pair
  induction l with
  | nil => cases pair
  | cons a l ih =>
    rw [List.erase_cons]
    cases pair with
    | cons _ later =>
      split
      · exact later.subset (by simp)
      · exact List.mem_cons_of_mem a (ih later)
    | cons_cons _ later =>
      rw [if_pos BEq.rfl]
      exact later.subset (by simp)

/-- Taking out the second of two equations leaves the first, or one that is equal to it. -/
theorem exists_mem_erase_second (pair : [d, e].Sublist problem.equations) :
    ∃ d' ∈ (problem.erase e).equations, (d' == d) = true := by
  simp only [erase]
  generalize problem.equations = l at pair
  induction l with
  | nil => cases pair
  | cons a l ih =>
    rw [List.erase_cons]
    cases pair with
    | cons _ later =>
      split
      · exact ⟨d, later.subset (by simp), BEq.rfl⟩
      · obtain ⟨d', kept, same⟩ := ih later
        exact ⟨d', List.mem_cons_of_mem a kept, same⟩
    | cons_cons _ later =>
      split
      next same => exact ⟨e, later.subset (by simp), BEq.symm same⟩
      next => exact ⟨d, List.mem_cons_self .., BEq.rfl⟩

section Congruence

variable {E : Term → Term → Prop} (congruence : Term.Congruence E)
include congruence

/-- What is left out of a problem is equal to something stated already. -/
theorem holdsIn_insert_iff : (∀ d ∈ (problem.insert e).equations, d.HoldsIn E m) ↔
    (∀ d ∈ problem.equations, d.HoldsIn E m) ∧ e.HoldsIn E m := by
  constructor
  · intro holds
    simp only [insert] at holds
    split at holds
    next stated =>
      obtain ⟨d, member, same⟩ := List.contains_iff_exists_mem_beq.mp stated
      exact ⟨holds, (holds d member).congr congruence (BEq.symm same)⟩
    next =>
      obtain ⟨old, new⟩ := List.forall_mem_append.mp holds
      exact ⟨old, new e (List.mem_singleton_self e)⟩
  · rintro ⟨old, new⟩ d member
    rcases mem_insert member with earlier | rfl
    · exact old d earlier
    · exact new

theorem holdsIn_insertAll_iff : (∀ d ∈ (problem.insertAll added).equations, d.HoldsIn E m) ↔
    (∀ d ∈ problem.equations, d.HoldsIn E m) ∧ ∀ d ∈ added, d.HoldsIn E m := by
  induction added generalizing problem with
  | nil => simp [insertAll]
  | cons e added ih =>
    have rest : (∀ d ∈ ((problem.insert e).insertAll added).equations, d.HoldsIn E m) ↔ _ := ih
    rw [holdsIn_insert_iff congruence, and_assoc] at rest
    rw [List.forall_mem_cons]
    exact rest

end Congruence

end Problem

namespace Substitution

variable {σ : Substitution}

/-- The solved form of a substitution states its bindings, in their order. -/
theorem equations_toProblem (σ : Substitution) : σ.toProblem.equations = σ.bindings.map fun p => ⟨.var p.1, p.2⟩ := by
  have apart : (σ.bindings.map fun p => Equation.mk (.var p.1) p.2).Pairwise fun e d => (e == d) = false := by
    refine List.pairwise_map.mpr ((List.pairwise_map.mp σ.distinct).imp fun different => ?_)
    rw [Bool.eq_false_iff]
    intro same
    exact different (Term.var.inj (eq_var_of_beq (Equation.beq_iff.mp same).1))
  exact Problem.insertAll_of_pairwise apart

theorem mem_toProblem {e : Equation} : e ∈ σ.toProblem.equations ↔ ∃ p ∈ σ.bindings, ⟨.var p.1, p.2⟩ = e := by
  rw [equations_toProblem, List.mem_map]

end Substitution

end Equational
