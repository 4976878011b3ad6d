import Equational.Proofs.ExpAC.SolvedForm
import Equational.Proofs.Unification.Triangular

/-! Closing. In a terminal state with a solution, no variable is defined twice unless by combinations,
and values weigh more than the values of what they are defined by. So its definitions are in order,
and unless combinations depend on each other, they have a unifier. -/

namespace Equational

namespace ExpAC

open Search

variable {setting : Setting} {signature : Signature} {known : FunctionSymbol → Prop} {problem : Problem}
  {interner : Interner} {state : State} {session : Session} {m : Variable → Term} {n : Nat} {e d : Equation}

private theorem IsDefinition.exists_var (definition : IsDefinition signature e) : ∃ x, e.lhs = .var x :=
  Term.exists_of_isVariable definition.named

namespace State

theorem close_of_unifyAll {σ : Substitution} (separate : state.residual setting.signature = [])
    (unified : unifyAll (state.closing setting.signature) = .ok σ) :
    close setting state = pure [σ.restrict setting.scope] := by
  have composed : Substitution.empty.compose σ = σ := by
    cases σ
    simp [Substitution.compose, Substitution.empty, Substitution.mapRange, Substitution.keep, Substitution.domain]
  have closed : closeWith setting (state.closing setting.signature) .empty = .ok (σ.restrict setting.scope) := by
    have same : (state.closing setting.signature).map Substitution.empty.applyEquation =
        state.closing setting.signature :=
      List.map_id'' (fun _ => rfl) _
    rw [closeWith, same, unified]
    change Except.ok ((Substitution.empty.compose σ).restrict setting.scope) = _
    rw [composed]
  rw [close_eq, separate, AC.solve_nil, pure_bind, List.foldlM_cons, closed]
  rfl

/-- No variable is eliminated twice. -/
theorem pairwise_solved (state : State) : state.solved.toProblem.equations.Pairwise fun e d => e.lhs ≠ d.lhs := by
  rw [Substitution.equations_toProblem]
  exact List.pairwise_map.mpr ((List.pairwise_map.mp state.solved.distinct).imp fun different same =>
    different (Term.var.inj same))

private theorem instance_assign {σ : Substitution} {x : Variable} {t : Term} (unbound : x ∉ σ.domain)
    (equal : EqualModulo signature (m x) (t.instantiate m))
    (instance' : ∀ v, EqualModulo signature (m v) ((σ.image v).instantiate m)) :
    ∀ v, EqualModulo signature (m v) (((σ.assign x (σ.apply t) unbound).image v).instantiate m) := by
  have value (u : Term) : EqualModulo signature ((σ.apply u).instantiate m) (u.instantiate m) := .apply instance' u
  have twice : EqualModulo signature (m x) ((σ.apply (σ.apply t)).instantiate m) :=
    equal.trans ((value _).trans (value t)).symm
  intro v
  rcases (σ.assign x (σ.apply t) unbound).image_mem_or v with bound | ⟨_, free⟩
  · rcases (Substitution.mem_bindings_assign unbound).mp bound with ⟨r, old, image⟩ | ⟨rfl, image⟩
    · rw [← image]
      have earlier := instance' v
      rw [Substitution.image_of_mem old] at earlier
      refine earlier.trans (.symm (.apply (fun w => ?_) r))
      by_cases same : w = x
      · rw [same, Substitution.image_of_mem (List.mem_singleton_self _)]
        exact twice
      · rw [Substitution.image_of_not_mem (by simpa [Substitution.domain, Substitution.single] using same)]
        exact .refl _
    · rw [image]
      exact twice
  · rw [free]
    exact .refl _

section Terminal

variable (sorted : signature.OneSorted) (within : signature.Within known) (proper : state.Proper known n)
  (solved : state.SolvedBy signature n m)

include solved in
private theorem mem_residual (listed : (e, d) ∈ state.pairs) (left : e.rhs.isRootedAt signature.f.id = true)
    (right : d.rhs.isRootedAt signature.f.id = true) : e ∈ state.residual signature := by
  obtain ⟨pair, same⟩ := mem_pairsOf listed
  have member : e ∈ state.combinations signature := List.mem_filter.mpr ⟨pair.subset (by simp), left⟩
  have member' : d ∈ state.combinations signature := List.mem_filter.mpr ⟨pair.subset (by simp), right⟩
  refine List.mem_filter.mpr ⟨member, ?_⟩
  have apart : (e == d) = false := by simpa using solved.tidy.apart.sublist pair
  obtain ⟨x, name⟩ := (solved.tidy.definitions e (pair.subset (by simp))).exists_var
  have occurs : d.contains x = true := by
    rw [name] at same
    simp [Equation.contains, Substitution.eq_var_of_beq (BEq.symm same), Term.contains, Term.vars]
  have apart' : (d == e) = false := by
    rw [← apart]
    exact BEq.comm
  simp only [Bool.not_eq_true', isSeparate, name, Term.asVariable, Option.any_some, Bool.and_eq_false_iff]
  exact .inr (List.all_eq_false.mpr ⟨d, member', by simp [apart', occurs]⟩)

/-- The weight of the value of a variable, with eliminated variables above those that stay. -/
noncomputable def rank (signature : Signature) (state : State) (m : Variable → Term) (v : Variable) : Nat :=
  2 * weight signature (m v) + if v ∈ state.solved.domain then 1 else 0

include sorted proper solved in
private theorem defines_of_mem_closing (eliminated : state.Idle signature .eliminate)
    (member : e ∈ state.closing signature) :
    ∃ x, e.lhs = .var x ∧ Unifier.Defines signature.f (rank signature state m) x e.rhs := by
  rcases mem_closing member with listed | ⟨p, listed, rfl⟩
  · have definition := solved.tidy.definitions e listed
    have free {v : Variable} (occurs : v ∈ e.vars) : v ∉ state.solved.domain := by
      rcases List.mem_append.mp occurs with left | right
      · exact ((proper.definitions e listed).1.vars v left).2
      · exact ((proper.definitions e listed).2.vars v right).2
    obtain ⟨x, name⟩ := definition.exists_var
    have holds := solved.holds.definitions e listed
    rw [Equation.HoldsModulo, name, Term.instantiate] at holds
    refine ⟨x, name, Term.isRegular_var.mp (name ▸ definition.left), definition.right.regular, fun w occurs => ?_⟩
    have below : weight signature (m w) < weight signature (m x) := by
      rw [weight_congr sorted.toLawful holds]
      cases shape : e.rhs with
      | var v => exact absurd shape (ne_var_of_idle eliminated listed definition.exists_var)
      | const c => simp [shape, Term.vars] at occurs
      | node h args =>
        rw [shape] at occurs
        exact weight_lt_of_isFlat sorted (shape ▸ definition.right) solved.regular occurs
    rw [rank, rank, if_neg (free (List.mem_append_right _ occurs)),
      if_neg (free (List.mem_append_left _ (by simp [name, Term.vars])))]
    omega
  · obtain ⟨sort, regular⟩ := solved.tidy.bound p listed
    obtain ⟨y, image, usable⟩ := solved.tidy.solved p listed
    refine ⟨p.1, rfl, sort, regular, fun w occurs => ?_⟩
    have value := solved.holds.solved p.1
    rw [Substitution.image_of_mem listed, image, Term.instantiate] at value
    rw [image, Term.vars, List.mem_singleton] at occurs
    subst occurs
    rw [rank, rank, if_neg usable.2, if_pos (Substitution.mem_domain_iff.mpr ⟨_, listed⟩),
      weight_congr sorted.toLawful value]
    omega

variable (merged : ∀ rule ∈ Rule.mergingAndDistributing, state.Idle signature rule)
  (binary : state.IsBinary signature)
  (unbranched : ∃ after, state.alternatives signature session = .ok none after)
  (separate : state.residual signature = [])
include sorted within proper solved merged binary unbranched separate

variable (eliminated : state.Idle signature .eliminate)
include eliminated

private theorem pairs_eq_nil : state.pairs = [] := by
  refine List.eq_nil_iff_forall_not_mem.mpr fun (e, d) listed => ?_
  have inside := (mem_pairsOf listed).1.subset
  have byNumber (e : Equation) (member : e ∈ state.definitions.equations) : signature.isBinaryByNumber e.rhs = true :=
    isBinaryByNumber_of_isBinary within.consistent within.exp within.g (proper.definitions e member).2.formed.spelled
      (binary e member)
  obtain ⟨left, right⟩ := isRootedAt_of_mem_pairs merged unbranched listed
    (checkCompatible_of_solved sorted solved listed)
    (byNumber e (inside (by simp))) (byNumber d (inside (by simp))) eliminated (tidy_iff_neat.mp solved.tidy)
  have member := mem_residual solved listed left right
  rw [separate] at member
  cases member

private theorem pairwise_closing : (state.closing signature).Pairwise fun e d => e.lhs ≠ d.lhs := by
  have all : (state.combinations signature).filter (isSeparate (state.combinations signature)) =
      state.combinations signature := by
    refine List.filter_eq_self.mpr fun e member => ?_
    have absent := List.filter_eq_nil_iff.mp separate e member
    simpa using absent
  have definitions :
      (state.definitions.equations.filter (!·.rhs.isRootedAt signature.f.id) ++ state.combinations signature).Pairwise
      fun e d => e.lhs ≠ d.lhs := by
    have none := pairs_eq_nil sorted within proper solved merged binary unbranched separate eliminated
    have distinct : state.definitions.equations.Pairwise fun e d => e.lhs ≠ d.lhs := by
      refine (pairwise_pairs state).imp fun listed same => ?_
      rw [none] at listed
      cases listed (by rw [same]; exact BEq.rfl)
    have permuted := List.filter_append_perm (fun e : Equation => !e.rhs.isRootedAt signature.f.id)
      state.definitions.equations
    simp only [Bool.not_not] at permuted
    exact (permuted.pairwise_iff fun different => different.symm).mpr distinct
  rw [closing, all]
  refine List.pairwise_append.mpr ⟨definitions, pairwise_solved state, fun e kept d eliminated' => ?_⟩
  have listed : e ∈ state.definitions.equations := by
    rcases List.mem_append.mp kept with plain | combined
    · exact List.mem_of_mem_filter plain
    · exact List.mem_of_mem_filter combined
  obtain ⟨p, bound, rfl⟩ := Substitution.mem_toProblem.mp eliminated'
  intro same
  have usable := (proper.definitions e listed).1.vars p.1 (by simp [same, Term.vars])
  exact usable.2 (Substitution.mem_domain_iff.mpr ⟨_, bound⟩)

/-- The definitions of a terminal state with a solution have a unifier by regular terms, and the solution is an
instance of it. -/
theorem exists_unifyAll_closing : ∃ σ, unifyAll (state.closing signature) = .ok σ ∧ σ.IsRegular signature.f ∧
    ∀ v, EqualModulo signature (m v) ((σ.image v).instantiate m) := by
  have unifies : ∀ e ∈ state.closing signature, e.HoldsModulo signature m :=
    ((holdsIn_iff_parts (EqualModulo.congruence signature) signature).mp (holds_iff_holdsIn.mp solved.holds)).1
  obtain ⟨σ, unified, defines, instance'⟩ := exists_unifyAll_of_defines
    (P := fun σ => ∀ v, EqualModulo signature (m v) ((σ.image v).instantiate m)) within.laws
    (fun _ member => defines_of_mem_closing sorted proper solved eliminated member)
    (pairwise_closing sorted within proper solved merged binary unbranched separate eliminated) (fun _ => .refl _)
    fun e member σ x unbound left instance' => by
      have value := unifies e member
      rw [Equation.HoldsModulo, left] at value
      exact instance_assign unbound value instance'
  refine ⟨σ, unified, fun t member => ?_, instance'⟩
  obtain ⟨v, bound⟩ := Substitution.exists_of_mem_range member
  exact (defines _ bound).regular

end Terminal

end State

/-- A terminal state none of whose combinations depend on each other closes with one unifier, of which its solution is
an instance. -/
theorem close_of_terminal (posed : Posed setting.signature problem interner)
    (binary : EverySide (setting.signature.isBinary · = true) problem.equations)
    (terminal : Terminal setting problem interner state session)
    (solvable : Solvable setting.signature (Spelled setting.signature problem) n m session.names state)
    (separate : state.residual setting.signature = []) :
    ∃ σ : Substitution, close setting state = pure [σ.restrict setting.scope] ∧
      σ.IsRegular setting.signature.f ∧ ∃ m', RegularOn setting.signature m' ∧ Extends n m m' ∧
        ∀ v, EqualModulo setting.signature (m' v) ((σ.image v).instantiate m') := by
  obtain ⟨proper, m', solved, extended⟩ := solvable
  obtain ⟨σ, unified, regular, instance'⟩ :=
    State.exists_unifyAll_closing posed.sorted posed.within proper solved terminal.merged
    (terminal.reached.binary posed.interned binary) terminal.unbranched separate terminal.eliminated
  exact ⟨σ, State.close_of_unifyAll separate unified, regular, m', solved.regular, extended, instance'⟩

end ExpAC

end Equational
