import Equational.Proofs.Term.Regular
import Equational.Proofs.Unification.MostGeneral

/-! Equations that define variables in order. When every variable is defined once, by a term over
variables of lower rank, then no two terms are ever taken apart, so the equations have a unifier
whatever the laws of the symbols. Variables of which nothing is known but constants may be defined
before, and more than once if their constants agree. -/

namespace Equational

namespace Unifier

variable {f : FunctionSymbol} {rank : Variable → Nat} {σ : Substitution} {work rest : List Equation}
  {e d : Equation} {t : Term} {x : Variable}

/-- A regular term of the sort of the variable, over variables of lower rank. -/
structure Defines (f : FunctionSymbol) (rank : Variable → Nat) (x : Variable) (t : Term) : Prop where
  sort : x.sort = f.range
  regular : t.isRegular f = true
  lower : ∀ w ∈ t.vars, rank w < rank x

/-- Each equation defines a variable that is not bound yet, and no two define the same. -/
structure Triangular (f : FunctionSymbol) (rank : Variable → Nat) (σ : Substitution) (work : List Equation) :
    Prop where
  bound : ∀ p ∈ σ.bindings, Defines f rank p.1 p.2
  ready : ∀ e ∈ work, ∃ x, e.lhs = .var x ∧ x ∉ σ.domain ∧ Defines f rank x e.rhs
  apart : work.Pairwise fun e d => e.lhs ≠ d.lhs

variable (laws : f.theory = .associativeCommutative)
include laws

private theorem Defines.apply (bound : ∀ p ∈ σ.bindings, Defines f rank p.1 p.2) (defines : Defines f rank x t) :
    Defines f rank x (σ.apply t) := by
  refine ⟨defines.sort, ?_, fun v occurs => ?_⟩
  · rcases σ.apply_eq_or t with rebuilt | ⟨_, kept⟩
    · rw [rebuilt]
      refine Term.isRegular_instantiate laws defines.regular fun v occurs => ?_
      rcases σ.image_mem_or v with listed | ⟨_, free⟩
      · exact (bound _ listed).regular
      · rw [free]
        exact Term.isRegular_var.mpr (Term.sort_of_mem_vars defines.regular occurs)
    · rw [kept]
      exact defines.regular
  · obtain ⟨w, inside, found⟩ := Substitution.mem_vars_apply occurs
    have below := defines.lower w inside
    rcases σ.image_mem_or w with listed | ⟨_, free⟩
    · exact Nat.lt_trans ((bound _ listed).lower v found) below
    · rw [free, Term.vars, List.mem_singleton] at found
      rwa [found]

private theorem Triangular.between (triangular : Triangular f rank σ (e :: rest)) :
    ∃ x, e.lhs = .var x ∧ Defines f rank x e.rhs ∧
    Demand.between (σ.apply e.lhs) (σ.apply e.rhs) = .ok (.binding x (σ.apply e.rhs)) := by
  obtain ⟨x, left, free, defines⟩ := triangular.ready e (List.mem_cons_self ..)
  have image := defines.apply laws triangular.bound
  have sorts : (σ.apply e.rhs).sort = x.sort := (Term.sort_of_isRegular image.regular).trans image.sort.symm
  refine ⟨x, left, defines, ?_⟩
  rw [left, Substitution.apply_var, Substitution.image_of_not_mem free]
  exact Demand.between_var sorts fun occurs => Nat.lt_irrefl _ (image.lower x occurs)

private theorem Triangular.assign (triangular : Triangular f rank σ (e :: rest)) (left : e.lhs = .var x)
    (defines : Defines f rank x e.rhs) (unbound : x ∉ σ.domain) :
    Triangular f rank (σ.assign x (σ.apply e.rhs) unbound) rest := by
  obtain ⟨apart, later⟩ := List.pairwise_cons.mp triangular.apart
  have image' := defines.apply laws triangular.bound
  have single : ∀ p ∈ (Substitution.single x (σ.apply (σ.apply e.rhs))).bindings, Defines f rank p.1 p.2 := by
    simpa [Substitution.single] using image'.apply laws triangular.bound
  refine ⟨fun p listed => ?_, fun d member => ?_, later⟩
  · rcases (Substitution.mem_bindings_assign unbound).mp listed with ⟨r, old, image⟩ | ⟨same, image⟩
    · rw [← image]
      exact (triangular.bound _ old).apply laws single
    · rw [same, image]
      exact image'.apply laws triangular.bound
  · obtain ⟨y, left', free, defines'⟩ := triangular.ready d (List.mem_cons_of_mem _ member)
    have other : y ≠ x := fun same => apart d member (by rw [left, left', same])
    refine ⟨y, left', ?_, defines'⟩
    rw [Substitution.domain_assign]
    simp [free, other]

/-- The search ends with definitions, and with everything else that bindings by the equations keep. -/
theorem Triangular.exists_solve {scope : List Variable} (inv : Invariant scope σ work) {P : Substitution → Prop}
    (triangular : Triangular f rank σ work) (start : P σ)
    (keeps : ∀ e ∈ work, ∀ σ x (unbound : x ∉ σ.domain), e.lhs = .var x → P σ →
      P (σ.assign x (σ.apply e.rhs) unbound)) :
    ∃ θ, solve scope σ work inv = .ok θ ∧ (∀ p ∈ θ.bindings, Defines f rank p.1 p.2) ∧ P θ := by
  fun_induction solve scope σ work inv with
  | case1 σ inv => exact ⟨σ, rfl, triangular.bound, start⟩
  | case4 σ e rest inv v u found facts _ ih =>
    obtain ⟨x, left, defines, binding⟩ := triangular.between laws
    rw [binding] at found
    cases found
    exact ih (triangular.assign laws left defines facts.unbound)
      (keeps e (List.mem_cons_self ..) σ _ facts.unbound left start)
      fun d member => keeps d (List.mem_cons_of_mem e member)
  | case2 σ e rest inv _ found | case3 σ e rest inv found | case5 σ e rest inv _ found =>
    obtain ⟨x, _, _, binding⟩ := triangular.between laws
    rw [binding] at found
    cases found

section Constants

variable {m : Variable → Term} {scope : List Variable} {c : Constant}

omit laws

/-- A constant, or a variable of its sort with its value, is given the constant. -/
structure Given (f : FunctionSymbol) (m : Variable → Term) (e : Equation) (c : Constant) : Prop where
  right : e.rhs = .const c
  sort : c.sort = f.range
  left : e.lhs = .const c ∨ ∃ x, e.lhs = .var x ∧ x.sort = f.range ∧ (m x).shape = .const c

/-- The bindings give variables their values, which are constants. -/
structure Constants (f : FunctionSymbol) (m : Variable → Term) (σ : Substitution) : Prop where
  bound : ∀ p ∈ σ.bindings, p.1.sort = f.range ∧ ∃ c : Constant, p.2 = .const c ∧ c.sort = f.range
  holds : σ.Holds m

private theorem Constants.between (constants : Constants f m σ) (given : Given f m e c) :
    Demand.between (σ.apply e.lhs) (σ.apply e.rhs) = .ok .nothing ∨
      ∃ x, e.lhs = .var x ∧ x.sort = f.range ∧ (m x).shape = .const c ∧ x ∉ σ.domain ∧
        Demand.between (σ.apply e.lhs) (σ.apply e.rhs) = .ok (.binding x (.const c)) := by
  have same : Demand.between (.const c) (.const c) = .ok .nothing := by simp [Demand.between]
  rw [given.right, Substitution.apply_const]
  rcases given.left with left | ⟨x, left, sort, value⟩
  · rw [left, Substitution.apply_const]
    exact .inl same
  · rw [left, Substitution.apply_var]
    rcases σ.image_mem_or x with listed | ⟨unbound, free⟩
    · obtain ⟨_, d, image, _⟩ := constants.bound _ listed
      change σ.image x = .const d at image
      have instance' := constants.holds x
      rw [image, value, Term.instantiate, Term.shape, Term.const.injEq] at instance'
      rw [image, ← instance']
      exact .inl same
    · refine .inr ⟨x, rfl, sort, value, unbound, ?_⟩
      rw [free]
      exact Demand.between_var (given.sort.trans sort.symm) (by simp [Term.vars])

private theorem Constants.assign (constants : Constants f m σ) (unbound : x ∉ σ.domain) (sort : x.sort = f.range)
    (sort' : c.sort = f.range) (value : (m x).shape = .const c) : Constants f m (σ.assign x (.const c) unbound) := by
  refine ⟨fun p listed => ?_, (Substitution.holds_assign_iff unbound).mpr ⟨constants.holds, value⟩⟩
  rcases (Substitution.mem_bindings_assign unbound).mp listed with ⟨r, old, image⟩ | ⟨same, image⟩
  · obtain ⟨sort₁, d, constant, sort₂⟩ := constants.bound _ old
    refine ⟨sort₁, d, ?_, sort₂⟩
    change r = .const d at constant
    rw [← image, constant, Substitution.apply_const]
  · rw [same, image, Substitution.apply_const]
    exact ⟨sort, c, rfl, sort'⟩

private theorem Constants.exists_solve (inv : Invariant scope σ (work ++ rest)) (constants : Constants f m σ)
    (given : ∀ e ∈ work, ∃ c, Given f m e c) : ∃ (θ : Substitution) (inv' : Invariant scope θ rest),
      solve scope σ (work ++ rest) inv = solve scope θ rest inv' ∧ Constants f m θ ∧
        ∀ v ∈ θ.domain, v ∈ σ.domain ∨ ∃ e ∈ work, e.lhs = .var v := by
  induction work generalizing σ with
  | nil => exact ⟨σ, inv, rfl, constants, fun v bound => .inl bound⟩
  | cons e work ih =>
    obtain ⟨⟨c, first⟩, later⟩ := List.forall_mem_cons.mp given
    have fewer {v : Variable} (found : ∃ d ∈ work, d.lhs = .var v) : ∃ d ∈ e :: work, d.lhs = .var v := by
      obtain ⟨d, member, left⟩ := found
      exact ⟨d, List.mem_cons_of_mem e member, left⟩
    rcases constants.between first with none | ⟨x, left, sort, value, unbound, binding⟩
    · obtain ⟨θ, inv', same, constants', domain⟩ := ih inv.tail constants later
      exact ⟨θ, inv', (solve_of_nothing inv none).trans same, constants',
        fun v bound => (domain v bound).imp_right fewer⟩
    · obtain ⟨inv₁, step⟩ := solve_of_binding inv unbound binding
      obtain ⟨θ, inv', same, constants', domain⟩ := ih inv₁ (constants.assign unbound sort first.sort value) later
      refine ⟨θ, inv', step.trans same, constants', fun v bound => ?_⟩
      rcases domain v bound with earlier | among
      · rw [Substitution.domain_assign, List.mem_append, List.mem_singleton] at earlier
        rcases earlier with old | rfl
        · exact .inl old
        · exact .inr ⟨e, List.mem_cons_self .., left⟩
      · exact .inr (fewer among)

end Constants

end Unifier

/-- Definitions in order have a unifier, with everything that bindings by them keep. -/
theorem exists_unifyAll_of_defines {f : FunctionSymbol} {rank : Variable → Nat} {equations : List Equation}
    {P : Substitution → Prop} (laws : f.theory = .associativeCommutative)
    (ready : ∀ e ∈ equations, ∃ x, e.lhs = .var x ∧ Unifier.Defines f rank x e.rhs)
    (apart : equations.Pairwise fun e d => e.lhs ≠ d.lhs) (start : P .empty)
    (keeps : ∀ e ∈ equations, ∀ σ x (unbound : x ∉ σ.domain), e.lhs = .var x → P σ →
      P (σ.assign x (σ.apply e.rhs) unbound)) :
    ∃ σ, unifyAll equations = .ok σ ∧ (∀ p ∈ σ.bindings, Unifier.Defines f rank p.1 p.2) ∧ P σ := by
  refine Unifier.Triangular.exists_solve laws _ ⟨nofun, fun e member => ?_, apart⟩ start keeps
  obtain ⟨x, left, defines⟩ := ready e member
  exact ⟨x, left, by simp [Substitution.domain, Substitution.empty], defines⟩

/-- So have constants that are given, followed by definitions of other variables, and what satisfies them all is an
instance of the unifier. -/
theorem exists_unifyAll_of_constants {f : FunctionSymbol} (rank : Variable → Nat)
    {constants equations : List Equation}
    {m : Variable → Term} (laws : f.theory = .associativeCommutative)
    (given : ∀ e ∈ constants, ∃ c, Unifier.Given f m e c)
    (ready : ∀ e ∈ equations, ∃ x, e.lhs = .var x ∧ Unifier.Defines f rank x e.rhs)
    (apart : equations.Pairwise fun e d => e.lhs ≠ d.lhs) (others : ∀ e ∈ constants, ∀ d ∈ equations, e.lhs ≠ d.lhs)
    (holds : ∀ e ∈ equations, e.Holds m) : ∃ σ, unifyAll (constants ++ equations) = .ok σ ∧ σ.Holds m := by
  have start : Unifier.Constants f m .empty := ⟨List.forall_mem_nil _, Substitution.holds_empty m⟩
  obtain ⟨θ, inv, same, found, domain⟩ := start.exists_solve (.initial (constants ++ equations)) given
  have triangular : Unifier.Triangular f rank θ equations := by
    refine ⟨fun p listed => ?_, fun e member => ?_, apart⟩
    · obtain ⟨sort, c, constant, sort'⟩ := found.bound p listed
      rw [constant]
      exact ⟨sort, by simpa [Term.isRegular, Term.everyNode_const, Term.sort] using sort', by simp [Term.vars]⟩
    · obtain ⟨x, left, defines⟩ := ready e member
      refine ⟨x, left, fun bound => ?_, defines⟩
      obtain ⟨d, listed, left'⟩ := (domain x bound).resolve_left List.not_mem_nil
      exact others d listed e member (left'.trans left.symm)
  obtain ⟨σ, solved, _, holds⟩ := triangular.exists_solve laws inv (P := fun σ => σ.Holds m) found.holds
    fun e member σ x unbound left earlier => by
      have value := holds e member
      rw [Equation.Holds, left] at value
      exact (Substitution.holds_assign_iff unbound).mpr ⟨earlier, value.trans (earlier.apply e.rhs).symm⟩
  exact ⟨σ, same.trans solved, holds⟩

end Equational
