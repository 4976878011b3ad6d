import Equational.Proofs.Unification.MostGeneral

/-! Syntactic unification as a recursion. Two applications are made equal by going down into their
arguments, one pair after the other, each under the bindings that the pairs before it have left. Nothing
in this definition says that it comes to an end: the bindings are applied on the way down, so the
arguments may be larger than the terms were. The worklist of the solver is the stack of such a descent
written out, and its measure carries over. -/

namespace Equational

namespace Substitution

variable {σ : Substitution} {v : Variable} {t : Term}

/-- Binds the variable, in the place of its earlier binding if there is one. -/
def overwrite (σ : Substitution) (v : Variable) (t : Term) : Substitution :=
  if unbound : v ∉ σ.domain then σ.extend v t unbound
  else
    { bindings := σ.bindings.map fun p => if p.1 = v then (v, t) else p
      distinct := by
        have keys : ∀ p ∈ σ.bindings, (Prod.fst ∘ fun p => if p.1 = v then (v, t) else p) p = p.1 := by
          intro p _
          rw [Function.comp_apply]
          split
          next same => exact same.symm
          next => rfl
        rw [List.map_map, List.map_congr_left keys]
        exact σ.distinct }

/-- Binds a variable of which nothing is known: an earlier binding is overwritten, and a binding to
itself is left out. -/
def assignAny (σ : Substitution) (v : Variable) (t : Term) : Substitution :=
  let t := σ.apply t
  let others := σ.mapRange (single v t).apply
  if t == .var v then others else others.overwrite v t

private theorem assignAny_eq_assign (unbound : v ∉ σ.domain) (proper : (σ.apply t == .var v) = false) :
    σ.assignAny v t = σ.assign v t unbound := by
  have unbound' : v ∉ (σ.mapRange (single v (σ.apply t)).apply).domain := by
    simpa [domain, mapRange, Function.comp_def] using unbound
  simp only [assignAny, proper, Bool.false_eq_true, ↓reduceIte, overwrite, dif_pos unbound']
  rfl

end Substitution

/-- Makes two terms equal under the bindings found so far. The recursion has no bound; without an
outcome it does not end. -/
def Term.descend (s t : Term) (σ : Substitution) : ExceptT Failure Option Substitution :=
  match Demand.between (σ.apply s) (σ.apply t) with
  | .error failure => throw failure
  | .ok .nothing => return σ
  | .ok (.binding v u) => return σ.assignAny v u
  | .ok (.equations pending) =>
    pending.foldlM (fun σ e => e.lhs |>.descend e.rhs σ) σ
partial_fixpoint

namespace Unifier

def descendAll (equations : List Equation) (σ : Substitution) : ExceptT Failure Option Substitution :=
  equations.foldlM (fun σ e => e.lhs.descend e.rhs σ) σ

section Unfolding

variable {s t : Term} {σ : Substitution}

private theorem descend_of_error {failure : Failure}
    (failed : Demand.between (σ.apply s) (σ.apply t) = .error failure) :
    s.descend t σ = throw failure := by
  rw [Term.descend, failed]

private theorem descend_of_nothing (none : Demand.between (σ.apply s) (σ.apply t) = .ok .nothing) :
    s.descend t σ = pure σ := by
  rw [Term.descend, none]

private theorem descend_of_binding {v : Variable} {u : Term}
    (binding : Demand.between (σ.apply s) (σ.apply t) = .ok (.binding v u)) :
    s.descend t σ = pure (σ.assignAny v u) := by
  rw [Term.descend, binding]

private theorem descend_of_equations {pending : List Equation}
    (equations : Demand.between (σ.apply s) (σ.apply t) = .ok (.equations pending)) :
    s.descend t σ = descendAll pending σ := by
  rw [Term.descend, equations]
  rfl

end Unfolding

variable {scope : List Variable} {σ : Substitution} {work : List Equation} {v : Variable} {t : Term}

private theorem descendAll_nil : descendAll [] = pure := rfl

private theorem descendAll_cons (e : Equation) (rest : List Equation) (σ : Substitution) :
    descendAll (e :: rest) σ = e.lhs.descend e.rhs σ >>= descendAll rest :=
  List.foldlM_cons

private theorem descendAll_append (first second : List Equation) (σ : Substitution) :
    descendAll (first ++ second) σ = descendAll first σ >>= descendAll second :=
  List.foldlM_append

private theorem Bindable.assignAny_eq (facts : Bindable scope σ v t) :
    σ.assignAny v t = σ.assign v t facts.unbound := by
  refine Substitution.assignAny_eq_assign facts.unbound ?_
  rw [Bool.eq_false_iff]
  intro itself
  have occurs : v ∈ (σ.apply t).vars := by simp [Substitution.eq_var_of_beq itself, Term.vars]
  obtain ⟨w, inside, found⟩ := Substitution.mem_vars_apply occurs
  rw [Substitution.image_of_not_mem (facts.free w inside), Term.vars, List.mem_singleton] at found
  exact facts.fresh (found ▸ inside)

/-- The descent into the equations of a worklist, one after the other, does what the solver does with the worklist. -/
theorem descendAll_eq_solve (inv : Invariant scope σ work) :
    (descendAll work σ).run = some (solve scope σ work inv) := by
  fun_induction solve scope σ work inv with
  | case1 σ inv => rfl
  | case2 σ e rest inv failure found =>
    rw [descendAll_cons, descend_of_error found]
    rfl
  | case3 σ e rest inv found _ ih =>
    rw [descendAll_cons, descend_of_nothing found, pure_bind]
    exact ih
  | case4 σ e rest inv v t found facts _ ih =>
    rw [descendAll_cons, descend_of_binding found, pure_bind, facts.assignAny_eq]
    exact ih
  -- The arguments come before what waits in the worklist, as the inner call returns before the outer goes on.
  | case5 σ e rest inv pending found shape _ ih =>
    rw [descendAll_cons, descend_of_equations found, ← descendAll_append]
    exact ih

structure Call where
  equation : Equation
  bindings : Substitution

/-- The one call makes the other, for a pair of arguments that is reached with the bindings which the
pairs before it have left. -/
inductive Call.Makes : Call → Call → Prop where
  | argument {e d : Equation} {σ τ : Substitution} {before after : List Equation}
      (found : Demand.between (σ.apply e.lhs) (σ.apply e.rhs) = .ok (.equations (before ++ d :: after)))
      (reached : (descendAll before σ).run = some (.ok τ)) : Makes ⟨e, σ⟩ ⟨d, τ⟩

private theorem progress_of_solve {θ : Substitution} {inv : Invariant scope σ work}
    (solved : solve scope σ work inv = .ok θ) :
    Invariant scope θ [] ∧ (θ = σ ∨ unbound scope θ < unbound scope σ) := by
  fun_induction solve scope σ work inv with
  | case1 σ inv =>
    cases solved
    exact ⟨inv, .inl rfl⟩
  | case2 => cases solved
  | case3 _ _ _ _ _ _ ih => exact ih solved
  | case4 σ e rest inv v t found facts _ ih =>
    obtain ⟨last, progress⟩ := ih solved
    have fewer := unbound_assign_lt facts.unbound facts.variableInScope (t := t)
    refine ⟨last, .inr ?_⟩
    rcases progress with rfl | more
    · exact fewer
    · exact more.trans fewer
  | case5 _ _ _ _ _ _ _ _ ih => exact ih solved

private theorem Call.Makes.descends {outer inner : Call} (makes : outer.Makes inner)
    (inv : Invariant scope outer.bindings [outer.equation]) :
    Invariant scope inner.bindings [inner.equation] ∧
      Prod.Lex (· < ·) (· < ·) (unbound scope inner.bindings, weight inner.bindings [inner.equation])
        (unbound scope outer.bindings, weight outer.bindings [outer.equation]) := by
  cases makes with
  | @argument e d σ τ before after found reached =>
    obtain ⟨f, g, xs, ys, left, right, pending⟩ := Demand.between_eq_equations found
    have arguments := inv.decompose left right
    have lighter := weight_decompose_lt inv left right
    rw [← pending, List.append_nil] at arguments lighter
    have earlier : Invariant scope σ before :=
      ⟨inv.solved, inv.bound, fun e member => arguments.pending e (List.mem_append_left _ member)⟩
    have solved := descendAll_eq_solve earlier
    rw [reached, Option.some.injEq] at solved
    obtain ⟨last, progress⟩ := progress_of_solve solved.symm
    have inScope := arguments.pending d (List.mem_append_right _ (List.mem_cons_self ..))
    refine ⟨⟨last.solved, last.bound, List.forall_mem_singleton.mpr inScope⟩, ?_⟩
    rcases progress with rfl | fewer
    · refine .right _ ?_
      simp only [weight_append, weight] at lighter ⊢
      omega
    · exact .left _ _ fewer

/-- Calls within calls come to an end. -/
theorem Call.acc (call : Call) (inv : Invariant scope call.bindings [call.equation]) :
    Acc (fun inner outer => outer.Makes inner) call :=
  .intro call fun inner makes => inner.acc (makes.descends inv).1
termination_by (unbound scope call.bindings, weight call.bindings [call.equation])
decreasing_by exact (makes.descends inv).2

end Unifier

/-- Whatever the laws of the symbols, on every pair of terms the recursion ends, with the outcome of the
solver, and no calls are nested in each other without end. -/
theorem unify_terminates (s t : Term) : (s.descend t .empty).run = some (unify s t) ∧
    Acc (fun inner outer => Unifier.Call.Makes outer inner) ⟨⟨s, t⟩, .empty⟩ := by
  have start := Unifier.Invariant.initial [⟨s, t⟩]
  have whole := Unifier.descendAll_eq_solve start
  rw [Unifier.descendAll_cons, Unifier.descendAll_nil, bind_pure] at whole
  exact ⟨whole, Unifier.Call.acc _ start⟩

end Equational
