import Equational.Proofs.Unification.Demand
import Equational.Unification.Syntactic
import Mathlib

/-! Syntactic unification as a run over bindings and worklist. A step never gains an assignment
under which everything holds, and over free symbols it never loses one. A run that ends
without work leaves a most general unifier, and a run that fails met two terms without a
common instance. -/

namespace Equational

namespace Unifier

section Unfolding

variable {scope : List Variable} {σ : Substitution} {e : Equation} {rest : List Equation}

theorem solve_nil (inv : Invariant scope σ []) : solve scope σ [] inv = .ok σ := by
  rw [solve]

variable (inv : Invariant scope σ (e :: rest))

theorem solve_of_error {failure : Failure}
    (failed : Demand.between (σ.apply e.lhs) (σ.apply e.rhs) = .error failure) :
    solve scope σ (e :: rest) inv = .error failure := by
  rw [solve]
  split
  next found =>
    cases failed.symm.trans found
    rfl
  next found => cases failed.symm.trans found
  next found => cases failed.symm.trans found
  next found => cases failed.symm.trans found

theorem solve_of_nothing (none : Demand.between (σ.apply e.lhs) (σ.apply e.rhs) = .ok .nothing) :
    solve scope σ (e :: rest) inv = solve scope σ rest inv.tail := by
  rw [solve]
  split
  next found => cases none.symm.trans found
  next => rfl
  next found => cases none.symm.trans found
  next found => cases none.symm.trans found

theorem solve_of_binding {v : Variable} {t : Term} (unbound : v ∉ σ.domain)
    (binding : Demand.between (σ.apply e.lhs) (σ.apply e.rhs) = .ok (.binding v t)) :
    ∃ inv' : Invariant scope (σ.assign v t unbound) rest, solve scope σ (e :: rest) inv = solve scope
      (σ.assign v t unbound) rest inv' := by
  have facts := inv.binding binding
  refine ⟨inv.assign unbound facts.fresh facts.free facts.inScope, ?_⟩
  rw [solve]
  split
  next found => cases binding.symm.trans found
  next found => cases binding.symm.trans found
  next found =>
    cases binding.symm.trans found
    rfl
  next found => cases binding.symm.trans found

theorem solve_of_equations {pending : List Equation}
    (equations : Demand.between (σ.apply e.lhs) (σ.apply e.rhs) = .ok (.equations pending)) :
    ∃ inv' : Invariant scope σ (pending ++ rest), solve scope σ (e :: rest) inv = solve scope σ
      (pending ++ rest) inv' := by
  obtain ⟨f, g, xs, ys, left, right, rfl⟩ := Demand.between_eq_equations equations
  refine ⟨inv.decompose left right, ?_⟩
  rw [solve]
  split
  next found => cases equations.symm.trans found
  next found => cases equations.symm.trans found
  next found => cases equations.symm.trans found
  next found =>
    cases equations.symm.trans found
    rfl

end Unfolding

structure Configuration where
  bindings : Substitution
  work : List Equation

namespace Configuration

def Holds (c : Configuration) (m : Variable → Term) : Prop :=
  c.bindings.Holds m ∧ ∀ e ∈ c.work, e.Holds m

structure Everywhere (P : Term → Prop) (c : Configuration) : Prop where
  range : ∀ t ∈ c.bindings.range, P t
  work : ∀ e ∈ c.work, P e.lhs ∧ P e.rhs

end Configuration

/-- The demand that the first equation makes under the bindings is taken up. -/
inductive Step : Configuration → Configuration → Prop where
  | skip {σ : Substitution} {e : Equation} {rest : List Equation}
      (found : Demand.Arises (σ.apply e.lhs) (σ.apply e.rhs) .nothing) : Step ⟨σ, e :: rest⟩ ⟨σ, rest⟩
  | bind {σ : Substitution} {e : Equation} {rest : List Equation} {v : Variable} {t : Term}
      (found : Demand.Arises (σ.apply e.lhs) (σ.apply e.rhs) (.binding v t)) (unbound : v ∉ σ.domain) :
      Step ⟨σ, e :: rest⟩ ⟨σ.assign v t unbound, rest⟩
  | split {σ : Substitution} {e : Equation} {rest pending : List Equation}
      (found : Demand.Arises (σ.apply e.lhs) (σ.apply e.rhs) (.equations pending)) :
      Step ⟨σ, e :: rest⟩ ⟨σ, pending ++ rest⟩

abbrev Run := Relation.ReflTransGen Step

private theorem run_of_solve {scope : List Variable} {σ θ : Substitution} {work : List Equation}
    {inv : Invariant scope σ work} (solved : solve scope σ work inv = .ok θ) : Run ⟨σ, work⟩ ⟨θ, []⟩ := by
  fun_induction solve scope σ work inv with
  | case1 σ inv =>
    cases solved
    exact .refl
  | case2 => cases solved
  | case3 σ e rest inv found _ ih => exact .head (.skip (Demand.arises_of_between found)) (ih solved)
  | case4 σ e rest inv v t found facts _ ih =>
    exact .head (.bind (Demand.arises_of_between found) facts.unbound) (ih solved)
  | case5 σ e rest inv pending found shape _ ih => exact .head (.split (Demand.arises_of_between found)) (ih solved)

/-- A failure comes from two terms that were met on the way. -/
theorem run_of_solve_error {scope : List Variable} {σ : Substitution} {work : List Equation} {failure : Failure}
    {inv : Invariant scope σ work} (failed : solve scope σ work inv = .error failure) :
    ∃ θ e rest, Run ⟨σ, work⟩ ⟨θ, e :: rest⟩ ∧ Demand.between (θ.apply e.lhs) (θ.apply e.rhs) = .error failure := by
  fun_induction solve scope σ work inv with
  | case1 => cases failed
  | case2 σ e rest inv failure' found =>
    cases failed
    exact ⟨σ, e, rest, .refl, found⟩
  | case3 σ e rest inv found _ ih =>
    obtain ⟨θ, e', rest', run, clash⟩ := ih failed
    exact ⟨θ, e', rest', .head (.skip (Demand.arises_of_between found)) run, clash⟩
  | case4 σ e rest inv v t found facts _ ih =>
    obtain ⟨θ, e', rest', run, clash⟩ := ih failed
    exact ⟨θ, e', rest', .head (.bind (Demand.arises_of_between found) facts.unbound) run, clash⟩
  | case5 σ e rest inv pending found shape _ ih =>
    obtain ⟨θ, e', rest', run, clash⟩ := ih failed
    exact ⟨θ, e', rest', .head (.split (Demand.arises_of_between found)) run, clash⟩

section Step

variable {c d : Configuration} {m : Variable → Term}

private theorem Configuration.Everywhere.sides {P : Term → Prop} (substitutive : Term.Substitutive P)
    {σ : Substitution} {e : Equation} {rest : List Equation} (every : Configuration.Everywhere P ⟨σ, e :: rest⟩) :
    P (σ.apply e.lhs) ∧ P (σ.apply e.rhs) :=
  have first := every.work e (List.mem_cons_self ..)
  ⟨substitutive.apply every.range first.1, substitutive.apply every.range first.2⟩

private theorem Step.everywhere {P : Term → Prop} (substitutive : Term.Substitutive P) (step : Step c d)
    (every : c.Everywhere P) : d.Everywhere P := by
  have tail {σ : Substitution} {e : Equation} {rest : List Equation}
      (every : Configuration.Everywhere P ⟨σ, e :: rest⟩) :
      ∀ e ∈ rest, P e.lhs ∧ P e.rhs := fun e member => every.work e (List.mem_cons_of_mem _ member)
  cases step with
  | skip => exact ⟨every.range, tail every⟩
  | @bind σ e rest v t found unbound =>
    have sides := every.sides substitutive
    refine ⟨Substitution.range_assign substitutive unbound every.range ?_, tail every⟩
    cases found with
    | binding roots =>
      rcases roots with ⟨_, rfl⟩ | ⟨_, rfl⟩
      · exact sides.2
      · exact sides.1
  | @split σ e rest pending found =>
    have sides := every.sides substitutive
    refine ⟨every.range, ?_⟩
    intro d member
    rcases List.mem_append.mp member with new | old
    · cases found with
      | equations left right =>
        rw [left, right] at sides
        obtain ⟨i, within, rfl⟩ := List.getElem_of_mem new
        rw [List.getElem_zipWith]
        exact ⟨substitutive.argument sides.1 _ (List.getElem_mem _),
          substitutive.argument sides.2 _ (List.getElem_mem _)⟩
    · exact tail every d old

theorem head?_eq_some_of_over {known : FunctionSymbol → Prop} {t : Term} (spelled : t.Over known) {f : FunctionSymbol}
    (root : t.head? = some f) : known f := by
  obtain ⟨args, rfl⟩ := Term.exists_of_head? root
  exact (Term.over_node.mp spelled).1

private theorem Step.holds_before {known : FunctionSymbol → Prop} (consistent : Consistent known) (step : Step c d)
    (spelled : c.Everywhere (Term.Over known)) (after : d.Holds m) : c.Holds m := by
  have first {σ : Substitution} {e : Equation} {rest : List Equation} {demand : Demand}
      (spelled : Configuration.Everywhere (Term.Over known) ⟨σ, e :: rest⟩) (holds : σ.Holds m)
      (found : Demand.Arises (σ.apply e.lhs) (σ.apply e.rhs) demand) (met : demand.Met m) : e.Holds m := by
    have sides := spelled.sides (Term.hereditary_over known).substitutive
    have equal := found.sound (fun f g left right =>
      consistent f g (head?_eq_some_of_over sides.1 left) (head?_eq_some_of_over sides.2 right)) met
    exact (holds.apply e.lhs).symm.trans (equal.trans (holds.apply e.rhs))
  cases step with
  | skip found => exact ⟨after.1, List.forall_mem_cons.mpr ⟨first spelled after.1 found trivial, after.2⟩⟩
  | bind found unbound =>
    obtain ⟨earlier, value⟩ := (Substitution.holds_assign_iff unbound).mp after.1
    exact ⟨earlier, List.forall_mem_cons.mpr ⟨first spelled earlier found value, after.2⟩⟩
  | split found =>
    obtain ⟨met, rest⟩ := List.forall_mem_append.mp after.2
    exact ⟨after.1, List.forall_mem_cons.mpr ⟨first spelled after.1 found met, rest⟩⟩

/-- Over free symbols, a step loses no assignment under which everything holds. -/
theorem Step.holds_after (step : Step c d) (free : c.Everywhere Term.IsFree) (before : c.Holds m) : d.Holds m := by
  have demanded {σ : Substitution} {e : Equation} {rest : List Equation} {demand : Demand}
      (free : Configuration.Everywhere Term.IsFree ⟨σ, e :: rest⟩) (before : Configuration.Holds ⟨σ, e :: rest⟩ m)
      (found : Demand.Arises (σ.apply e.lhs) (σ.apply e.rhs) demand) : demand.Met m := by
    have sides := free.sides (Term.hereditary_over _).substitutive
    have equal := before.2 e (List.mem_cons_self ..)
    exact found.met sides.1 sides.2 ((before.1.apply e.lhs).trans (equal.trans (before.1.apply e.rhs).symm))
  have tail := fun {σ : Substitution} {e : Equation} {rest : List Equation}
    (before : Configuration.Holds ⟨σ, e :: rest⟩ m) => (List.forall_mem_cons.mp before.2).2
  cases step with
  | skip => exact ⟨before.1, tail before⟩
  | bind found unbound =>
    exact ⟨(Substitution.holds_assign_iff unbound).mpr ⟨before.1, demanded free before found⟩, tail before⟩
  | split found => exact ⟨before.1, List.forall_mem_append.mpr ⟨demanded free before found, tail before⟩⟩

private theorem Step.sorted (step : Step c d) (free : c.Everywhere Term.IsFree) (sorted : c.bindings.SortPreserving) :
    d.bindings.SortPreserving := by
  cases step with
  | skip => exact sorted
  | split => exact sorted
  | @bind σ e rest v t found unbound =>
    have sides := free.sides (Term.hereditary_over _).substitutive
    have kept : t.IsFree ∧ t.sort = v.sort := by
      cases found with
      | binding roots sorts =>
        rcases roots with ⟨_, rfl⟩ | ⟨_, rfl⟩
        · exact ⟨sides.2, sorts⟩
        · exact ⟨sides.1, sorts⟩
    have value : (σ.apply t).sort = v.sort := (sorted.apply fun g member => by simp [kept.1 g member]).trans kept.2
    intro p member
    rcases (Substitution.mem_bindings_assign unbound).mp member with ⟨r, inside, same⟩ | ⟨same, new⟩
    · have single : (Substitution.single v (σ.apply t)).SortPreserving := by
        intro q only
        rw [List.mem_singleton.mp only, value]
      rw [← same, single.apply fun g occurs => by simp [free.range r (Substitution.mem_range_of_mem inside) g occurs]]
      exact sorted _ inside
    · rw [new, same, value]

end Step

section Run

variable {c d : Configuration} {m : Variable → Term}

private theorem Run.everywhere {P : Term → Prop} (substitutive : Term.Substitutive P) (run : Run c d)
    (every : c.Everywhere P) : d.Everywhere P := by
  induction run with
  | refl => exact every
  | tail _ step ih => exact step.everywhere substitutive ih

private theorem Run.holds_before {known : FunctionSymbol → Prop} (consistent : Consistent known) (run : Run c d)
    (spelled : c.Everywhere (Term.Over known)) (after : d.Holds m) : c.Holds m := by
  induction run using Relation.ReflTransGen.head_induction_on with
  | refl => exact after
  | head step _ ih =>
    exact step.holds_before consistent spelled
      (ih (step.everywhere (Term.hereditary_over known).substitutive spelled))

private theorem Run.holds_after (run : Run c d) (free : c.Everywhere Term.IsFree) (before : c.Holds m) :
    d.Holds m := by
  induction run with
  | refl => exact before
  | tail earlier step ih =>
    exact step.holds_after (Run.everywhere (Term.hereditary_over _).substitutive earlier free) ih

private theorem Run.sorted (run : Run c d) (free : c.Everywhere Term.IsFree) (sorted : c.bindings.SortPreserving) :
    d.bindings.SortPreserving := by
  induction run with
  | refl => exact sorted
  | tail earlier step ih => exact step.sorted (Run.everywhere (Term.hereditary_over _).substitutive earlier free) ih

end Run

/-- The result is solved, and only variables of the scope have been bound. -/
theorem solved_of_solve {scope : List Variable} {σ θ : Substitution} {work : List Equation}
    {inv : Invariant scope σ work} (solved : solve scope σ work inv = .ok θ) (bound : ∀ v ∈ σ.domain, v ∈ scope) :
    Invariant scope θ [] ∧ ∀ v ∈ θ.domain, v ∈ scope := by
  fun_induction solve scope σ work inv with
  | case1 σ inv =>
    cases solved
    exact ⟨inv, bound⟩
  | case2 => cases solved
  | case3 _ _ _ _ _ _ ih => exact ih solved bound
  | case4 σ e rest inv v t found facts _ ih =>
    refine ih solved ?_
    intro w member
    rw [Substitution.domain_assign, List.mem_append, List.mem_singleton] at member
    rcases member with old | rfl
    · exact bound w old
    · exact facts.variableInScope
  | case5 _ _ _ _ _ _ _ _ ih => exact ih solved bound

end Unifier

namespace Substitution

theorem holds_of_apply_eq {σ : Substitution} {e : Equation} (left : e.lhs.isCanonical = true)
    (right : e.rhs.isCanonical = true) : (σ.apply e.lhs == σ.apply e.rhs) = true ↔ e.Holds σ.image := by
  rw [Term.beq_iff_shape, σ.shape_apply left, σ.shape_apply right]
  rfl

theorem unifies_iff {σ : Substitution} {equations : List Equation}
    (canonical : ∀ e ∈ equations, e.lhs.isCanonical = true ∧ e.rhs.isCanonical = true) :
    σ.Unifies equations ↔ ∀ e ∈ equations, e.Holds σ.image :=
  forall₂_congr fun e member => holds_of_apply_eq (canonical e member).1 (canonical e member).2

/-- An equation holds under a composition when its instance holds under the second part. -/
theorem holds_compose_iff {σ : Substitution} (canonical : ∀ t ∈ σ.range, t.isCanonical = true) (τ : Substitution)
    (e : Equation) : e.Holds (σ.compose τ).image ↔ (σ.applyEquation e).Holds τ.image := by
  simp only [Equation.Holds]
  rw [instantiate_compose canonical, instantiate_compose canonical]
  rfl

theorem isIdempotent_iff {σ : Substitution} : σ.isIdempotent = true ↔ ∀ t ∈ σ.range, ∀ v ∈ t.vars, v ∉ σ.domain := by
  simp only [isIdempotent, List.all_eq_true, Bool.not_eq_true', Term.contains, ← Bool.not_eq_true,
    List.contains_iff_mem]
  exact forall₂_congr fun t _ => ⟨fun apart v occurs bound => apart v bound occurs,
    fun apart v bound occurs => apart v occurs bound⟩

theorem isIdempotent_of_solved {σ : Substitution} (solved : ∀ t ∈ σ.range, ∀ v ∈ t.vars, v ∉ σ.domain) :
    σ.isIdempotent = true :=
  isIdempotent_iff.mpr solved

end Substitution

theorem Term.isCanonical_of_free {t : Term} (free : t.IsFree) : t.isCanonical = true := by
  induction t with
  | var v => rfl
  | const c => rfl
  | node f args ih =>
    obtain ⟨root, each⟩ := over_node.mp free
    refine isCanonical_node.mpr ⟨isReduced_iff.mpr ?_, fun arg member => ih arg member (each arg member)⟩
    simp [root, SymbolTheory.isAssociative]

section UnifyAll

variable {equations : List Equation} {σ : Substitution} {m : Variable → Term}

def EverySide (P : Term → Prop) (equations : List Equation) : Prop :=
  ∀ e ∈ equations, P e.lhs ∧ P e.rhs

instance {P : Term → Prop} [DecidablePred P] : Decidable (EverySide P equations) :=
  inferInstanceAs (Decidable (∀ e ∈ equations, P e.lhs ∧ P e.rhs))

@[simp] theorem everySide_nil {P : Term → Prop} : EverySide P [] :=
  fun _ member => nomatch member

@[simp] theorem everySide_cons {P : Term → Prop} {e : Equation} :
    EverySide P (e :: equations) ↔ (P e.lhs ∧ P e.rhs) ∧ EverySide P equations :=
  List.forall_mem_cons

theorem EverySide.imp {P Q : Term → Prop} (sides : EverySide P equations) (weaker : ∀ {t}, P t → Q t) :
    EverySide Q equations := by
  intro e member
  exact ⟨weaker (sides e member).1, weaker (sides e member).2⟩

theorem everySide_filter {P : Term → Prop} (sides : EverySide P equations) (test : Equation → Bool) :
    EverySide P (equations.filter test) :=
  fun e member => sides e (List.mem_of_mem_filter member)

theorem everySide_applyEquation {P : Term → Prop} (substitutive : Term.Substitutive P) (range : ∀ t ∈ σ.range, P t)
    (sides : EverySide P equations) : EverySide P (equations.map σ.applyEquation) := by
  intro e member
  obtain ⟨origin, inside, rfl⟩ := List.mem_map.mp member
  exact ⟨substitutive.apply range (sides origin inside).1, substitutive.apply range (sides origin inside).2⟩

private theorem initial_everywhere {P : Term → Prop} (sides : EverySide P equations) :
    Unifier.Configuration.Everywhere P ⟨.empty, equations⟩ where
  range := by simp [Substitution.empty, Substitution.range]
  work := sides

/-- The bindings that are found imply the equations, whatever the laws of the symbols. -/
theorem holds_of_unifyAll {known : FunctionSymbol → Prop} (consistent : Consistent known)
    (spelled : EverySide (Term.Over known) equations) (solved : unifyAll equations = .ok σ) (holds : σ.Holds m) :
    ∀ e ∈ equations, e.Holds m :=
  ((Unifier.run_of_solve solved).holds_before consistent (initial_everywhere spelled) ⟨holds, by simp⟩).2

theorem range_of_substitutive {P : Term → Prop} (substitutive : Term.Substitutive P) (sides : EverySide P equations)
    (solved : unifyAll equations = .ok σ) : ∀ t ∈ σ.range, P t :=
  ((Unifier.run_of_solve solved).everywhere substitutive (initial_everywhere sides)).range

theorem range_of_unifyAll {P : Term → Prop} (hereditary : Term.Hereditary P) (sides : EverySide P equations)
    (solved : unifyAll equations = .ok σ) : ∀ t ∈ σ.range, P t :=
  range_of_substitutive hereditary.substitutive sides solved

theorem solved_of_unifyAll (solved : unifyAll equations = .ok σ) :
    (∀ t ∈ σ.range, ∀ v ∈ t.vars, v ∉ σ.domain) ∧ (∀ t ∈ σ.range, ∀ v ∈ t.vars, v ∈ equations.flatMap Equation.vars) ∧
      ∀ v ∈ σ.domain, v ∈ equations.flatMap Equation.vars := by
  obtain ⟨inv, bound⟩ := Unifier.solved_of_solve solved (by simp [Substitution.empty, Substitution.domain])
  exact ⟨inv.solved, inv.bound, bound⟩

/-- The bindings that are found hold under themselves. -/
theorem holds_image_of_unifyAll (canonical : EverySide (·.isCanonical = true) equations)
    (solved : unifyAll equations = .ok σ) : σ.Holds σ.image :=
  Substitution.holds_image (solved_of_unifyAll solved).1
    (range_of_unifyAll Term.hereditary_isCanonical canonical solved)

theorem sortPreserving_of_unifyAll (free : EverySide Term.IsFree equations) (solved : unifyAll equations = .ok σ) :
    σ.SortPreserving :=
  (Unifier.run_of_solve solved).sorted (initial_everywhere free)
    (by simp [Substitution.SortPreserving, Substitution.empty])

/-- Over free symbols, an assignment that solves the equations agrees with the bindings found. -/
theorem unifyAll_of_holds (free : EverySide Term.IsFree equations) (sorted : ∀ v, (m v).sort = v.sort)
    (holds : ∀ e ∈ equations, e.Holds m) : ∃ σ, unifyAll equations = .ok σ ∧ σ.Holds m := by
  have start : Unifier.Configuration.Holds ⟨.empty, equations⟩ m := ⟨Substitution.holds_empty m, holds⟩
  cases solved : unifyAll equations with
  | ok σ => exact ⟨σ, rfl, ((Unifier.run_of_solve solved).holds_after (initial_everywhere free) start).1⟩
  | error failure =>
    obtain ⟨θ, e, rest, run, clash⟩ := Unifier.run_of_solve_error solved
    have reached := run.holds_after (initial_everywhere free) start
    have every := run.everywhere (Term.hereditary_over _).substitutive (initial_everywhere free)
    have sides := every.sides (Term.hereditary_over _).substitutive
    have equal := reached.2 e (List.mem_cons_self ..)
    obtain ⟨demand, found⟩ := Demand.exists_between sides.1 sides.2 sorted
      ((reached.1.apply e.lhs).trans (equal.trans (reached.1.apply e.rhs).symm))
    rw [clash] at found
    cases found

end UnifyAll

def Equation.symbols (e : Equation) : List FunctionSymbol :=
  e.lhs.symbols ++ e.rhs.symbols

theorem everySide_over_symbols {equations : List Equation} {known : FunctionSymbol → Prop}
    (each : ∀ f ∈ equations.flatMap Equation.symbols, known f) : EverySide (Term.Over known) equations := by
  intro e member
  constructor <;> intro g occurs <;> refine each g (List.mem_flatMap.mpr ⟨e, member, List.mem_append.mpr ?_⟩)
  · exact .inl occurs
  · exact .inr occurs

/-- Over free symbols that go by their numbers, success gives an idempotent unifier of which every
unifier is an instance, and failure means that there is no unifier. -/
theorem unifyAll_mostGeneral (equations : List Equation)
    (free : ∀ f ∈ equations.flatMap Equation.symbols, f.theory = .free)
    (consistent : Consistent (· ∈ equations.flatMap Equation.symbols)) :
    match unifyAll equations with
    | .ok σ =>
      σ.Unifies equations ∧ σ.isIdempotent = true ∧ (∀ v ∈ σ.domain, ∃ e ∈ equations, v ∈ e.vars) ∧
        ∀ τ : Substitution, τ.SortPreserving → τ.Unifies equations →
          ∀ v, (τ.apply (.var v) == τ.apply (σ.apply (.var v))) = true
    | .error _ => ∀ τ : Substitution, τ.SortPreserving → ¬ τ.Unifies equations := by
  have freeSides : EverySide Term.IsFree equations := everySide_over_symbols free
  have canonical : EverySide (·.isCanonical = true) equations := freeSides.imp Term.isCanonical_of_free
  have general {τ : Substitution} (sorted : τ.SortPreserving) (unifies : τ.Unifies equations) :=
    unifyAll_of_holds freeSides sorted.image ((Substitution.unifies_iff canonical).mp unifies)
  cases solved : unifyAll equations with
  | error failure =>
    intro τ sorted unifies
    obtain ⟨σ, found, _⟩ := general sorted unifies
    rw [solved] at found
    cases found
  | ok σ =>
    have spelled : EverySide (Term.Over (· ∈ equations.flatMap Equation.symbols)) equations :=
      everySide_over_symbols fun _ member => member
    have holds := holds_of_unifyAll consistent spelled solved (holds_image_of_unifyAll canonical solved)
    obtain ⟨separate, _, bound⟩ := solved_of_unifyAll solved
    refine ⟨(Substitution.unifies_iff canonical).mpr holds, Substitution.isIdempotent_of_solved separate,
      fun v member => List.mem_flatMap.mp (bound v member), ?_⟩
    intro τ sorted unifies v
    obtain ⟨σ', found, instances⟩ := general sorted unifies
    obtain rfl : σ = σ' := by
      rw [solved] at found
      exact Except.ok.inj found
    have range := range_of_unifyAll Term.hereditary_isCanonical canonical solved
    rw [Term.beq_iff_shape, Substitution.apply_var, Substitution.apply_var,
      τ.shape_apply (Substitution.image_hereditary Term.hereditary_isCanonical range v)]
    exact instances v

/-- One equation whose second arguments meet only after the first have been bound. -/
def sharedVariable : List Equation :=
  let h : FunctionSymbol := ⟨⟨0⟩, 2, .free, .default, .default⟩
  let g : FunctionSymbol := ⟨⟨1⟩, 1, .free, .default, .default⟩
  let x : Variable := ⟨⟨0⟩, .default⟩
  let y : Variable := ⟨⟨1⟩, .default⟩
  let z : Variable := ⟨⟨2⟩, .default⟩
  [⟨.node h [.var x, .node g [.var y]], .node h [.node g [.var z], .var x]⟩]

theorem unifyAll_mostGeneral_sharedVariable :
    (∀ f ∈ sharedVariable.flatMap Equation.symbols, f.theory = .free) ∧
    Consistent (· ∈ sharedVariable.flatMap Equation.symbols) ∧
    ∃ σ, unifyAll sharedVariable = .ok σ ∧ σ.Unifies sharedVariable ∧ σ.isIdempotent = true ∧
      (∀ v ∈ σ.domain, ∃ e ∈ sharedVariable, v ∈ e.vars) ∧
      ∀ τ : Substitution, τ.SortPreserving → τ.Unifies sharedVariable →
        ∀ v, (τ.apply (.var v) == τ.apply (σ.apply (.var v))) = true := by
  have free : ∀ f ∈ sharedVariable.flatMap Equation.symbols, f.theory = .free := by decide
  have consistent : Consistent (· ∈ sharedVariable.flatMap Equation.symbols) := by decide
  have succeeds : (unifyAll sharedVariable).isOk = true := by cbv
  have facts := unifyAll_mostGeneral sharedVariable free consistent
  cases solved : unifyAll sharedVariable with
  | ok σ =>
    rw [solved] at facts
    exact ⟨free, consistent, σ, rfl, facts⟩
  | error failure =>
    rw [solved] at succeeds
    cases succeeds

end Equational
