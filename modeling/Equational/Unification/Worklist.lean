import Equational.Unification.Demand

/-! The worklist of syntactic unification: what its equations and the bindings found so far have
to do with each other, and why it ends. Splitting an application makes the worklist lighter,
and a binding uses up a variable of the scope for good. -/

namespace Equational

namespace Unifier

/-- What holds between the bindings and the worklist: the bindings are solved, and every
variable in sight belongs to the scope. -/
structure Invariant (scope : List Variable) (σ : Substitution) (work : List Equation) : Prop where
  solved : ∀ t ∈ σ.range, ∀ v ∈ t.vars, v ∉ σ.domain
  bound : ∀ t ∈ σ.range, ∀ v ∈ t.vars, v ∈ scope
  pending : ∀ e ∈ work, ∀ v ∈ e.vars, v ∈ scope

/-- How many occurrences of the scope are still free to be bound. -/
def unbound (scope : List Variable) (σ : Substitution) : Nat :=
  scope.countP fun v => !σ.domain.contains v

/-- The size of the worklist as the bindings make it. -/
def weight (σ : Substitution) : List Equation → Nat
  | [] => 0
  | e :: work => (σ.applyEquation e).size + weight σ work

variable {scope : List Variable} {σ : Substitution} {e : Equation} {rest : List Equation}

theorem Invariant.initial (equations : List Equation) :
    Invariant (equations.flatMap Equation.vars) .empty equations where
  solved := by simp [Substitution.empty, Substitution.range]
  bound := by simp [Substitution.empty, Substitution.range]
  pending e member v occurs := List.mem_flatMap.mpr ⟨e, member, occurs⟩

theorem Invariant.tail (inv : Invariant scope σ (e :: rest)) : Invariant scope σ rest where
  solved := inv.solved
  bound := inv.bound
  pending e member := inv.pending e (List.mem_cons_of_mem _ member)

/-- A term under the bindings has no bound variable left and stays in scope. -/
theorem Invariant.image (inv : Invariant scope σ work) {t : Term} (inScope : ∀ v ∈ t.vars, v ∈ scope)
    {v : Variable} (member : v ∈ (σ.apply t).vars) : v ∉ σ.domain ∧ v ∈ scope := by
  obtain ⟨w, occurs, found⟩ := Substitution.mem_vars_apply member
  unfold Substitution.image at found
  cases bound : σ.find? w with
  | some t =>
    simp only [bound, Option.getD_some] at found
    have member := Substitution.mem_range_of_find? bound
    exact ⟨inv.solved t member v found, inv.bound t member v found⟩
  | none =>
    simp only [bound, Option.getD_none, Term.vars, List.mem_singleton] at found
    subst found
    exact ⟨Substitution.find?_eq_none_iff.mp bound, inScope _ occurs⟩

theorem Invariant.assign (inv : Invariant scope σ (e :: rest)) {v : Variable} {t : Term}
    (unbound : v ∉ σ.domain) (fresh : v ∉ t.vars) (free : ∀ w ∈ t.vars, w ∉ σ.domain)
    (inScope : ∀ w ∈ t.vars, w ∈ scope) : Invariant scope (σ.assign v t unbound) rest := by
  have same : ∀ w ∈ (σ.apply t).vars, w ∈ t.vars := by
    intro w member
    obtain ⟨x, occurs, found⟩ := Substitution.mem_vars_apply member
    simp only [Substitution.image_of_not_mem (free x occurs), Term.vars, List.mem_singleton] at found
    exact found ▸ occurs
  refine ⟨fun u member w occurs => ?_, fun u member w occurs => ?_, inv.tail.pending⟩
  · simp only [Substitution.domain_assign, List.mem_append, List.mem_singleton, not_or]
    rcases Substitution.mem_range_assign member occurs with new | ⟨other, earlier, inside, old⟩
    · exact ⟨free w (same w new), fun equal => fresh (equal ▸ same w new)⟩
    · exact ⟨inv.solved earlier inside w old, other⟩
  · rcases Substitution.mem_range_assign member occurs with new | ⟨_, earlier, inside, old⟩
    · exact inScope w (same w new)
    · exact inv.bound earlier inside w old

theorem Invariant.decompose (inv : Invariant scope σ (e :: rest)) {f g : FunctionSymbol} {xs ys : List Term}
    (left : σ.apply e.lhs = .node f xs) (right : σ.apply e.rhs = .node g ys) :
    Invariant scope σ (List.zipWith Equation.mk xs ys ++ rest) where
  solved := inv.solved
  bound := inv.bound
  pending := by
    intro d member v occurs
    rcases List.mem_append.mp member with new | old
    · obtain ⟨i, within, rfl⟩ := List.getElem_of_mem new
      simp only [List.getElem_zipWith, Equation.vars, List.mem_append] at occurs
      have pending := inv.pending e (List.mem_cons_self ..)
      simp only [Equation.vars, List.mem_append] at pending
      rcases occurs with occurs | occurs
      · refine (inv.image (fun w member => pending w (.inl member)) (t := e.lhs) ?_).2
        rw [left, Term.vars, Term.mem_varsList]
        exact ⟨_, List.getElem_mem _, occurs⟩
      · refine (inv.image (fun w member => pending w (.inr member)) (t := e.rhs) ?_).2
        rw [right, Term.vars, Term.mem_varsList]
        exact ⟨_, List.getElem_mem _, occurs⟩
    · exact inv.pending d (List.mem_cons_of_mem _ old) v occurs

structure Bindable (scope : List Variable) (σ : Substitution) (v : Variable) (t : Term) : Prop where
  unbound : v ∉ σ.domain
  fresh : v ∉ t.vars
  free : ∀ w ∈ t.vars, w ∉ σ.domain
  inScope : ∀ w ∈ t.vars, w ∈ scope
  variableInScope : v ∈ scope

theorem Invariant.binding (inv : Invariant scope σ (e :: rest)) {v : Variable} {t : Term}
    (found : Demand.between (σ.apply e.lhs) (σ.apply e.rhs) = .ok (.binding v t)) : Bindable scope σ v t := by
  obtain ⟨sides, fresh⟩ := Demand.between_eq_binding found
  have pending := inv.pending e (List.mem_cons_self ..)
  simp only [Equation.vars, List.mem_append] at pending
  have left := fun w member => inv.image (fun x m => pending x (.inl m)) (t := e.lhs) (v := w) member
  have right := fun w member => inv.image (fun x m => pending x (.inr m)) (t := e.rhs) (v := w) member
  rcases sides with ⟨root, rfl⟩ | ⟨root, rfl⟩
  · have self := left v (by simp [root, Term.vars])
    exact ⟨self.1, fresh, fun w m => (right w m).1, fun w m => (right w m).2, self.2⟩
  · have self := right v (by simp [root, Term.vars])
    exact ⟨self.1, fresh, fun w m => (left w m).1, fun w m => (left w m).2, self.2⟩

theorem unbound_assign_lt {v : Variable} {t : Term} (unbound : v ∉ σ.domain) (inScope : v ∈ scope) :
    Unifier.unbound scope (σ.assign v t unbound) < Unifier.unbound scope σ := by
  unfold Unifier.unbound
  rw [Substitution.domain_assign]
  induction scope with
  | nil => simp at inScope
  | cons w scope ih =>
    have weaker : scope.countP (fun x => !(σ.domain ++ [v]).contains x) ≤
        scope.countP fun x => !σ.domain.contains x := by
      refine List.countP_mono_left fun x _ open' => ?_
      simp_all
    by_cases same : w = v
    · subst same
      have taken : (!(σ.domain ++ [w]).contains w) = false := by simp
      have free : (!σ.domain.contains w) = true := by simpa using unbound
      rw [List.countP_cons, List.countP_cons, taken, free]
      simp only [Bool.false_eq_true, ↓reduceIte]
      omega
    · have later : v ∈ scope := (List.mem_cons.mp inScope).resolve_left fun h => same h.symm
      have unchanged : (!(σ.domain ++ [v]).contains w) = !σ.domain.contains w := by simp [same]
      rw [List.countP_cons, List.countP_cons, unchanged]
      have := ih later
      omega

theorem weight_append (first second : List Equation) :
    weight σ (first ++ second) = weight σ first + weight σ second := by
  induction first with
  | nil => simp [weight]
  | cons e first ih => simp only [List.cons_append, weight, ih, Nat.add_assoc]

theorem weight_zipWith_le {xs ys : List Term} (left : ∀ x ∈ xs, (σ.apply x).size ≤ x.size)
    (right : ∀ y ∈ ys, (σ.apply y).size ≤ y.size) :
    weight σ (List.zipWith Equation.mk xs ys) ≤ Term.sizeList xs + Term.sizeList ys := by
  induction xs generalizing ys with
  | nil => simp [weight]
  | cons x xs ih =>
    cases ys with
    | nil => simp [weight]
    | cons y ys =>
      simp only [List.mem_cons, forall_eq_or_imp] at left right
      have := ih left.2 right.2
      simp only [weight, Equation.size, Substitution.applyEquation, List.zipWith_cons_cons, Term.sizeList] at this ⊢
      omega

theorem weight_tail_lt : weight σ rest < weight σ (e :: rest) := by
  have : 0 < (σ.applyEquation e).size := by
    unfold Equation.size
    have := (σ.apply e.lhs).size_pos
    simp only [Substitution.applyEquation]
    omega
  simp only [weight]
  omega

/-- The arguments of two applications weigh less than the applications. -/
theorem weight_decompose_lt (inv : Invariant scope σ (e :: rest)) {f g : FunctionSymbol} {xs ys : List Term}
    (left : σ.apply e.lhs = .node f xs) (right : σ.apply e.rhs = .node g ys) :
    weight σ (List.zipWith Equation.mk xs ys ++ rest) < weight σ (e :: rest) := by
  have pending := inv.pending e (List.mem_cons_self ..)
  simp only [Equation.vars, List.mem_append] at pending
  have inner : weight σ (List.zipWith Equation.mk xs ys) ≤ Term.sizeList xs + Term.sizeList ys := by
    refine weight_zipWith_le (fun x member => ?_) (fun y member => ?_)
    · refine Substitution.size_apply_le fun v occurs => (inv.image (fun w m => pending w (.inl m)) (t := e.lhs) ?_).1
      rw [left, Term.vars, Term.mem_varsList]
      exact ⟨x, member, occurs⟩
    · refine Substitution.size_apply_le fun v occurs => (inv.image (fun w m => pending w (.inr m)) (t := e.rhs) ?_).1
      rw [right, Term.vars, Term.mem_varsList]
      exact ⟨y, member, occurs⟩
  rw [weight_append]
  simp only [weight, Equation.size, Substitution.applyEquation, left, right, Term.size] at inner ⊢
  omega

end Unifier

end Equational
